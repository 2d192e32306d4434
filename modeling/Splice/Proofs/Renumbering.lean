import Splice.Proofs.Acts
import Splice.Proofs.Placing
import Splice.Proofs.Respelling
import Splice.Source.References

/-!
# Renumbered sources

Renumbering shifts the references of a source and moves its markers one
assembly outward. Nothing else in its outline changes. Only a marker that
turns into a reference of one digit can run into a digit behind it; where that
happens the coarse outline is still kept.
-/

namespace Splice

open Lexer

namespace Mark

def shift (offset : Nat) : Mark → Mark
  | .refers n q => .refers (n + offset) q
  | .defers ⟨0, index⟩ q => .refers index q
  | .defers ⟨depth + 1, index⟩ q => .defers ⟨depth, index⟩ q
  | m => m

theorem shift_alike (offset : Nat) (m : Mark) : Alike m (m.shift offset) := by
  unfold shift
  split
  · exact ⟨by simp, by simp⟩
  · exact ⟨by simp, by simp⟩
  · exact ⟨by simp, by simp⟩
  · exact ⟨fun _ => rfl, Iff.rfl⟩

theorem event?_shift (offset : Nat) (m : Mark) :
    (m.shift offset).event? = m.event?.map (Event.shift offset) := by
  match m with
  | .opens true | .opens false | .closes | .bar | .broken => rfl
  | .refers n q | .defers ⟨0, i⟩ q | .defers ⟨d + 1, i⟩ q => rfl

theorem isFinal_shift (offset : Nat) (m : Mark) : (m.shift offset).isFinal = m.isFinal := by
  match m with
  | .opens b | .closes | .bar | .broken => rfl
  | .refers n q | .defers ⟨0, i⟩ q | .defers ⟨d + 1, i⟩ q => cases q <;> rfl

theorem isClear_shift {offset : Nat} {m : Mark} (h : m.isClear) : (m.shift offset).isClear := by
  match m with
  | .opens b | .closes | .bar | .broken => rfl
  | .refers n q | .defers ⟨0, i⟩ q => rfl
  | .defers ⟨d + 1, i⟩ q => cases q <;> simp_all [shift, isClear]

end Mark

variable {fine : Bool} {context : Context} {c : Char} {k : TokenKind} {n : Nat} {offset : Word}
  {s t : Text} {ts us : List Token}

-- ---------------------------------------------------------------------------
-- New references and markers
-- ---------------------------------------------------------------------------

theorem scan_reference (h0 : 0 < n) (h : n ≤ 99)
    (hd : n ≤ 9 → t.head?.any Char.isDigit = false) :
    scan .pattern '\\' (Text.decimal n ++ t) =
      (.escape (.backReference n), (Text.decimal n).length) := by
  have hv := Text.digitsValue_decimal n
  have hdigit : ∀ c ∈ Text.decimal n, c.isDigit := fun c => Text.isDigit_of_mem_decimal
  rcases Text.decimal_cases h0 h with ⟨a, ha, ha0, h9⟩ | ⟨a, b, hab, ha0, -⟩
  · rw [ha] at hv hdigit ⊢
    rw [Text.digitsValue_singleton] at hv
    have hd := hd h9
    rw [List.singleton_append, scan_escape]
    cases t with
    | nil => simp [scanEscape, hdigit, ha0, scanReference, hv]
    | cons b t =>
      have hb : b.isDigit = false := by simpa using hd
      simp [scanEscape, hdigit, ha0, scanReference, hv, hb]
  · rw [hab] at hv hdigit ⊢
    rw [Text.digitsValue_pair] at hv
    rw [List.cons_append, List.singleton_append, scan_escape]
    simp [scanEscape, hdigit, ha0, scanReference, hv]

def referenceToken (n : Nat) : Token :=
  ⟨.escape (.backReference n), '\\' :: Text.decimal n, .pattern⟩

theorem lexed_reference (h0 : 0 < n) (h : n ≤ 99)
    (hd : n ≤ 9 → (untokenize us).head?.any Char.isDigit = false) (hus : Lexed .pattern us) :
    Lexed .pattern (referenceToken n :: us) :=
  .cons (scan_reference h0 h hd) hus

theorem lexed_glued (h0 : 0 < n) (h9 : n ≤ 9) (hc : c.isDigit) (hus : Lexed .pattern us) :
    ∃ m, Lexed .pattern (⟨.escape (.backReference m), '\\' :: (Text.decimal n ++ [c]), .pattern⟩ ::
      us) := by
  have hdigit : ∀ c ∈ Text.decimal n, c.isDigit := fun c => Text.isDigit_of_mem_decimal
  rcases Text.decimal_cases h0 (by omega) with ⟨a, ha, ha0, -⟩ | ⟨a, b, -, -, h10⟩
  · rw [ha] at hdigit ⊢
    refine ⟨10 * digit a + digit c, .cons ?_ hus⟩
    have hs : scan .pattern '\\' (a :: c :: untokenize us) =
        (.escape (.backReference (10 * digit a + digit c)), 2) := by
      rw [scan_escape]
      simp [scanEscape, hdigit, ha0, scanReference, hc]
    exact hs
  · omega

def markerToken (m : Marker) : Token := ⟨.groupOpen (.deferred m), m.render, .pattern⟩

theorem lexed_marker {m : Marker} (hd : m.depth < wordLimit) (hi : m.index < wordLimit)
    (hus : Lexed .pattern us) : Lexed .pattern (markerToken m :: us) := by
  have hs : scan .pattern '(' (m.renderTail ++ untokenize us) =
      (.groupOpen (.deferred m), m.renderTail.length) := by
    rw [scan_group]
    simp [scanGroup, Marker.tail?_renderTail hd hi]
  exact .cons hs hus

-- ---------------------------------------------------------------------------
-- Old references and markers
-- ---------------------------------------------------------------------------

theorem digit_pos (hc : c.isDigit) (h0 : c ≠ '0') : 0 < digit c := by
  simp only [Char.isDigit, Bool.and_eq_true, decide_eq_true_eq] at hc
  have hle : '0'.toNat ≤ c.toNat := hc.1
  have hne : c.toNat ≠ '0'.toNat := fun h => h0 (Char.toNat_inj.mp h)
  simp only [digit]
  omega

theorem scanEscape_ne_backReference (hc : c.isDigit = false) :
    (scanEscape c t).1 ≠ .backReference n := by
  have named : (scanNamedReference t).1 ≠ .backReference n := by
    unfold scanNamedReference
    split
    · split <;> simp
    · simp
  have unicode : (scanUnicode t).1 ≠ .backReference n := by
    unfold scanUnicode
    split
    · simp
    · split <;> simp
  simp only [scanEscape, hc, Bool.false_eq_true, if_false]
  split <;> first
    | exact named
    | exact unicode
    | (split <;> simp)
    | simp

/-- Back references start at one, and one of a single digit is read only where
no digit follows. -/
theorem of_scan_reference {l : Nat} (h : scan context '\\' t = (.escape (.backReference n), l)) :
    0 < n ∧ (n ≤ 9 → (t.drop l).head?.any Char.isDigit = false) := by
  cases t with
  | nil => simp [scan] at h
  | cons a t =>
    rw [scan_escape, Prod.mk.injEq, TokenKind.escape.injEq] at h
    obtain ⟨h, rfl⟩ := h
    cases ha : a.isDigit with
    | false => exact absurd h (scanEscape_ne_backReference ha)
    | true =>
      by_cases h0 : a = '0'
      · subst h0
        have : (scanEscape '0' t).1 ≠ .backReference n := by
          simp only [scanEscape, scanZero]
          split <;> simp <;> split <;> simp
        exact absurd h this
      · have hpos := digit_pos ha h0
        simp only [scanEscape, ha, h0, if_true, if_false] at h ⊢
        cases t with
        | nil =>
          simp only [scanReference, Escape.backReference.injEq] at h ⊢
          exact ⟨by omega, fun _ => rfl⟩
        | cons b t =>
          cases hb : b.isDigit with
          | true =>
            simp only [scanReference, hb, if_true, Escape.backReference.injEq] at h
            exact ⟨by omega, fun h9 => by omega⟩
          | false =>
            simp only [scanReference, hb, Bool.false_eq_true, if_false,
              Escape.backReference.injEq] at h ⊢
            exact ⟨by omega, fun _ => by simpa using hb⟩

theorem of_scan_marker {m : Marker} {l : Nat}
    (h : scan context c t = (.groupOpen (.deferred m), l)) :
    m.depth < wordLimit ∧ m.index < wordLimit := by
  by_cases hc : c = '('
  · subst hc
    cases context with
    | charClass => simp [scan] at h
    | pattern =>
      rw [scan_group, Prod.mk.injEq, TokenKind.groupOpen.injEq] at h
      cases ht : Marker.tail? t with
      | some a =>
        simp only [scanGroup, ht, GroupOpener.deferred.injEq] at h
        rw [← h.1]
        exact Marker.lt_of_tail? ht
      | none =>
        simp only [scanGroup, ht] at h
        split at h <;> simp at h
  · unfold scan at h
    split at h
    all_goals first
      | exact absurd rfl hc
      | (split at h <;> simp at h)
      | simp at h

-- ---------------------------------------------------------------------------
-- Tokens under renumbering
-- ---------------------------------------------------------------------------

theorem backReference_ok (h : backReference n = .ok t) : n ≤ 99 ∧ t = '\\' :: Text.decimal n := by
  unfold backReference at h
  split at h
  · simp at h
  · rename_i hn
    rw [Except.ok.injEq] at h
    exact ⟨by simpa [maxBackReference] using hn, h.symm⟩

theorem reference_ok {text : Text} :
    (⟨.escape (.backReference n), text, .pattern⟩ : Token).renumber offset = .ok t ↔
      n + offset.toNat ≤ 99 ∧ t = '\\' :: Text.decimal (n + offset.toNat) := by
  show shiftedReference offset n = .ok t ↔ _
  rw [shiftedReference_eq]
  split
  · rename_i hfar
    simp only [maxBackReference] at hfar
    constructor
    · nofun
    · omega
  · rename_i hnear
    rw [Except.ok.injEq, eq_comm]
    exact (and_iff_right (Nat.not_lt.mp hnear)).symm

theorem resolved_ok {index : Nat} {text : Text}
    (h : (⟨.groupOpen (.deferred ⟨0, index⟩), text, .pattern⟩ : Token).renumber offset = .ok t) :
    0 < index ∧ index ≤ 99 ∧ t = '\\' :: Text.decimal index := by
  replace h : (if index = 0 then .error (.invalidBackReference index)
    else backReference index) = .ok t := h
  split at h
  · cases h
  · rename_i h0
    exact ⟨Nat.pos_of_ne_zero h0, backReference_ok h⟩

def Token.renumbered (offset : Word) (a : Token) : Token :=
  match a.operator? with
  | some (.escape (.backReference n)) => referenceToken (n + offset.toNat)
  | some (.groupOpen (.deferred ⟨0, index⟩)) => referenceToken index
  | some (.groupOpen (.deferred ⟨depth + 1, index⟩)) => markerToken ⟨depth, index⟩
  | _ => a

theorem Token.renumbered_cases (a : Token) :
    (∀ offset, a.renumbered offset = a ∧ a.renumber offset = .ok a.text) ∨
    (∃ n text, a = ⟨.escape (.backReference n), text, .pattern⟩) ∨
    (∃ index text, a = ⟨.groupOpen (.deferred ⟨0, index⟩), text, .pattern⟩) ∨
    ∃ depth index text, a = ⟨.groupOpen (.deferred ⟨depth + 1, index⟩), text, .pattern⟩ := by
  obtain ⟨k, text, context⟩ := a
  cases context with
  | charClass => exact .inl fun _ => ⟨rfl, rfl⟩
  | pattern =>
    cases k with
    | escape e =>
      cases e with
      | backReference n => exact .inr (.inl ⟨n, text, rfl⟩)
      | _ => exact .inl fun _ => ⟨rfl, rfl⟩
    | groupOpen g =>
      cases g with
      | deferred m =>
        obtain ⟨_ | depth, index⟩ := m
        · exact .inr (.inr (.inl ⟨index, text, rfl⟩))
        · exact .inr (.inr (.inr ⟨depth, index, text, rfl⟩))
      | _ => exact .inl fun _ => ⟨rfl, rfl⟩
    | _ => exact .inl fun _ => ⟨rfl, rfl⟩

theorem Token.text_renumbered {a : Token} (h : a.renumber offset = .ok t) :
    (a.renumbered offset).text = t := by
  obtain ha | ⟨n, text, rfl⟩ | ⟨index, text, rfl⟩ | ⟨depth, index, text, rfl⟩ := a.renumbered_cases
  · rw [(ha offset).1]
    exact Except.ok.inj ((ha offset).2.symm.trans h)
  · exact (reference_ok.mp h).2.symm
  · exact (resolved_ok h).2.2.symm
  · exact Except.ok.inj h

/-- The index that a marker of depth zero is resolved to. -/
def Token.resolved? (a : Token) : Option Nat :=
  match a.operator? with
  | some (.groupOpen (.deferred ⟨0, index⟩)) => some index
  | _ => none

theorem Token.of_resolved? {text : Text} {index : Nat}
    (h : (⟨k, text, context⟩ : Token).resolved? = some index) :
    k = .groupOpen (.deferred ⟨0, index⟩) ∧ context = .pattern := by
  unfold resolved? at h
  split at h
  · rename_i i ho
    obtain rfl := Option.some.inj h
    cases context with
    | charClass => cases ho
    | pattern => exact ⟨Option.some.inj ho, rfl⟩
  · cases h

theorem Token.mark?_renumbered (a : Token) (q : Sequel) :
    (a.mark? fine q).map (Mark.shift offset.toNat) = (a.renumbered offset).mark? fine q := by
  have kept : ∀ {b : Token},
      (b.operator?.bind (TokenKind.mark? fine q)).map (Mark.shift offset.toNat) =
        b.operator?.bind (TokenKind.mark? fine q) →
          (b.mark? fine q).map (Mark.shift offset.toNat) = b.mark? fine q := by
    intro b hb
    unfold mark?
    split
    · exact hb
    · rfl
  obtain ⟨k, text, context⟩ := a
  cases context with
  | charClass => exact kept rfl
  | pattern =>
    cases k with
    | escape e =>
      cases e with
      | backReference n => cases fine <;> rfl
      | _ => exact kept rfl
    | groupOpen g =>
      cases g with
      | deferred m =>
        obtain ⟨_ | depth, index⟩ := m
        · cases fine <;> rfl
        · cases fine <;> rfl
      | _ => exact kept rfl
    | _ => exact kept rfl

theorem Token.isReference_renumbered (a : Token) :
    (a.renumbered offset).isReference = a.isReference := by
  obtain ha | ⟨n, text, rfl⟩ | ⟨index, text, rfl⟩ | ⟨depth, index, text, rfl⟩ := a.renumbered_cases
  · rw [(ha offset).1]
  · rfl
  · rfl
  · rfl

theorem Token.contextAfter_renumbered (a : Token) (context : Context) :
    contextAfter context (a.renumbered offset).kind = contextAfter context a.kind := by
  obtain ha | ⟨n, text, rfl⟩ | ⟨index, text, rfl⟩ | ⟨depth, index, text, rfl⟩ := a.renumbered_cases
  · rw [(ha offset).1]
  · rfl
  · rfl
  · rfl

/-- One renumbered token is read in front of others, unless it is a marker that is
resolved to a reference of one digit with a digit behind it. -/
theorem Respells.renumbered (h : Respells (contextAfter context k) ts us)
    (read : scan context c (r ++ untokenize ts) = (k, r.length))
    (whole : (⟨k, c :: r, context⟩ : Token).isWhole)
    (ok : (⟨k, c :: r, context⟩ : Token).renumber offset = .ok t)
    (apart : ∀ index, (⟨k, c :: r, context⟩ : Token).resolved? = some index → index ≤ 9 →
      (untokenize ts).head?.any Char.isDigit = false) :
    Respells context (⟨k, c :: r, context⟩ :: ts)
      ((⟨k, c :: r, context⟩ : Token).renumbered offset :: us) := by
  obtain ha | ⟨n, text, ha⟩ | ⟨index, text, ha⟩ | ⟨depth, index, text, ha⟩ :=
    Token.renumbered_cases ⟨k, c :: r, context⟩
  · rw [(ha offset).1]
    exact h.keep read whole
  · obtain ⟨rfl, rfl, rfl⟩ := Token.mk.inj ha
    obtain rfl : c = '\\' := of_scan read rfl
    obtain ⟨hn, -⟩ := reference_ok.mp ok
    obtain ⟨hpos, hone⟩ := of_scan_reference read
    rw [List.drop_left] at hone
    have hlexed : Lexed .pattern (referenceToken (n + offset.toNat) :: us) :=
      lexed_reference (by omega) hn (fun h9 => h.digit.trans (hone (by omega))) h.lexed
    exact .renew hlexed ⟨_, _, rfl, rfl⟩ ⟨_, _, rfl, .inl rfl⟩
  · obtain ⟨rfl, rfl, rfl⟩ := Token.mk.inj ha
    obtain rfl : c = '(' := of_scan read rfl
    obtain ⟨hpos, h99, -⟩ := resolved_ok ok
    have hlexed : Lexed .pattern (referenceToken index :: us) :=
      lexed_reference hpos h99 (fun h9 => h.digit.trans (apart index rfl h9)) h.lexed
    exact .renew hlexed ⟨_, _, rfl, rfl⟩ ⟨_, _, rfl, .inl rfl⟩
  · obtain ⟨rfl, rfl, rfl⟩ := Token.mk.inj ha
    obtain rfl : c = '(' := of_scan read rfl
    obtain ⟨hd, hi⟩ := of_scan_marker read
    have hlexed : Lexed .pattern (markerToken ⟨depth, index⟩ :: us) :=
      lexed_marker (Nat.lt_of_succ_lt hd) hi h.lexed
    exact .renew hlexed ⟨_, _, rfl, rfl⟩ ⟨_, _, rfl, .inr (.inr rfl)⟩

-- ---------------------------------------------------------------------------
-- Sources under renumbering
-- ---------------------------------------------------------------------------

def Token.isShortReference (t : Token) : Bool :=
  match t.operator? with
  | some (.escape (.backReference _)) => t.text.length == 2
  | _ => false

/-- A short reference at the end comes from a reference at the end. -/
def EndsAlike (ts us : List Token) : Prop :=
  us.getLast?.any Token.isShortReference → ts.getLast?.any Token.isReference

theorem EndsAlike.cons {a b : Token} (h : EndsAlike ts us) (hnil : us = [] ↔ ts = [])
    (hab : b.isShortReference → a.isReference) : EndsAlike (a :: ts) (b :: us) := by
  intro hlast
  cases us with
  | nil =>
    obtain rfl := hnil.mp rfl
    exact hab hlast
  | cons u us =>
    cases ts with
    | nil => exact absurd (hnil.mpr rfl) (by simp)
    | cons t ts =>
      rw [List.getLast?_cons_cons] at hlast ⊢
      exact h hlast

theorem EndsAlike.glued {a b d : Token} (h : EndsAlike ts (d :: us)) (hts : ts ≠ [])
    (hb : b.isShortReference = false) : EndsAlike (a :: ts) (b :: us) := by
  intro hlast
  cases us with
  | nil => simp [hb] at hlast
  | cons u us =>
    cases ts with
    | nil => exact absurd rfl hts
    | cons t ts =>
      rw [List.getLast?_cons_cons] at hlast ⊢
      exact h (by rwa [List.getLast?_cons_cons])

theorem Token.isReference_of_isShortReference {a : Token} (h : a.isShortReference) :
    a.isReference := by
  unfold isShortReference at h
  unfold isReference
  split at h
  · rename_i ho
    simp [ho]
  · simp at h

theorem Lexed.of_digit (h : Lexed .pattern us)
    (hd : (untokenize us).head?.any Char.isDigit) :
    ∃ a rest, a.isDigit ∧ us = ⟨.char, [a], .pattern⟩ :: rest ∧ Lexed .pattern rest := by
  cases h with
  | nil => simp [untokenize] at hd
  | @cons _ a r k ts read rest =>
    have ha : a.isDigit := by simpa [untokenize] using hd
    rw [scan_digit ha, Prod.mk.injEq] at read
    obtain ⟨rfl, hr⟩ := read
    obtain rfl := List.length_eq_zero_iff.mp hr.symm
    exact ⟨a, ts, ha, rfl, rest⟩

theorem outlineFrom_map {a b : Token} {g : Mark → Mark}
    (hm : ∀ q, (a.mark? fine q).map g = b.mark? fine q)
    (hk : contextAfter context b.kind = contextAfter context a.kind)
    (hq : Sequel.of (untokenize us) = .of (untokenize ts))
    (hout : outlineFrom fine (contextAfter context a.kind) us =
      (outlineFrom fine (contextAfter context a.kind) ts).map g) :
    outlineFrom fine context (b :: us) = (outlineFrom fine context (a :: ts)).map g := by
  rw [outlineFrom_cons, outlineFrom_cons, hk, hq, hout, List.map_append, ← Option.toList_map, hm]

theorem Lexed.renumber {texts : List Text} (h : Lexed context ts) (hw : ∀ t ∈ ts, t.isWhole)
    (hc : fine → ∀ m ∈ outlineFrom fine context ts, m.isClear)
    (hr : ts.mapM (Token.renumber offset) = .ok texts) :
    ∃ us, untokenize us = texts.flatten ∧ Respells context ts us ∧ EndsAlike ts us ∧
      us.any Token.isReference = ts.any Token.isReference ∧
      outlineFrom fine context us =
        (outlineFrom fine context ts).map (Mark.shift offset.toNat) := by
  induction h generalizing texts with
  | nil =>
    obtain rfl : texts = [] := by simpa [pure, Except.pure] using hr.symm
    refine ⟨[], rfl, .nil, fun h => h, rfl, ?_⟩
    unfold outlineFrom
    split <;> rfl
  | @cons context c r k ts read rest ih =>
    obtain ⟨text, texts, ht, hts, rfl⟩ := mapM_cons_ok hr
    rw [List.forall_mem_cons] at hw
    simp only [outlineFrom_cons, List.forall_mem_append] at hc
    obtain ⟨us, htext, hus, hend, hany, hout⟩ := ih hw.2 (fun hf => (hc hf).2) hts
    have hnil : us = [] ↔ ts = [] := by
      rw [hus.lexed.nil_iff, hus.parallel.nil_iff, rest.nil_iff]
    by_cases hglue : ∃ index, (⟨k, c :: r, context⟩ : Token).resolved? = some index ∧ index ≤ 9 ∧
        (untokenize ts).head?.any Char.isDigit
    · obtain ⟨index, hresolved, h9, hdigit⟩ := hglue
      obtain ⟨rfl, rfl⟩ := Token.of_resolved? hresolved
      obtain rfl : c = '(' := of_scan read rfl
      obtain ⟨hpos, -, rfl⟩ := resolved_ok ht
      cases fine with
      | true =>
        have := (hc rfl).1 (.defers ⟨0, index⟩ (.of (untokenize ts))) (by simp [Token.mark?]; rfl)
        simp [Sequel.of_eq_digit.mpr hdigit, Mark.isClear] at this
      | false =>
        -- The reference and the digit are read as one token, which leaves no coarse mark either.
        obtain ⟨a, us, ha, rfl, hlexed⟩ := hus.lexed.of_digit (hus.digit.trans hdigit)
        obtain ⟨m, hglued⟩ := lexed_glued hpos h9 ha hlexed
        refine ⟨_, ?_, .renew hglued ⟨_, _, rfl, rfl⟩ ⟨_, _, rfl, .inl rfl⟩,
          hend.glued (fun hts => by simpa using hnil.mpr hts) ?_, rfl, hout⟩
        · rw [untokenize_cons, List.flatten_cons, ← htext, untokenize_cons]
          simp
        · simp [Token.isShortReference, Token.operator?, Token.inClass, Text.decimal_ne_nil]
    · have hapart : ∀ index, (⟨k, c :: r, context⟩ : Token).resolved? = some index → index ≤ 9 →
          (untokenize ts).head?.any Char.isDigit = false := fun index hresolved h9 => by
        simpa using fun hdigit => hglue ⟨index, hresolved, h9, hdigit⟩
      refine ⟨_ :: us, ?_, hus.renumbered read hw.1 ht hapart, hend.cons hnil fun hshort => ?_, ?_,
        outlineFrom_map (fun q => Token.mark?_renumbered _ q) (Token.contextAfter_renumbered _ _)
          hus.parallel.sequel hout⟩
      · rw [untokenize_cons, htext, Token.text_renumbered ht, List.flatten_cons]
      · rw [← Token.isReference_renumbered]
        exact Token.isReference_of_isShortReference hshort
      · rw [List.any_cons, List.any_cons, hany, Token.isReference_renumbered]

namespace Source

theorem renumber_ok (h : renumber s offset = .ok t) :
    ∃ texts, (lex s).mapM (Token.renumber offset) = .ok texts ∧ texts.flatten = t := by
  simpa only [Source.renumber, bind_ok, pure_ok] using h

theorem mapM_renumber_kept (h : ∀ a ∈ ts, a.renumber offset = .ok a.text) :
    ts.mapM (Token.renumber offset) = .ok (ts.map Token.text) := by
  induction ts with
  | nil => rfl
  | cons a ts ih =>
    rw [List.forall_mem_cons] at h
    rw [List.mapM_cons, h.1, ih h.2]
    rfl

theorem renumber_of_kept (h : ∀ a ∈ lex s, a.renumber offset = .ok a.text) :
    renumber s offset = .ok s := by
  have hs : ((lex s).map Token.text).flatten = s := untokenize_lexFrom .pattern s
  rw [renumber, mapM_renumber_kept h]
  exact congrArg _ hs

theorem renumber_of_absent (h : (references s).present = false) (offset : Word) :
    renumber s offset = .ok s := by
  have hnone : ∀ a ∈ lex s, a.isReference = false := by simpa [references] using h
  refine renumber_of_kept fun a ha => ?_
  have ha := hnone a ha
  unfold Token.isReference at ha
  unfold Token.renumber
  split <;> simp_all

theorem Closed.respells (h : Closed s) (hr : renumber s offset = .ok t) :
    Respells .pattern (lex s) (lex t) ∧ EndsAlike (lex s) (lex t) ∧
      (references t).present = (references s).present := by
  obtain ⟨texts, hm, rfl⟩ := renumber_ok hr
  have hcoarse : false = true → ∀ m ∈ outlineFrom false .pattern (lex s), m.isClear := by simp
  obtain ⟨us, htext, hus, hend, hany, -⟩ := (lexed_lexFrom .pattern s).renumber h.whole hcoarse hm
  have hlex : lex texts.flatten = us := by rw [← htext, lex, hus.lexed.eq]
  rw [references, references, hlex]
  exact ⟨hus, hend, hany⟩

theorem Closed.final_of_renumber (h : Closed s) (hr : renumber s offset = .ok t)
    (ht : (lex t).getLast?.any Token.isShortReference) : (references s).final :=
  (h.respells hr).2.1 ht

theorem Closed.digit_renumber (h : Closed s) (hr : renumber s offset = .ok t) :
    t.head?.any Char.isDigit = s.head?.any Char.isDigit := by
  have hdigit := (h.respells hr).1.digit
  rwa [lex, lex, untokenize_lexFrom, untokenize_lexFrom] at hdigit

theorem Closed.renumber_eq_nil (h : Closed s) (hr : renumber s offset = .ok t) :
    t = [] ↔ s = [] := by
  have hnil := (h.respells hr).1.parallel.nil_iff
  rwa [lex, lex, untokenize_lexFrom, untokenize_lexFrom] at hnil

theorem Closed.outline_renumber (h : Closed s) (hc : fine → Clear s)
    (hr : renumber s offset = .ok t) :
    outline fine t = (outline fine s).map (Mark.shift offset.toNat) := by
  obtain ⟨texts, hm, rfl⟩ := renumber_ok hr
  have hclear : fine → ∀ m ∈ outlineFrom fine .pattern (lexFrom .pattern s), m.isClear := by
    rintro rfl
    exact clear_iff.mp (hc rfl)
  obtain ⟨us, htext, hus, -, -, hout⟩ := (lexed_lexFrom .pattern s).renumber h.whole hclear hm
  rw [← htext, outline, hus.lexed.outlineAt]
  exact hout

end Source

theorem Mark.shift_of_event? {m : Mark} (h : m.event?.any Event.isReference = false)
    (offset : Nat) : m.shift offset = m := by
  cases m with
  | refers n q => simp [event?, Event.isReference] at h
  | defers d q => simp [event?, Event.isReference] at h
  | _ => rfl

theorem TokenKind.mark?_coarse {q : Sequel} {m : Mark} (h : k.mark? false q = some m) :
    m.event?.any Event.isReference = false := by
  cases k with
  | escape e => cases e <;> simp [mark?] at h
  | groupOpen g =>
    cases g with
    | deferred d => simp [mark?] at h
    | _ =>
      obtain rfl := Option.some.inj h
      rfl
  | groupClose | pipe =>
    obtain rfl := Option.some.inj h
    rfl
  | _ => simp [mark?] at h

theorem outlineFrom_coarse (ts : List Token) :
    ∀ m ∈ outlineFrom false context ts, m.event?.any Event.isReference = false := by
  induction ts generalizing context with
  | nil => cases context <;> simp [outlineFrom, Mark.event?]
  | cons t ts ih =>
    rw [outlineFrom_cons, List.forall_mem_append]
    refine ⟨fun m hm => ?_, ih⟩
    rw [Option.mem_toList, Token.mark?] at hm
    split at hm
    · cases ho : t.operator? with
      | none => simp [ho] at hm
      | some k =>
        rw [ho, Option.bind_some] at hm
        exact k.mark?_coarse hm
    · obtain rfl := Option.some.inj hm
      rfl

theorem Source.Closed.outline_shift (h : Closed s)
    (hr : fine → (references s).present = false) (offset : Nat) :
    (outline fine s).map (Mark.shift offset) = outline fine s := by
  refine (List.map_congr_left fun m hm => ?_).trans (List.map_id _)
  refine Mark.shift_of_event? ?_ offset
  cases fine with
  | false => exact outlineFrom_coarse _ m hm
  | true =>
    have hnone := hr rfl
    rw [references_present, ← h.events, signals] at hnone
    cases he : m.event? with
    | none => rfl
    | some e =>
      have : e ∈ (outline true s).filterMap Mark.event? := List.mem_filterMap.mpr ⟨m, hm, he⟩
      simpa using List.any_eq_false.mp hnone e this

end Splice
