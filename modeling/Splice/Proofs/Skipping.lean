import Splice.Proofs.Shape

/-!
# Tokens by their characters

The lexer takes an escape, a name, a marker or a quantifier in one step. To a
reader that goes character by character they are a stretch in which nothing
opens and nothing closes: a backslash hides the character behind it, and the
others are plain (`Skips`). Every token is such a stretch, or has a single
character that says what it is, or is an opener with such a stretch behind it
(`Spelt`).
-/

namespace Splice

-- ---------------------------------------------------------------------------
-- Stretches in which nothing opens or closes
-- ---------------------------------------------------------------------------

/-- A text read up to some rest of it. A backslash hides the character behind
it, and of the other characters `P` holds. -/
inductive Skips (P : Char → Prop) : Text → Text → Prop
  | refl (t : Text) : Skips P t t
  | plain {c : Char} {t u : Text} (hc : P c) (rest : Skips P t u) : Skips P (c :: t) u
  | escape {t u : Text} (c : Char) (rest : Skips P t u) : Skips P ('\\' :: c :: t) u

namespace Skips

variable {P : Char → Prop} {t u v : Text}

theorem trans (h : Skips P t u) (h' : Skips P u v) : Skips P t v := by
  induction h with
  | refl => exact h'
  | plain hc _ ih => exact .plain hc (ih h')
  | escape c _ ih => exact .escape c (ih h')

theorem append (h : Skips P t u) (v : Text) : Skips P (t ++ v) (u ++ v) := by
  induction h with
  | refl => exact .refl _
  | plain hc _ ih => exact .plain hc ih
  | escape c _ ih => exact .escape c ih

theorem drop (n : Nat) (h : ∀ x ∈ t.take n, P x) : Skips P t (t.drop n) := by
  induction n generalizing t with
  | zero => exact .refl t
  | succ n ih =>
    cases t with
    | nil => exact .refl []
    | cons c t =>
      rw [List.take_succ_cons, List.forall_mem_cons] at h
      exact .plain h.1 (ih h.2)

theorem of_forall {c : Char} (h : ∀ x ∈ u, x = '\\' ∨ P x) (hc : P c) : Skips P (u ++ [c]) [] := by
  induction u using List.twoStepInduction with
  | nil => exact .plain hc (.refl [])
  | singleton a =>
    obtain rfl | ha := h a List.mem_cons_self
    · exact .escape c (.refl [])
    · exact .plain ha (.plain hc (.refl []))
  | cons_cons a b u ih ih' =>
    rw [List.forall_mem_cons] at h
    obtain rfl | ha := h.1
    · exact .escape b (ih fun x hx => h.2 x (List.mem_cons_of_mem b hx))
    · exact .plain ha (ih' b h.2)

end Skips

-- ---------------------------------------------------------------------------
-- Characters that say nothing
-- ---------------------------------------------------------------------------

namespace Source

variable {context : Context} {c : Char} {t : Text} {n : Nat}

/-- Characters that hide nothing, and neither open nor close anything in a context. -/
def IsPlain (context : Context) (c : Char) : Prop :=
  c ≠ '\\' ∧ match context with
    | .pattern => c ≠ '(' ∧ c ≠ ')' ∧ c ≠ '['
    | .charClass => c ≠ ']'

instance : DecidablePred (IsPlain context) := fun c =>
  match context with
  | .pattern => inferInstanceAs (Decidable (c ≠ '\\' ∧ c ≠ '(' ∧ c ≠ ')' ∧ c ≠ '['))
  | .charClass => inferInstanceAs (Decidable (c ≠ '\\' ∧ c ≠ ']'))

def isMute (c : Char) : Bool := !"\\()[]".toList.contains c

theorem isMute_iff : isMute c ↔ c ∉ "\\()[]".toList := by
  simp only [isMute, Bool.not_eq_true', List.contains_eq_mem, decide_eq_false_iff_not]

theorem isPlain_of_isMute (hc : isMute c) (context : Context) : IsPlain context c := by
  have h : ∀ x ∈ "\\()[]".toList, c ≠ x := by
    rintro x hx rfl
    exact isMute_iff.mp hc hx
  cases context with
  | pattern => exact ⟨h _ (by decide), h _ (by decide), h _ (by decide), h _ (by decide)⟩
  | charClass => exact ⟨h _ (by decide), h _ (by decide)⟩

theorem isMute_of_isSoft (h : Lexer.isSoft c) : isMute c := by
  refine isMute_iff.mpr fun hm => ?_
  have hall : ∀ x ∈ "\\()[]".toList, Lexer.isSoft x = false := Lexer.forall_mem_of_all (by decide)
  simp [hall c hm] at h

/-- Plain characters that are no bar outside classes either. -/
def IsBlank (context : Context) (c : Char) : Prop :=
  IsPlain context c ∧ (context = .pattern → c ≠ '|')

theorem isBlank_of_isSoft (h : Lexer.isSoft c) (context : Context) : IsBlank context c := by
  refine ⟨isPlain_of_isMute (isMute_of_isSoft h) context, ?_⟩
  rintro - rfl
  cases h

/-- Whether the group that opens before a text is a capturing one. -/
def opensCapture : Text → Bool
  | '?' :: '<' :: '=' :: _ | '?' :: '<' :: '!' :: _ => false
  | '?' :: '<' :: _ => true
  | '?' :: _ => false
  | _ => true

end Source

-- ---------------------------------------------------------------------------
-- Escapes
-- ---------------------------------------------------------------------------

namespace Lexer

variable {d : Char} {t : Text} {n : Nat} {e : Escape}

theorem Reads.soft {α : Type} {reader : Text → Option α} {length : α → Nat}
    {Form : α → Text → Prop} (hr : Reads reader length Form)
    (hs : ∀ a body, Form a body → ∀ c ∈ body, isSoft c) {a : α} (h : reader t = some a) :
    ∀ x ∈ t.take (length a), isSoft x := by
  obtain ⟨body, rest, rfl, hf⟩ := (hr.some_iff _ _).mp h
  rw [← hr.length_eq a body hf, List.take_left]
  exact hs a body hf

theorem startsWithHex_soft {k : Nat} (h : startsWithHex k t) : ∀ x ∈ t.take k, isSoft x := by
  simp only [startsWithHex, Bool.and_eq_true, List.all_eq_true] at h
  exact fun x hx => isSoft_of_isHexDigit (h.2 x hx)

theorem scanZero_soft (t : Text) : ∀ x ∈ t.take ((scanZero t).2 - 1), isSoft x := by
  have hrun := List.prefix_iff_eq_take.mp
    ((List.takeWhile_prefix (l := t.take 2) Text.isOctalDigit).trans (List.take_prefix 2 t))
  simp only [scanZero]
  split
  · simp
  · intro x hx
    rw [Nat.add_sub_cancel, ← hrun] at hx
    exact isSoft_of_isOctalDigit (all_takeWhile x hx)

theorem scanReference_soft (d : Char) (t : Text) :
    ∀ x ∈ t.take ((scanReference d t).2 - 1), isSoft x := by
  cases t with
  | nil => simp
  | cons a t =>
    by_cases ha : a.isDigit
    · simpa [scanReference, ha] using isSoft_of_isDigit ha
    · simp [scanReference, ha]

theorem scanUnicode_soft (t : Text) : ∀ x ∈ t.take ((scanUnicode t).2 - 1), isSoft x := by
  unfold scanUnicode
  cases h : bracedLength? Text.isHexDigit t with
  | some n =>
    have reads : Reads (bracedLength? Text.isHexDigit) id (Braced Text.isHexDigit) :=
      reads_braced (by decide)
    simpa using reads.soft (braced_soft fun _ => isSoft_of_isHexDigit) h
  | none =>
    by_cases h4 : startsWithHex 4 t
    · simpa [h4] using startsWithHex_soft h4
    · simp [h4]

theorem scanProperty_soft (hd : d = 'p' ∨ d = 'P') (t : Text) :
    ∀ x ∈ t.take ((scanEscape d t).2 - 1), isSoft x := by
  cases h : propertyLength? t with
  | none => rcases hd with rfl | rfl <;> simp [scanEscape, h]
  | some n =>
    have hsoft := reads_property.soft property_soft h
    rcases hd with rfl | rfl <;> simpa [scanEscape, h] using hsoft

theorem scanEscape_soft (hd : d ≠ 'k') (t : Text) :
    ∀ x ∈ t.take ((scanEscape d t).2 - 1), isSoft x := by
  by_cases hdigit : d.isDigit
  · by_cases h0 : d = '0'
    · subst h0
      exact scanZero_soft t
    · simpa [scanEscape, hdigit, h0] using scanReference_soft d t
  · by_cases hm : d ∈ ['k', 'u', 'x', 'c', 'p', 'P']
    · simp only [List.mem_cons, List.not_mem_nil, or_false, hd, false_or] at hm
      rcases hm with rfl | rfl | rfl | hp
      · exact scanUnicode_soft t
      · by_cases h2 : startsWithHex 2 t
        · simpa [scanEscape, h2] using startsWithHex_soft h2
        · simp [scanEscape, h2]
      · cases t with
        | nil => simp
        | cons a t =>
          by_cases ha : a.isAlpha
          · simpa [scanEscape, ha] using isSoft_of_isAlpha ha
          · simp [scanEscape, ha]
      · exact scanProperty_soft hp t
    · obtain ⟨e, he⟩ := scanEscape_of_not_mem (by simpa using hdigit) hm
      simp [he]

end Lexer

-- ---------------------------------------------------------------------------
-- Tokens
-- ---------------------------------------------------------------------------

/-- Whether a token may end in a name. -/
def Token.isNaming (t : Token) : Bool :=
  match t.kind with
  | .groupOpen .named | .escape .namedReference => true
  | _ => false

/-- The name of a token, if it was read with one, is skipped. -/
def Token.SkipsName (P : Char → Prop) (t : Token) : Prop :=
  t.isNaming → ∀ lead name, lead = "(?<".toList ∨ lead = "\\k<".toList →
    (∀ x ∈ name, !Lexer.isNameEnd x) → t.text = lead ++ (name ++ ['>']) → Skips P (name ++ ['>']) []

/-- Kinds that open and close nothing outside classes, and are no bar. -/
def TokenKind.isSilent : TokenKind → Bool
  | .groupOpen _ | .groupClose | .pipe | .garbage => false
  | _ => true

/-- How the characters of a token are read one by one. It has the kind `k`, begins
with `c` and takes `n` of the characters `t` behind that. -/
inductive Spelt (P : Char → Prop) (t : Text) : Context → Char → TokenKind → Nat → Prop
  | silent {context : Context} {c : Char} {k : TokenKind} {n : Nat}
      (skips : Skips P (c :: t) (t.drop n)) (silent : context = .charClass ∨ k.isSilent)
      (after : Lexer.contextAfter context k = context) (whole : k ≠ .garbage) :
      Spelt P t context c k n
  | opens {g : GroupOpener} {n : Nat} (skips : Skips P t (t.drop n))
      (unmarked : ∀ m, g ≠ .deferred m) : Spelt P t .pattern '(' (.groupOpen g) n
  | marks {m : Marker} {n : Nat} (skips : Skips P t (')' :: t.drop n)) :
      Spelt P t .pattern '(' (.groupOpen (.deferred m)) n
  | closes : Spelt P t .pattern ')' .groupClose 0
  | bar : Spelt P t .pattern '|' .pipe 0
  | enters : Spelt P t .pattern '[' (.classOpen .plain) 0
  | leaves : Spelt P t .charClass ']' .classClose 0
  | anything (rest : Text) (ht : t = '^' :: ']' :: rest) :
      Spelt P t .pattern '[' (.classOpen .emptyNegated) 2
  | hides {context : Context} (ht : t = []) : Spelt P t context '\\' .garbage 0

namespace Lexer

variable {P : Char → Prop} {context : Context} {c : Char} {t : Text} {n : Nat} {k : TokenKind}
  {g : GroupOpener}

open Source

theorem skips_nameLength (h : nameLength? t = some n)
    (hname : ∀ name, (∀ x ∈ name, !isNameEnd x) → t.take n = name ++ ['>'] →
      Skips P (name ++ ['>']) []) : Skips P t (t.drop n) := by
  obtain ⟨_, rest, rfl, name, -, hends, rfl, hn⟩ := (reads_name.some_iff _ _).mp h
  obtain rfl : n = (name ++ ['>']).length := hn
  rw [List.drop_left]
  exact (hname name hends (List.take_left ..)).append rest

theorem skips_escape {d : Char} (hP : ∀ c, IsBlank context c → P c)
    (hname : (⟨.escape (scanEscape d t).1, '\\' :: d :: t.take ((scanEscape d t).2 - 1),
      context⟩ : Token).SkipsName P) :
    Skips P ('\\' :: d :: t) (t.drop ((scanEscape d t).2 - 1)) := by
  refine .escape d ?_
  by_cases hd : d = 'k'
  · subst hd
    have hread : scanEscape 'k' t = scanNamedReference t := rfl
    rw [hread] at hname ⊢
    unfold scanNamedReference at hname ⊢
    split
    · rename_i r
      cases hr : nameLength? r with
      | none => exact .refl _
      | some n =>
        have hangle : P '<' := hP '<' ⟨isPlain_of_isMute (by decide) context, fun _ => by decide⟩
        refine .plain hangle (skips_nameLength hr fun name hends hsplit => ?_)
        refine hname (by simp [hr, Token.isNaming]) _ name (.inr rfl) hends ?_
        simpa [hr] using hsplit
    · exact .refl _
  · exact .drop _ fun x hx => hP x (isBlank_of_isSoft (scanEscape_soft hd t x hx) context)

theorem skips_marker {m : Marker} (hP : ∀ c, IsBlank .pattern c → P c)
    (h : Marker.tail? t = some (m, n)) : Skips P t (')' :: t.drop n) := by
  obtain ⟨body, rest, rfl, hbody⟩ := (Marker.reads_tail.some_iff _ _).mp h
  obtain rfl : n = body.length := (Marker.reads_tail.length_eq _ _ hbody).symm
  obtain ⟨hmem, hclose⟩ := tail_mem hbody
  obtain ⟨front, rfl⟩ : ∃ front, body = front ++ [')'] := by
    obtain ⟨ds, is, -, -, hb, -⟩ := hbody
    exact ⟨_, hb⟩
  rw [List.dropLast_concat] at hclose
  have hfront : ∀ x ∈ (front ++ [')'] ++ rest).take front.length, P x := by
    intro x hx
    rw [List.append_assoc, List.take_left] at hx
    obtain ⟨hbackslash, hbracket, hgroup, hbar⟩ := hmem x (List.mem_append_left _ hx)
    exact hP x ⟨⟨hbackslash, hgroup, fun h => hclose (h ▸ hx), hbracket⟩, fun _ => hbar⟩
  have hskip := Skips.drop _ hfront
  rw [List.append_assoc, List.drop_left] at hskip
  rw [List.drop_left, List.append_assoc]
  exact hskip

theorem opensCapture_eq (t : Text) : opensCapture t = (scanGroup t).1.isCapture := by
  unfold scanGroup
  split
  · rename_i m n hm
    obtain ⟨_, rest, rfl, ds, is, -, -, rfl, -⟩ := (Marker.reads_tail.some_iff _ _).mp hm
    rfl
  · split <;> first
      | rfl
      | (unfold opensCapture; split <;> first | rfl | grind)

theorem blank_skips (hP : ∀ c, IsBlank .pattern c → P c) (n : Nat)
    (h : (t.take n).all fun c => isMute c && c != '|') : Skips P t (t.drop n) := by
  refine .drop n fun x hx => ?_
  have hx := List.all_eq_true.mp h x hx
  simp only [Bool.and_eq_true, bne_iff_ne] at hx
  exact hP x ⟨isPlain_of_isMute hx.1 .pattern, fun _ => hx.2⟩

theorem skips_named {r : Text} (hP : ∀ c, IsBlank .pattern c → P c)
    (hname : (⟨.groupOpen .named, '(' :: ('?' :: '<' :: r).take (2 + (nameLength? r).getD 0),
      .pattern⟩ : Token).SkipsName P) :
    Skips P ('?' :: '<' :: r) (('?' :: '<' :: r).drop (2 + (nameLength? r).getD 0)) := by
  have hopener : Skips P ('?' :: '<' :: r) r := blank_skips hP 2 rfl
  cases hr : nameLength? r with
  | none => exact hopener
  | some n =>
    rw [Option.getD_some, Nat.add_comm]
    refine hopener.trans (skips_nameLength hr fun name hends hsplit => ?_)
    refine hname rfl _ name (.inl rfl) hends ?_
    simpa [hr, Nat.add_comm 2] using hsplit

theorem spelt_group (hP : ∀ c, IsBlank .pattern c → P c) (h : scanGroup t = (g, n))
    (hname : (⟨.groupOpen g, '(' :: t.take n, .pattern⟩ : Token).SkipsName P) :
    Spelt P t .pattern '(' (.groupOpen g) n := by
  unfold scanGroup at h
  split at h
  · rename_i m l hm
    obtain ⟨rfl, rfl⟩ := Prod.mk.inj h
    exact .marks (skips_marker hP hm)
  · split at h <;> obtain ⟨rfl, rfl⟩ := Prod.mk.inj h <;> refine .opens ?_ (by simp)
    all_goals first
      | exact blank_skips hP _ rfl
      | exact skips_named hP hname

theorem spelt_simple (hP : ∀ c, IsBlank context c → P c) (hs : IsSimple context c)
    (h : scan context c t = (k, n)) : Spelt P t context c k n := by
  obtain ⟨hb, hc⟩ := hs
  cases context with
  | charClass =>
    by_cases hc : c = ']'
    · subst hc
      obtain ⟨rfl, rfl⟩ := Prod.mk.inj h
      exact .leaves
    · have hskip : Skips P (c :: t) t := .plain (hP c ⟨⟨hb, hc⟩, nofun⟩) (.refl t)
      unfold scan at h
      split at h <;> first
        | exact absurd rfl hb
        | exact absurd rfl hc
        | (obtain ⟨rfl, rfl⟩ := Prod.mk.inj h; exact .silent hskip (.inl rfl) rfl (by simp))
  | pattern =>
    obtain ⟨hgroup, hclass, hbrace⟩ := hc.resolve_left (by simp)
    by_cases hc : c = ')' ∨ c = '|'
    · obtain rfl | rfl := hc <;> obtain ⟨rfl, rfl⟩ := Prod.mk.inj h
      · exact .closes
      · exact .bar
    · rw [not_or] at hc
      have hskip : Skips P (c :: t) t :=
        .plain (hP c ⟨⟨hb, hgroup, hc.1, hclass⟩, fun _ => hc.2⟩) (.refl t)
      unfold scan at h
      split at h <;> first
        | exact absurd rfl hb
        | exact absurd rfl hc.1
        | exact absurd rfl hc.2
        | exact absurd rfl hgroup
        | exact absurd rfl hclass
        | exact absurd rfl hbrace
        | (obtain ⟨rfl, rfl⟩ := Prod.mk.inj h; exact .silent hskip (.inr rfl) rfl (by simp))

theorem spelt_scan (hP : ∀ c, IsBlank context c → P c) (h : scan context c t = (k, n))
    (hname : (⟨k, c :: t.take n, context⟩ : Token).SkipsName P) :
    Spelt P t context c k n := by
  obtain hs | rfl | ⟨rfl, rfl | rfl | rfl⟩ := IsSimple.or context c
  · exact spelt_simple hP hs h
  · cases t with
    | nil =>
      obtain ⟨rfl, rfl⟩ := Prod.mk.inj h
      exact .hides rfl
    | cons d t =>
      rw [scan_escape] at h
      obtain ⟨rfl, rfl⟩ := Prod.mk.inj h
      obtain ⟨m, hm⟩ : ∃ m, (scanEscape d t).2 = m + 1 :=
        ⟨_, (Nat.sub_add_cancel (scanEscape_fits d t).1).symm⟩
      refine .silent ?_ (.inr rfl) rfl (by simp)
      have hskip := skips_escape (d := d) (t := t) hP
      rw [hm, Nat.add_sub_cancel] at hskip
      rw [hm] at hname ⊢
      exact hskip hname
  · rw [scan_group] at h
    obtain ⟨rfl, rfl⟩ := Prod.mk.inj h
    exact spelt_group hP rfl hname
  · rw [scan_class] at h
    split at h <;> obtain ⟨rfl, rfl⟩ := Prod.mk.inj h
    · rename_i hp
      obtain ⟨rest, rfl⟩ := List.isPrefixOf_iff_prefix.mp hp
      exact .anything rest rfl
    · exact .enters
  · rw [scan_brace] at h
    have hbrace : Skips P ('{' :: t) t :=
      .plain (hP '{' ⟨isPlain_of_isMute (by decide) _, fun _ => by decide⟩) (.refl t)
    cases hq : quantifierLength? t with
    | none =>
      rw [hq] at h
      obtain ⟨rfl, rfl⟩ := Prod.mk.inj h
      exact .silent hbrace (.inr rfl) rfl (by simp)
    | some m =>
      rw [hq] at h
      obtain ⟨rfl, rfl⟩ := Prod.mk.inj h
      have hbounds : Skips P t (t.drop m) := .drop m fun x hx =>
        hP x (isBlank_of_isSoft (reads_quantifier.soft bounds_soft hq x hx) _)
      exact .silent (hbrace.trans hbounds) (.inr rfl) rfl (by simp)

end Lexer

end Splice
