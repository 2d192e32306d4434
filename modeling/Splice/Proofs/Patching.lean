import Splice.Proofs.Respelling

/-!
# Patched sources

Promotion and emulation put new texts in the place of some tokens and copy the
others. A complete token is read as before in front of a new text
(`Respells.keep`). A token that lacks its end must not get one: a reference by
name is read wherever an angle bracket comes before the other brackets, however
far behind. So no new text may uncover an angle bracket (`Patch`). Then every
source is read as the tokens that are copied and those of the new texts, closed
or not (`Patches`).
-/

namespace Splice

open Lexer

variable {context : Context} {c : Char} {k : TokenKind} {r s t old new : Text}
  {ts us : List Token} {n : Nat}

-- ---------------------------------------------------------------------------
-- First characters
-- ---------------------------------------------------------------------------

def TokenKind.first? : TokenKind → Option Char
  | .escape _ | .garbage => some '\\'
  | .groupOpen _ => some '('
  | .groupClose => some ')'
  | .classOpen _ => some '['
  | .classClose => some ']'
  | .pipe => some '|'
  | .dot => some '.'
  | .caret => some '^'
  | .dollar => some '$'
  | .dash => some '-'
  | .star => some '*'
  | .plus => some '+'
  | .question => some '?'
  | .braceOpen _ => some '{'
  | .braceClose => some '}'
  | .char => none

/-- The characters that have a kind of their own. -/
def ownKinds : Text :=
  ['\\', '(', ')', '[', ']', '|', '.', '^', '$', '-', '*', '+', '?', '{', '}']

theorem first_of_scan {context : Context} {k : TokenKind} {c : Char} {t : Text} {n : Nat}
    (read : scan context c t = (k, n)) : k.first? = some c ∨ k = .char ∧ n = 0 ∧ c ∉ ownKinds := by
  unfold scan at read
  split at read
  · split at read <;> (obtain ⟨rfl, -⟩ := Prod.mk.inj read; exact .inl rfl)
  · split at read <;> (obtain ⟨rfl, -⟩ := Prod.mk.inj read; exact .inl rfl)
  case h_4 | h_14 =>
    split at read <;> (obtain ⟨rfl, -⟩ := Prod.mk.inj read; exact .inl rfl)
  case h_16 =>
    obtain ⟨rfl, rfl⟩ := Prod.mk.inj read
    refine .inr ⟨rfl, rfl, ?_⟩
    simp only [ownKinds, List.mem_cons, List.not_mem_nil, or_false, not_or]
    refine ⟨?_, ?_, ?_, ?_, ?_, ?_, ?_, ?_, ?_, ?_, ?_, ?_, ?_, ?_, ?_⟩ <;> assumption
  all_goals
    obtain ⟨rfl, -⟩ := Prod.mk.inj read
    exact .inl rfl

def TokenKind.isAlone : TokenKind → Bool
  | .escape _ | .groupOpen _ | .classOpen .emptyNegated | .braceOpen .quantifier | .garbage => false
  | _ => true

theorem scan_of_isAlone {context : Context} {k : TokenKind} {c : Char} {t : Text} {n : Nat}
    (read : scan context c t = (k, n)) (hk : k.isAlone) : n = 0 := by
  unfold scan at read
  split at read
  case h_1 =>
    split at read <;> (obtain ⟨rfl, -⟩ := Prod.mk.inj read; cases hk)
  case h_2 =>
    split at read <;> (obtain ⟨rfl, -⟩ := Prod.mk.inj read; cases hk)
  case h_4 | h_14 =>
    split at read <;> obtain ⟨rfl, rfl⟩ := Prod.mk.inj read
    · cases hk
    · rfl
  all_goals exact (Prod.mk.inj read).2.symm

theorem of_scan_isAlone {context : Context} {k : TokenKind} {a c : Char} {r t : Text}
    (read : scan context c (r ++ t) = (k, r.length)) (hk : k.isAlone) (ha : k.first? = some a) :
    c = a ∧ r = [] := by
  refine ⟨?_, List.length_eq_zero_iff.mp (scan_of_isAlone read hk)⟩
  obtain hfirst | ⟨rfl, -⟩ := first_of_scan read
  · exact Option.some.inj (hfirst.symm.trans ha)
  · cases ha

theorem of_scan_emptyNegated {context : Context} {c : Char} {r t : Text}
    (read : scan context c (r ++ t) = (.classOpen .emptyNegated, r.length)) :
    context = .pattern ∧ c = '[' ∧ r = ['^', ']'] := by
  obtain hfirst | ⟨hk, -⟩ := first_of_scan read
  · obtain rfl := Option.some.inj hfirst
    unfold scan at read
    simp only at read
    split at read
    · rename_i heq
      have hlength : 2 = r.length := (Prod.mk.inj read).2
      have htake : (r ++ t).take r.length = ['^', ']'] := by rw [← hlength, heq]; rfl
      rw [List.take_left] at htake
      exact ⟨rfl, rfl, htake⟩
    · cases (Prod.mk.inj read).1
  · cases hk

-- ---------------------------------------------------------------------------
-- Tokens that lack their end
-- ---------------------------------------------------------------------------

theorem find?_isNameEnd (t : Text) :
    t.find? isNameEnd = (t.drop (t.takeWhile (!isNameEnd ·)).length).head? := by
  have hsplit : t.drop (t.takeWhile (!isNameEnd ·)).length = t.dropWhile (!isNameEnd ·) :=
    List.append_cancel_left
      ((takeWhile_append_drop_length _ t).trans List.takeWhile_append_dropWhile.symm)
  rw [hsplit, List.find?_eq_head?_dropWhile_not]

theorem nameLength?_isSome : (nameLength? t).isSome ↔
    t.find? isNameEnd = some '>' ∧ t.head? ≠ some '>' := by
  rw [find?_isNameEnd]
  unfold nameLength?
  split
  · rename_i hname
    simp [hname]
  · rename_i hname
    have hhead : t.head? ≠ some '>' := by
      intro hhead
      obtain ⟨rest, rfl⟩ := List.head?_eq_some_iff.mp hhead
      exact hname (List.takeWhile_cons_of_neg (by decide))
    split <;> simp_all

theorem scanNamedReference_char (h : t.head? ≠ some '<') :
    scanNamedReference t = (.char 'k', 1) := by
  unfold scanNamedReference
  split
  · simp at h
  · rfl

theorem of_scanNamedReference_char (h : scanNamedReference t = (.char 'k', n)) : n = 1 := by
  unfold scanNamedReference at h
  split at h
  · split at h
    · cases h
    · exact (Prod.mk.inj h).2.symm
  · exact (Prod.mk.inj h).2.symm

/-- Texts of which the second gives no end to a token that the first leaves without one. -/
structure Withholds (old new : Text) : Prop where
  nil : old = [] → new = []
  angle : ∀ v, new = '<' :: v → ∃ u, old = '<' :: u ∧ (nameLength? u = none → nameLength? v = none)
  name : nameLength? old = none → nameLength? new = none
  lookbehind : (∀ c ∈ old.head?, c ≠ '=' ∧ c ≠ '!') → ∀ c ∈ new.head?, c ≠ '=' ∧ c ≠ '!'

theorem Withholds.scanNamedReference (h : Withholds old new)
    (hold : Lexer.scanNamedReference old = (.char 'k', 1)) :
    Lexer.scanNamedReference new = (.char 'k', 1) := by
  by_cases hname : new.head? = some '<'
  · obtain ⟨new, rfl⟩ := List.head?_eq_some_iff.mp hname
    obtain ⟨old, rfl, hrest⟩ := h.angle _ rfl
    cases hlength : Lexer.nameLength? old with
    | some m => simp [Lexer.scanNamedReference, hlength] at hold
    | none => simp [Lexer.scanNamedReference, hrest hlength]
  · exact scanNamedReference_char hname

theorem eq_of_scanEscape_char {d : Char} (h : (scanEscape c t).1 = .char d) : c = d := by
  have zero : (scanZero t).1 ≠ .char d := by
    simp only [scanZero]
    split <;> simp
  have reference : (scanReference c t).1 ≠ .char d := by
    unfold scanReference
    split
    · split <;> simp
    · simp
  have named : (Lexer.scanNamedReference t).1 = .char d → 'k' = d := by
    unfold Lexer.scanNamedReference
    split
    · split <;> simp
    · simp
  have unicode : (scanUnicode t).1 = .char d → 'u' = d := by
    unfold scanUnicode
    split
    · simp
    · split <;> simp
  unfold scanEscape at h
  split at h
  · split at h
    · exact absurd h zero
    · exact absurd h reference
  · split at h
    all_goals first
      | exact named h
      | exact unicode h
      | exact Escape.char.inj h
      | cases h
      | (split at h <;> first | exact Escape.char.inj h | cases h)

theorem of_scan_garbage (h : scan context c t = (.garbage, n)) : c = '\\' ∧ t = [] := by
  unfold scan at h
  repeat' split at h
  all_goals first
    | exact ⟨rfl, rfl⟩
    | cases h

theorem of_scanGroup_unnamed (h : scanGroup t = (.named, n))
    (hlast : ('(' :: t.take n).getLast? ≠ some '>') :
    ∃ r, t = '?' :: '<' :: r ∧ n = 2 ∧ nameLength? r = none ∧ ∀ c ∈ r.head?, c ≠ '=' ∧ c ≠ '!' := by
  obtain ⟨r, rfl, hn⟩ := of_scanGroup_named h
  cases hname : nameLength? r with
  | some m =>
    obtain ⟨_, rest, rfl, name, -, -, rfl, rfl⟩ := (reads_name.some_iff _ _).mp hname
    refine absurd ?_ hlast
    rw [hn, hname, Option.getD_some, Nat.add_comm, List.take_succ_cons, List.take_succ_cons,
      List.take_left, ← List.cons_append, ← List.cons_append, ← List.cons_append,
      List.getLast?_concat]
  | none =>
    rw [hname, Option.getD_none] at hn
    refine ⟨r, rfl, hn, hname, fun c hc => ?_⟩
    obtain ⟨r, rfl⟩ := List.head?_eq_some_iff.mp hc
    constructor <;> rintro rfl <;> cases h

theorem scanGroup_unnamed (hlength : nameLength? t = none) (h : ∀ c ∈ t.head?, c ≠ '=' ∧ c ≠ '!') :
    scanGroup ('?' :: '<' :: t) = (.named, 2) := by
  rw [scanGroup_named rfl h, hlength]
  rfl

theorem scan_torn (read : scan context c (r ++ old) = (k, r.length))
    (torn : (⟨k, c :: r, context⟩ : Token).isWhole = false) (h : Withholds old new) :
    scan context c (r ++ new) = (k, r.length) := by
  cases k with
  | garbage =>
    obtain ⟨rfl, hnil⟩ := of_scan_garbage read
    obtain ⟨rfl, rfl⟩ := List.append_eq_nil_iff.mp hnil
    rwa [h.nil rfl]
  | escape e =>
    obtain rfl : c = '\\' := of_scan read rfl
    obtain rfl : e = .char 'k' := by
      cases e with
      | char d => exact congrArg _ (by simpa [Token.isWhole] using torn)
      | _ => cases torn
    cases r with
    | nil =>
      cases old with
      | nil => cases read
      | cons d old =>
        have hfits := (scanEscape_fits d old).1
        rw [List.nil_append, scan_escape, Prod.mk.injEq, List.length_nil] at read
        omega
    | cons d r =>
      rw [List.cons_append, scan_escape, Prod.mk.injEq, TokenKind.escape.injEq] at read
      obtain rfl := eq_of_scanEscape_char read.1
      have hread : scanNamedReference (r ++ old) = (.char 'k', (r.length + 1)) :=
        Prod.ext read.1 read.2
      obtain rfl : r = [] :=
        List.length_eq_zero_iff.mp (Nat.succ.inj (of_scanNamedReference_char hread))
      have hnew := h.scanNamedReference hread
      rw [List.cons_append, scan_escape, Prod.mk.injEq, TokenKind.escape.injEq]
      exact Prod.ext_iff.mp hnew
  | groupOpen g =>
    obtain rfl : c = '(' := of_scan read rfl
    cases context with
    | charClass =>
      obtain rfl := TokenKind.groupOpen.inj (Prod.mk.inj read).1
      cases torn
    | pattern =>
      obtain rfl : g = .named := by
        cases g <;> first | rfl | cases torn
      have hlast : ('(' :: r).getLast? ≠ some '>' := by simpa [Token.isWhole] using torn
      rw [scan_group, Prod.mk.injEq, TokenKind.groupOpen.injEq] at read
      obtain ⟨rest, hsplit, hlength, hname, hhead⟩ :=
        of_scanGroup_unnamed (Prod.ext read.1 read.2) (by rwa [List.take_left])
      obtain ⟨rfl, rfl⟩ : r = ['?', '<'] ∧ old = rest :=
        List.append_inj hsplit hlength
      rw [scan_group, List.cons_append, List.cons_append, List.nil_append,
        scanGroup_unnamed (h.name hname) (h.lookbehind hhead)]
      rfl
  | _ => cases torn

-- ---------------------------------------------------------------------------
-- Patches
-- ---------------------------------------------------------------------------

/-- A text that may be put in the place of another one. -/
structure Patch (old new : Text) : Prop where
  head : ∃ a t, old = a :: t ∧ a.isDigit = false ∧ a ≠ '>'
  breaks : ∃ a t, new = a :: t ∧ (a = '\\' ∨ a = '[' ∨ a = '(')
  uncovers : new.find? isNameEnd = none → old.find? isNameEnd = none
  ends : new.find? isNameEnd ≠ some '>'

/-- Texts of which the second has patches for some parts of the first. -/
inductive Patched : Text → Text → Prop
  | nil : Patched [] []
  | keep {old new : Text} (c : Char) (rest : Patched old new) : Patched (c :: old) (c :: new)
  | patch {x y old new : Text} (h : Patch x y) (rest : Patched old new) :
      Patched (x ++ old) (y ++ new)

namespace Patched

theorem append (h : Patched old new) (t : Text) : Patched (t ++ old) (t ++ new) := by
  induction t with
  | nil => exact h
  | cons c t ih => exact .keep c ih

/-- Where a patch begins, the new text goes on with a character that no construct takes. -/
theorem cases_head (h : Patched old new) : (old = [] ∧ new = []) ∨
    (∃ c u v, old = c :: u ∧ new = c :: v ∧ Patched u v) ∨
    old ≠ [] ∧ ∃ c v, new = c :: v ∧ (c = '\\' ∨ c = '[' ∨ c = '(') := by
  cases h with
  | nil => exact .inl ⟨rfl, rfl⟩
  | keep c rest => exact .inr (.inl ⟨c, _, _, rfl, rfl, rest⟩)
  | patch h rest =>
    obtain ⟨a, t, rfl, -, -⟩ := h.head
    obtain ⟨b, v, rfl, hb⟩ := h.breaks
    exact .inr (.inr ⟨by simp, b, _, rfl, hb⟩)

theorem find? (h : Patched old new) (hold : old.find? isNameEnd ≠ some '>') :
    new.find? isNameEnd ≠ some '>' := by
  induction h with
  | nil => exact hold
  | keep c _ ih =>
    rw [List.find?_cons] at hold ⊢
    split
    · rename_i hc
      rwa [hc] at hold
    · rename_i hc
      rw [hc] at hold
      exact ih hold
  | @patch x y old new h _ ih =>
    rw [List.find?_append] at hold ⊢
    cases hy : y.find? isNameEnd with
    | none =>
      rw [h.uncovers hy, Option.none_or] at hold
      exact ih hold
    | some e =>
      rw [Option.some_or, ← hy]
      exact h.ends

theorem nameLength? (h : Patched old new) (hold : Lexer.nameLength? old = none) :
    Lexer.nameLength? new = none := by
  have hname : ¬ (Lexer.nameLength? old).isSome := by simp [hold]
  suffices ¬ (Lexer.nameLength? new).isSome by simpa using this
  rw [nameLength?_isSome, not_and_or, not_not] at hname ⊢
  refine hname.imp h.find? fun hhead => ?_
  cases h with
  | nil => exact hhead
  | keep c rest => exact hhead
  | patch h rest =>
    obtain ⟨a, t, rfl, -, ha⟩ := h.head
    exact absurd (Option.some.inj hhead) ha

theorem withholds (h : Patched old new) : Withholds old new where
  nil := by
    rintro rfl
    obtain ⟨-, hnew⟩ | ⟨_, _, _, hold, -⟩ | ⟨hold, -⟩ := h.cases_head
    · exact hnew
    · cases hold
    · exact absurd rfl hold
  angle v := by
    rintro rfl
    obtain ⟨-, hnew⟩ | ⟨c, u, v, rfl, hnew, hrest⟩ | ⟨-, c, v, hnew, hc⟩ := h.cases_head
    · cases hnew
    · obtain ⟨rfl, rfl⟩ := List.cons.inj hnew
      exact ⟨u, rfl, hrest.nameLength?⟩
    · obtain ⟨rfl, -⟩ := List.cons.inj hnew
      simp at hc
  name := h.nameLength?
  lookbehind hold c hc := by
    obtain ⟨-, rfl⟩ | ⟨a, u, v, rfl, rfl, -⟩ | ⟨-, a, v, rfl, ha⟩ := h.cases_head
    · cases hc
    · exact hold c hc
    · obtain rfl := Option.some.inj hc
      obtain rfl | rfl | rfl := ha <;> decide

end Patched

/-- Tokens `us` that are read once the tokens `ts` are copied or patched. -/
structure Patches (context : Context) (ts us : List Token) : Prop
    extends Respells context ts us where
  patched : Patched (untokenize ts) (untokenize us)

namespace Patches

theorem nil : Patches context [] [] := ⟨.nil, .nil⟩

theorem copy (read : scan context c (r ++ untokenize ts) = (k, r.length))
    (rest : Patches (contextAfter context k) ts us) :
    Patches context (⟨k, c :: r, context⟩ :: ts) (⟨k, c :: r, context⟩ :: us) := by
  refine ⟨?_, rest.patched.append (c :: r)⟩
  cases hw : (⟨k, c :: r, context⟩ : Token).isWhole with
  | true => exact .keep read hw rest.toRespells
  | false => exact ⟨.cons (scan_torn read hw rest.patched.withholds) rest.lexed,
      rest.parallel.append (c :: r)⟩

theorem patch {old new : List Token} (h : Patch (untokenize old) (untokenize new))
    (lexed : Lexed context (new ++ us)) (rest : Patched (untokenize ts) (untokenize us)) :
    Patches context (old ++ ts) (new ++ us) := by
  refine ⟨.patch lexed ?_ h.breaks, ?_⟩
  · obtain ⟨a, t, hold, ha, -⟩ := h.head
    exact ⟨a, t, hold, ha⟩
  · rw [untokenize_append, untokenize_append]
    exact .patch h rest

end Patches

end Splice
