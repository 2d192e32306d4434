import Splice.Proofs.Patching
import Splice.Proofs.Terms

/-!
# Steps of a reading

The grammar reads one term after the other, and behind some of them a
quantifier. Here is how it gets past a term, a run of plain characters, a
marker and an escape by code point, in any mode and in front of any text.
-/

namespace Splice

open Lexer

theorem of_scan_bounds {context : Context} {c : Char} {r t : Text}
    (read : scan context c (r ++ t) = (.braceOpen .quantifier, r.length)) :
    context = .pattern ∧ c = '{' ∧ Bounds r.length r := by
  obtain hfirst | ⟨hk, -⟩ := first_of_scan read
  · obtain rfl := Option.some.inj hfirst
    cases context with
    | charClass => cases (Prod.mk.inj read).1
    | pattern =>
      rw [scan_brace] at read
      split at read
      · rename_i n hn
        obtain ⟨-, rfl⟩ := Prod.mk.inj read
        obtain ⟨body, rest, happend, hbody⟩ := (reads_quantifier.some_iff _ _).mp hn
        obtain rfl : r = body :=
          (List.append_inj happend (reads_quantifier.length_eq _ _ hbody).symm).1
        exact ⟨rfl, rfl, hbody⟩
      · cases (Prod.mk.inj read).1
  · cases hk

namespace Grammar

variable {wide : Bool} {found : Survey} {groups : List Bool} {captures : Nat}
variable {c : Char} {w v Y : Text} {n : Nat}

def readAfter (wide : Bool) (found : Survey) (groups : List Bool) (captures : Nat) (t : Text) :
    Option Nat :=
  (quantifierLength? wide t).bind fun n => readFrom wide found groups captures (t.drop n)

def advance (wide : Bool) (found : Survey) (groups : List Bool) (captures : Nat) :
    Term → Text → Option Nat
  | .divider, t => readFrom wide found groups captures t
  | .atom, t => readAfter wide found groups captures t
  | .opening capturing repeatable, t =>
    readFrom wide found (repeatable :: groups) (captures + capturing.toNat) t
  | .closing, t =>
    match groups with
    | [] => none
    | false :: groups => readFrom wide found groups captures t
    | true :: groups => readAfter wide found groups captures t

theorem readFrom_cons (wide : Bool) (found : Survey) (groups : List Bool) (captures : Nat)
    (c : Char) (t : Text) :
    readFrom wide found groups captures (c :: t) =
      (term? wide found c t).bind fun (term, n) =>
        advance wide found groups captures term (t.drop n) := by
  have after : ∀ (groups : List Bool) (n : Nat),
      readAfter wide found groups captures (t.drop n) =
        (quantifierLength? wide (t.drop n)).bind fun k =>
          readFrom wide found groups captures (t.drop (n + k)) := by
    intro groups n
    simp only [readAfter, List.drop_drop]
  rw [readFrom]
  split
  · rename_i h
    rw [h]
    rfl
  · rename_i h
    rw [h]
    rfl
  · rename_i h
    rw [h]
    rfl
  · rename_i n h
    rw [h]
    refine Eq.trans ?_ (after groups n).symm
    cases quantifierLength? wide (t.drop n) <;> rfl
  · rename_i n h
    rw [h]
    cases groups with
    | nil => rfl
    | cons repeatable groups =>
      cases repeatable with
      | false => rfl
      | true =>
        refine Eq.trans ?_ (after groups n).symm
        cases quantifierLength? wide (t.drop n) <;> rfl

theorem readFrom_term {term : Term} {t : Text} (h : term? wide found c t = some (term, n)) :
    readFrom wide found groups captures (c :: t) =
      advance wide found groups captures term (t.drop n) := by
  rw [readFrom_cons, h]
  rfl

-- ---------------------------------------------------------------------------
-- Plain characters
-- ---------------------------------------------------------------------------

/-- Characters that stand for themselves in both modes. -/
def isLiteral (c : Char) : Bool := !"^$\\*+?()[]\x7b\x7d|".toList.contains c

theorem term_literal (hc : isLiteral c) : term? wide found c Y = some (.atom, 0) := by
  unfold term?
  split <;> first
    | rfl
    | cases hc

theorem quantifierLength_literal (hc : isLiteral c) : quantifierLength? wide (c :: Y) = some 0 := by
  unfold quantifierLength?
  split
  case h_5 => rfl
  all_goals
    rename_i heq
    obtain rfl := (List.cons.inj heq).1
    cases hc

theorem readAfter_zero (h : quantifierLength? wide Y = some 0) :
    readAfter wide found groups captures Y = readFrom wide found groups captures Y := by
  rw [readAfter, h]
  rfl

theorem readFrom_literal (hc : isLiteral c) :
    readFrom wide found groups captures (c :: Y) = readAfter wide found groups captures Y :=
  readFrom_term (term_literal hc)

theorem readAfter_literals (hw : ∀ x ∈ w, isLiteral x) :
    readAfter wide found groups captures (w ++ Y) = readAfter wide found groups captures Y := by
  induction w with
  | nil => rfl
  | cons c w ih =>
    rw [List.forall_mem_cons] at hw
    rw [List.cons_append, readAfter_zero (quantifierLength_literal hw.1), readFrom_literal hw.1,
      ih hw.2]

theorem isLiteral_of_isHexDigit (h : Text.isHexDigit c) : isLiteral c := by
  have hall : ∀ x ∈ "^$\\*+?()[]\x7b\x7d|".toList, Text.isHexDigit x = false :=
    forall_mem_of_all (by decide)
  unfold isLiteral
  rw [Bool.not_eq_eq_eq_not, Bool.not_true, List.contains_eq_mem, decide_eq_false_iff_not]
  intro hm
  rw [hall c hm] at h
  cases h

theorem isLiteral_of_isDigit (h : c.isDigit) : isLiteral c :=
  isLiteral_of_isHexDigit (by simp [Text.isHexDigit, Text.hexDigit?, h])

-- ---------------------------------------------------------------------------
-- Markers
-- ---------------------------------------------------------------------------

theorem readFrom_marker {a : Marker × Nat} {body : Text} (hbody : Marker.Tail a body) :
    readFrom wide found groups captures ('(' :: (body ++ Y)) =
      readAfter wide found groups captures Y := by
  obtain ⟨ds, is, hd, hi, rfl, -⟩ := hbody
  have hcolon : ∀ x ∈ ":".toList, isLiteral x := forall_mem_of_all (by decide)
  have hmiddle : ∀ x ∈ Marker.middle, isLiteral x := forall_mem_of_all (by decide)
  have hliteral : ∀ x ∈ ":".toList ++ ds ++ Marker.middle ++ is, isLiteral x := by
    intro x hx
    simp only [List.mem_append] at hx
    obtain ((hx | hx) | hx) | hx := hx
    · exact hcolon x hx
    · exact isLiteral_of_isDigit (hd.isDigit x hx)
    · exact hmiddle x hx
    · exact isLiteral_of_isDigit (hi.isDigit x hx)
  have hbody : '(' :: (Marker.opening ++ ds ++ Marker.middle ++ is ++ [')'] ++ Y) =
      '(' :: '?' :: ':' :: '$' :: ' ' :: '^' :: 'd' ::
        (":".toList ++ ds ++ Marker.middle ++ is ++ ')' :: Y) := by
    simp [Marker.opening]
  have hopen : ∀ rest, term? wide found '(' ('?' :: ':' :: rest) = some (.opening false true, 2) :=
    fun _ => rfl
  have hdollar : ∀ rest, term? wide found '$' rest = some (.divider, 0) := fun _ => rfl
  have hcaret : ∀ rest, term? wide found '^' rest = some (.divider, 0) := fun _ => rfl
  have hclose : ∀ rest, term? wide found ')' rest = some (.closing, 0) := fun _ => rfl
  rw [hbody, readFrom_term (hopen _)]
  simp only [advance, List.drop_succ_cons, List.drop_zero]
  rw [readFrom_term (hdollar _)]
  simp only [advance, List.drop_zero]
  rw [readFrom_literal (by decide), readAfter_zero rfl, readFrom_term (hcaret _)]
  simp only [advance, List.drop_zero]
  rw [readFrom_literal (by decide), readAfter_literals hliteral, readAfter_zero rfl,
    readFrom_term (hclose _)]
  rfl

-- ---------------------------------------------------------------------------
-- Escapes by code point
-- ---------------------------------------------------------------------------

theorem escapeLength_unicode {code : Nat} (h : unicodeEscape? Y = some (code, n)) :
    escapeLength? wide found 'u' Y = some (n + 1) := by
  rw [escapeLength_character (by decide) (by decide) (fun h => by cases h), characterEscape?, h]
  rfl

theorem readFrom_unicode {code : Nat} (h : unicodeEscape? Y = some (code, n)) :
    readFrom wide found groups captures ('\\' :: 'u' :: Y) =
      readAfter wide found groups captures (Y.drop n) := by
  have hterm : term? wide found '\\' ('u' :: Y) = some (.atom, n + 1) := by
    simp [term?, escapeLength_unicode h]
  rw [readFrom_term hterm]
  rfl

theorem readFrom_alone {code : Nat} (hw : w.IsQuad) (hc : Text.hexNumeral? w = some code)
    (h : isHighSurrogate code → ∀ r, Y ≠ '\\' :: 'u' :: r) :
    readFrom wide found groups captures ('\\' :: 'u' :: (w ++ Y)) =
      readAfter wide found groups captures Y := by
  rw [readFrom_unicode (unicodeEscape_alone hw hc h), drop_quad hw]

/-- A high surrogate in front of another code takes all or some of its escape, and
what it leaves are digits that stand for themselves. -/
theorem readFrom_joint {code low : Nat} (hw : w.IsQuad) (hc : Text.hexNumeral? w = some code)
    (hv : v.IsQuad) (hl : Text.hexNumeral? v = some low) (hhigh : isHighSurrogate code) :
    readFrom wide found groups captures ('\\' :: 'u' :: (w ++ '\\' :: 'u' :: (v ++ Y))) =
      readAfter wide found groups captures Y := by
  have hdrop : ∀ k, (w ++ '\\' :: 'u' :: (v ++ Y)).drop (4 + k) =
      ('\\' :: 'u' :: (v ++ Y)).drop k := by
    intro k
    rw [← List.drop_drop, drop_quad hw]
  cases hlow : isLowSurrogate low with
  | true =>
    rw [readFrom_unicode (unicodeEscape_pair hw hc hv hl hhigh hlow), hdrop 6]
    exact congrArg _ (drop_quad hv)
  | false =>
    rw [readFrom_unicode (unicodeEscape_takes hw hc hv hl hhigh hlow), hdrop 2]
    exact readAfter_literals fun x hx => isLiteral_of_isHexDigit (hv.isHex x hx)

-- ---------------------------------------------------------------------------
-- Quantifiers
-- ---------------------------------------------------------------------------

theorem boundsOrdered_append (h : Bounds n w) : boundsOrdered (w ++ Y) = boundsOrdered w := by
  have hstop : ∀ {digits rest : Text} {x : Char}, (∀ c ∈ digits, c.isDigit) → x.isDigit = false →
      Text.leadingDigits (digits ++ x :: rest) = digits := fun hd hx => takeWhile_append_cons hd hx
  obtain ⟨least, -, hleast, -, rfl | ⟨most, hmost, rfl⟩⟩ := h
  · have hrun : ∀ rest, Text.leadingDigits (least ++ '}' :: rest) = least := fun rest =>
      hstop hleast rfl
    rw [List.append_assoc]
    simp only [boundsOrdered, List.cons_append, hrun, List.drop_left]
    rfl
  · have hrun : ∀ rest, Text.leadingDigits (least ++ ',' :: rest) = least := fun rest =>
      hstop hleast rfl
    have hmore : ∀ rest, Text.leadingDigits (most ++ '}' :: rest) = most := fun rest =>
      hstop hmost rfl
    simp only [List.append_assoc, List.cons_append, List.nil_append]
    simp only [boundsOrdered, hrun, List.drop_left, hmore]

theorem quantifierLength_scan {k : TokenKind} {r X : Text} (hk : k.isQuantifier)
    (read : scan .pattern c (r ++ X) = (k, r.length)) :
    ∃ ordered : Bool, ∀ wide Y, quantifierLength? wide (c :: (r ++ Y)) =
      if ordered then some (r.length + 1 + lazyLength Y) else none := by
  obtain hfirst | ⟨rfl, -⟩ := first_of_scan read
  · cases k with
    | star | plus | question =>
      obtain rfl := Option.some.inj hfirst
      obtain rfl : r = [] := List.length_eq_zero_iff.mp (Prod.mk.inj read).2.symm
      exact ⟨true, fun wide Y => rfl⟩
    | braceOpen b =>
      cases b with
      | literal => cases hk
      | quantifier =>
        obtain ⟨-, rfl, hbounds⟩ := of_scan_bounds read
        refine ⟨boundsOrdered r, fun wide Y => ?_⟩
        have hread : Lexer.quantifierLength? (r ++ Y) = some r.length :=
          (reads_quantifier.some_iff _ _).mpr ⟨r, Y, rfl, hbounds⟩
        simp only [quantifierLength?, hread, boundsOrdered_append hbounds, List.drop_left,
          Nat.add_comm 1]
    | _ => cases hk
  · cases hk

theorem quantifierLength_none (hY : ∀ x ∈ Y.head?, x ∉ ['*', '+', '?', '{']) :
    quantifierLength? wide Y = some 0 := by
  unfold quantifierLength?
  split
  case h_5 => rfl
  all_goals
    rename_i heq
    exact absurd (hY _ rfl) (by decide)

end Grammar

end Splice
