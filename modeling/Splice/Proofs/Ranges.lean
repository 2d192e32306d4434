import Splice.Proofs.Advancing

/-!
# Ranges in both modes

The grammar reads a class atom by atom, and a dash behind an atom begins a
range. `classFrom?` is the rest of a class, in front of a member or behind an
atom that may begin a range; the lemmas say how it gets past an atom, a range
and an escape by code point, in any mode and in front of any text.
-/

namespace Splice

open Lexer

namespace Grammar

variable {wide : Bool} {c d : Char} {t w v Y : Text} {n : Nat} {first atom : ClassAtom}
variable {mode : Option ClassAtom}

-- ---------------------------------------------------------------------------
-- Reading on behind an atom
-- ---------------------------------------------------------------------------

def ClassAtom.member : ClassAtom → ClassMember
  | .single _ => .other
  | .set => .shorthand

/-- Length of the dash and the atom by which an atom becomes a range, zero if
there is no dash, or only the closing bracket behind it. -/
def rangeLength? (wide : Bool) (first : ClassAtom) : Text → Option Nat
  | '-' :: d :: rest =>
    if d = ']' then some 0
    else
      (classAtom? wide d rest).bind fun (last, n) =>
        if rangeAllowed wide first last then some (n + 2) else none
  | _ => some 0

/-- Length of the rest of a class, in front of a member or behind an atom that
may begin a range. -/
def classFrom? (wide : Bool) : Option ClassAtom → Text → Option Nat
  | none, t => classMembers? wide t
  | some first, t =>
    (rangeLength? wide first t).bind fun n => (classMembers? wide (t.drop n)).map (· + n)

theorem classRange_eq (h : classAtom? wide c t = some (atom, n)) :
    classRange? wide c t = (rangeLength? wide atom (t.drop n)).map (n + ·) := by
  rw [classRange?, h]
  simp only [Option.bind_eq_bind, Option.bind_some]
  generalize t.drop n = u
  unfold rangeLength?
  split
  · rename_i d after
    by_cases hd : d = ']'
    · simp [hd]
    · simp only [if_neg hd]
      cases classAtom? wide d after with
      | none => rfl
      | some last =>
        simp only [Option.bind_some]
        split
        · exact congrArg some (Nat.add_assoc _ _ _)
        · rfl
  · rename_i hu
    split
    · exact absurd rfl (hu _ _)
    · rfl

theorem classMembers_atom (hc : c ≠ ']') (h : classAtom? wide c t = some (atom, n)) :
    classMembers? wide (c :: t) = (classFrom? wide (some atom) (t.drop n)).map (· + n + 1) := by
  rw [classMembers?, if_neg hc, classRange_eq h, classFrom?]
  cases rangeLength? wide atom (t.drop n) with
  | none => rfl
  | some k =>
    simp only [Option.map_some, Option.bind_some, List.drop_drop, Option.map_map]
    congr 1
    funext m
    simp only [Function.comp_apply]
    omega

theorem classFrom_eq_members (h : mode = none ∨ t.head? ≠ some '-') :
    classFrom? wide mode t = classMembers? wide t := by
  cases mode with
  | none => rfl
  | some first =>
    have hnone : rangeLength? wide first t = some 0 := by
      unfold rangeLength?
      split
      · simp at h
      · rfl
    rw [classFrom?, hnone]
    simp

theorem classMembers_close : classMembers? wide (']' :: Y) = some 1 := by
  rw [classMembers?, if_pos rfl]

theorem classFrom_close : classFrom? wide mode (']' :: Y) = some 1 := by
  rw [classFrom_eq_members (.inr (by simp)), classMembers_close]

theorem classFrom_atom (hc : c ≠ ']') (h : classAtom? wide c t = some (atom, n))
    (hdash : mode = none ∨ c ≠ '-') :
    classFrom? wide mode (c :: t) = (classFrom? wide (some atom) (t.drop n)).map (· + n + 1) := by
  rw [classFrom_eq_members (hdash.imp id fun hc => by simpa using hc), classMembers_atom hc h]

theorem classFrom_dash_close : classFrom? wide (some first) ('-' :: ']' :: Y) = some 2 := by
  have hdash : classAtom? wide '-' (']' :: Y) = some (.single '-'.toNat, 0) := rfl
  have hnone : rangeLength? wide first ('-' :: ']' :: Y) = some 0 := rfl
  rw [classFrom?, hnone]
  simp only [Option.bind_some, List.drop_zero]
  rw [classMembers_atom (by decide) hdash, List.drop_zero, classFrom_close]
  rfl

theorem classFrom_range (hd : d ≠ ']') (h : classAtom? wide d t = some (atom, n)) :
    classFrom? wide (some first) ('-' :: d :: t) =
      if rangeAllowed wide first atom then (classMembers? wide (t.drop n)).map (· + n + 2)
      else none := by
  rw [classFrom?, rangeLength?, if_neg hd, h]
  simp only [Option.bind_some]
  split
  · simp [Nat.add_assoc]
  · rfl

theorem classFrom_nil : classFrom? wide mode [] = none := by
  rw [classFrom_eq_members (.inr (by simp)), classMembers?]

theorem classFrom_dash_nil : classFrom? wide (some first) ['-'] = none := by
  have hnone : rangeLength? wide first ['-'] = some 0 := rfl
  have hdash : classAtom? wide '-' [] = some (.single '-'.toNat, 0) := rfl
  rw [classFrom?, hnone]
  simp only [Option.bind_some, List.drop_zero]
  rw [classMembers_atom (by decide) hdash, List.drop_zero, classFrom_nil]
  rfl

-- ---------------------------------------------------------------------------
-- Escapes by code point
-- ---------------------------------------------------------------------------

theorem classAtom_unicode {code : Nat} (h : unicodeEscape? Y = some (code, n)) :
    classAtom? wide '\\' ('u' :: Y) = some (.single code, n + 1) := by
  simp [classAtom?, classEscape?, isShorthand, characterEscape?, h]

theorem classFrom_hex (hc : Text.isHexDigit c) :
    classFrom? wide mode (c :: Y) = (classFrom? wide (some (.single c.toNat)) Y).map (· + 1) := by
  have ne : ∀ x : Char, Text.isHexDigit x = false → c ≠ x := by
    rintro x hx rfl
    rw [hx] at hc
    cases hc
  have hatom : classAtom? wide c Y = some (.single c.toNat, 0) := by
    simp [classAtom?, ne '\\' rfl]
  exact classFrom_atom (ne ']' rfl) hatom (.inr (ne '-' rfl))

/-- Of four digits only the last one may begin a range. -/
theorem classFrom_quad (hv : v.IsQuad) : ∃ last, ∀ wide mode Y,
    classFrom? wide mode (v ++ Y) = (classFrom? wide (some (.single last)) Y).map (· + 4) := by
  obtain ⟨hlength, hhex⟩ := hv
  match v, hlength with
  | [a, b, c, d], _ =>
    simp only [List.forall_mem_cons] at hhex
    obtain ⟨ha, hb, hc, hd, -⟩ := hhex
    refine ⟨d.toNat, fun wide mode Y => ?_⟩
    simp only [List.cons_append, List.nil_append]
    rw [classFrom_hex ha, classFrom_hex hb, classFrom_hex hc, classFrom_hex hd]
    simp [Option.map_map, Function.comp_def]

variable {code low : Nat}

theorem drop_joint (hw : w.IsQuad) (k : Nat) :
    ('u' :: (w ++ '\\' :: 'u' :: (v ++ Y))).drop (4 + k + 1) =
      ('\\' :: 'u' :: (v ++ Y)).drop k := by
  rw [List.drop_succ_cons, ← List.drop_drop, drop_quad hw]

theorem classFrom_joint (hw : w.IsQuad) (hc : Text.hexNumeral? w = some code) (hv : v.IsQuad)
    (hl : Text.hexNumeral? v = some low) (hhigh : isHighSurrogate code) :
    ∃ last, ∀ wide mode Y, classFrom? wide mode ('\\' :: 'u' :: (w ++ '\\' :: 'u' :: (v ++ Y))) =
      (classFrom? wide (some (.single last)) Y).map (· + 12) := by
  cases hlow : isLowSurrogate low with
  | true =>
    refine ⟨surrogatePair code low, fun wide mode Y => ?_⟩
    have hatom : classAtom? wide '\\' ('u' :: (w ++ '\\' :: 'u' :: (v ++ Y))) = _ :=
      classAtom_unicode (unicodeEscape_pair hw hc hv hl hhigh hlow)
    rw [classFrom_atom (by decide) hatom (.inr (by decide)), drop_joint hw 6]
    simp only [List.drop_succ_cons, drop_quad hv]
  | false =>
    obtain ⟨last, hlast⟩ := classFrom_quad hv
    refine ⟨last, fun wide mode Y => ?_⟩
    have hatom : classAtom? wide '\\' ('u' :: (w ++ '\\' :: 'u' :: (v ++ Y))) = _ :=
      classAtom_unicode (unicodeEscape_takes hw hc hv hl hhigh hlow)
    rw [classFrom_atom (by decide) hatom (.inr (by decide)), drop_joint hw 2]
    simp only [List.drop_succ_cons, List.drop_zero]
    rw [hlast]
    simp [Option.map_map, Function.comp_def]

/-- At the end of a range they leave no atom that could begin one, unless the
last digit is left over. Without a dash behind them that makes no difference. -/
theorem classFrom_range_joint (hw : w.IsQuad) (hc : Text.hexNumeral? w = some code)
    (hv : v.IsQuad) (hl : Text.hexNumeral? v = some low) (hhigh : isHighSurrogate code) :
    ∃ end_ last, ∀ wide first Y, (isLowSurrogate low → Y.head? ≠ some '-') →
      classFrom? wide (some first) ('-' :: '\\' :: 'u' :: (w ++ '\\' :: 'u' :: (v ++ Y))) =
        if rangeAllowed wide first (.single end_) then
          (classFrom? wide (some (.single last)) Y).map (· + 13)
        else none := by
  cases hlow : isLowSurrogate low with
  | true =>
    refine ⟨surrogatePair code low, 0, fun wide first Y hY => ?_⟩
    have hatom : classAtom? wide '\\' ('u' :: (w ++ '\\' :: 'u' :: (v ++ Y))) = _ :=
      classAtom_unicode (unicodeEscape_pair hw hc hv hl hhigh hlow)
    rw [classFrom_range (by decide) hatom, drop_joint hw 6, classFrom_eq_members (.inr (hY rfl))]
    simp only [List.drop_succ_cons, drop_quad hv]
  | false =>
    obtain ⟨last, hlast⟩ := classFrom_quad hv
    refine ⟨code, last, fun wide first Y _ => ?_⟩
    have hatom : classAtom? wide '\\' ('u' :: (w ++ '\\' :: 'u' :: (v ++ Y))) = _ :=
      classAtom_unicode (unicodeEscape_takes hw hc hv hl hhigh hlow)
    rw [classFrom_range (by decide) hatom, drop_joint hw 2]
    simp only [List.drop_succ_cons, List.drop_zero]
    have hmembers := hlast wide none Y
    rw [classFrom?] at hmembers
    rw [hmembers]
    simp [Option.map_map, Function.comp_def]

end Grammar

end Splice
