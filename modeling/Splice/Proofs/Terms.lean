import Splice.Proofs.Reading
import Splice.Proofs.Renumbering
import Splice.Source.WideMode

/-!
# Terms in both modes

What the grammar reads where the lexer has found an escape, a group opener or a
quantifier depends on the text of the token, hardly ever on what stands behind
it, and on the mode only where the scan for wide problems says so. The lemmas
below hold in any mode and in front of any text that satisfies what they ask of
it.
-/

namespace Splice

open Lexer Grammar

-- ---------------------------------------------------------------------------
-- Four hexadecimal digits
-- ---------------------------------------------------------------------------

namespace Text

structure IsQuad (w : Text) : Prop where
  length_eq : w.length = 4
  isHex : ∀ x ∈ w, isHexDigit x

theorem hexDigit_lt {c : Char} {n : Nat} (h : hexDigit? c = some n) : n < 16 := by
  have digit : c.isDigit → c.toNat ≤ '9'.toNat := fun hd => by
    simp only [Char.isDigit, Bool.and_eq_true, decide_eq_true_eq] at hd
    exact hd.2
  have lower : c ≤ 'f' → c.toNat ≤ 'f'.toNat := id
  have upper : c ≤ 'F' → c.toNat ≤ 'F'.toNat := id
  simp only [Char.reduceToNat] at digit lower upper
  unfold hexDigit? at h
  simp only [Char.reduceToNat] at h
  split at h
  · have := digit ‹_›
    simp only [Option.some.injEq] at h
    omega
  · split at h
    · have := lower (And.right ‹_›)
      simp only [Option.some.injEq] at h
      omega
    · split at h
      · have := upper (And.right ‹_›)
        simp only [Option.some.injEq] at h
        omega
      · cases h

theorem hexDigits_of_isHexDigit {w : Text} (hne : w ≠ []) (hw : ∀ x ∈ w, isHexDigit x) :
    ∃ code, hexDigits? w = some code ∧ code < 16 ^ w.length := by
  have fold : ∀ (w : Text) (start : Nat), (∀ x ∈ w, isHexDigit x) →
      ∃ code, w.foldlM (fun n d => (hexDigit? d).map (16 * n + ·)) start = some code ∧
        code < (start + 1) * 16 ^ w.length := by
    intro w
    induction w with
    | nil => exact fun start _ => ⟨start, rfl, by simp⟩
    | cons d w ih =>
      intro start hw
      rw [List.forall_mem_cons] at hw
      obtain ⟨k, hk⟩ := Option.isSome_iff_exists.mp hw.1
      obtain ⟨code, hcode, hlt⟩ := ih (16 * start + k) hw.2
      refine ⟨code, ?_, ?_⟩
      · rw [List.foldlM_cons, hk]
        exact hcode
      · have hk := hexDigit_lt hk
        have hle : (16 * start + k + 1) * 16 ^ w.length ≤ (start + 1) * 16 * 16 ^ w.length :=
          Nat.mul_le_mul_right _ (by omega)
        rw [List.length_cons, Nat.pow_succ', ← Nat.mul_assoc]
        omega
  cases w with
  | nil => exact absurd rfl hne
  | cons d w =>
    obtain ⟨code, hcode, hlt⟩ := fold _ 0 hw
    exact ⟨code, hcode, by simpa using hlt⟩

theorem IsQuad.code {w : Text} (hw : w.IsQuad) :
    ∃ code, hexNumeral? w = some code ∧ code ≤ maxCodePoint := by
  obtain ⟨hlength, hhex⟩ := hw
  have hne : w ≠ [] := by
    rintro rfl
    simp at hlength
  obtain ⟨code, hcode, hlt⟩ := hexDigits_of_isHexDigit hne hhex
  rw [hlength] at hlt
  refine ⟨code, ?_, by unfold maxCodePoint; omega⟩
  unfold hexNumeral?
  split
  · simp [isHexDigit, hexDigit?] at hhex
  · have hword : code < wordLimit := Nat.lt_trans hlt (by decide)
    exact Option.filter_eq_some_iff.mpr ⟨hcode, decide_eq_true hword⟩

theorem IsQuad.le {w : Text} {code : Nat} (hw : w.IsQuad) (hc : hexNumeral? w = some code) :
    code ≤ maxCodePoint := by
  obtain ⟨code', hcode, hle⟩ := hw.code
  obtain rfl := Option.some.inj (hc.symm.trans hcode)
  exact hle

theorem IsQuad.head {w : Text} (hw : w.IsQuad) : ∃ a v, w = a :: v ∧ isHexDigit a := by
  obtain ⟨hlength, hhex⟩ := hw
  cases w with
  | nil => simp at hlength
  | cons a v => exact ⟨a, v, rfl, hhex a List.mem_cons_self⟩

end Text

namespace Grammar

variable {wide : Bool} {w v Y : Text} {code low : Nat}

theorem code_quad (hw : w.IsQuad) (hc : Text.hexNumeral? w = some code) :
    UnicodeEscape.code? (w ++ Y) = some (code, 4) := by
  have hnumeral : UnicodeEscape.numeral? (w ++ Y) = some (w, 4) := by
    have hlength : 4 ≤ (w ++ Y).length := by rw [List.length_append, hw.length_eq]; omega
    have htake : (w ++ Y).take 4 = w := by rw [← hw.length_eq, List.take_left]
    unfold UnicodeEscape.numeral?
    split
    · rename_i body hbody
      obtain ⟨a, v, rfl, ha⟩ := hw.head
      obtain rfl : a = '{' := (List.cons.inj hbody).1
      simp [Text.isHexDigit, Text.hexDigit?] at ha
    · rw [if_pos hlength, htake]
  unfold UnicodeEscape.code?
  rw [hnumeral]
  simp [hc]

theorem head_quad (hw : w.IsQuad) : (w ++ Y).head? ≠ some '{' := by
  obtain ⟨a, v, rfl, ha⟩ := hw.head
  rintro hbrace
  obtain rfl : a = '{' := by simpa using hbrace
  simp [Text.isHexDigit, Text.hexDigit?] at ha

theorem drop_quad (hw : w.IsQuad) : (w ++ Y).drop 4 = Y := by
  rw [← hw.length_eq, List.drop_left]

theorem unicodeEscape_alone (hw : w.IsQuad) (hc : Text.hexNumeral? w = some code)
    (h : isHighSurrogate code → ∀ r, Y ≠ '\\' :: 'u' :: r) :
    unicodeEscape? (w ++ Y) = some (code, 4) := by
  have hmax : ¬ maxCodePoint < code := Nat.not_lt.mpr (hw.le hc)
  unfold unicodeEscape?
  rw [code_quad hw hc]
  simp only [Option.bind_eq_bind, Option.bind_some, hmax, if_false, head_quad hw, drop_quad hw]
  split
  · rfl
  · rename_i hhigh
    split
    · exact absurd rfl (h (by simpa using hhigh) _)
    · rfl

theorem lowSurrogate_quad (hv : v.IsQuad) (hl : Text.hexNumeral? v = some low) :
    lowSurrogate? (v ++ Y) = if isLowSurrogate low then some low else none := by
  have hlength : 4 ≤ (v ++ Y).length := by rw [List.length_append, hv.length_eq]; omega
  have htake : (v ++ Y).take 4 = v := by rw [← hv.length_eq, List.take_left]
  rw [lowSurrogate?, if_pos hlength, htake, hl, Option.filter_some]

theorem unicodeEscape_pair (hw : w.IsQuad) (hc : Text.hexNumeral? w = some code)
    (hv : v.IsQuad) (hl : Text.hexNumeral? v = some low) (hhigh : isHighSurrogate code)
    (hlow : isLowSurrogate low) :
    unicodeEscape? (w ++ '\\' :: 'u' :: (v ++ Y)) = some (surrogatePair code low, 10) := by
  have hmax : ¬ maxCodePoint < code := Nat.not_lt.mpr (hw.le hc)
  unfold unicodeEscape?
  rw [code_quad hw hc]
  simp only [Option.bind_eq_bind, Option.bind_some, hmax, if_false, head_quad hw, drop_quad hw]
  simp [hhigh, lowSurrogate_quad hv hl, hlow]

theorem unicodeEscape_takes (hw : w.IsQuad) (hc : Text.hexNumeral? w = some code)
    (hv : v.IsQuad) (hl : Text.hexNumeral? v = some low) (hhigh : isHighSurrogate code)
    (hlow : isLowSurrogate low = false) :
    unicodeEscape? (w ++ '\\' :: 'u' :: (v ++ Y)) = some (code, 6) := by
  have hmax : ¬ maxCodePoint < code := Nat.not_lt.mpr (hw.le hc)
  unfold unicodeEscape?
  rw [code_quad hw hc]
  simp only [Option.bind_eq_bind, Option.bind_some, hmax, if_false, head_quad hw, drop_quad hw]
  simp [hhigh, lowSurrogate_quad hv hl, hlow]

-- ---------------------------------------------------------------------------
-- Names in front of another text
-- ---------------------------------------------------------------------------

section
variable {t : Text} {c d : Char} {n extra : Nat} {name : Text}

theorem code_append (h : UnicodeEscape.code? t = some (code, n)) :
    n ≤ t.length ∧ ∀ Y, UnicodeEscape.code? (t ++ Y) = some (code, n) := by
  obtain ⟨⟨numeral, length⟩, hnumeral, h⟩ := Option.bind_eq_some_iff.mp h
  obtain ⟨code', hcode, h⟩ := Option.bind_eq_some_iff.mp h
  obtain ⟨rfl, rfl⟩ := Prod.mk.inj (Option.some.inj h)
  suffices hn : length ≤ t.length ∧
      ∀ Y, UnicodeEscape.numeral? (t ++ Y) = some (numeral, length) by
    refine ⟨hn.1, fun Y => ?_⟩
    unfold UnicodeEscape.code?
    rw [hn.2]
    simp [hcode]
  unfold UnicodeEscape.numeral? at hnumeral
  split at hnumeral
  · rename_i body
    simp only at hnumeral
    split at hnumeral
    · rename_i hlength
      obtain ⟨rfl, rfl⟩ := Prod.mk.inj (Option.some.inj hnumeral)
      refine ⟨by rw [List.length_cons]; omega, fun Y => ?_⟩
      obtain ⟨stop, rest, hbody, hstop⟩ := Source.exists_stop hlength
      have hrun : (body ++ Y).takeWhile (· != '}') = body.takeWhile (· != '}') := by
        have happend : body ++ Y = body.takeWhile (· != '}') ++ stop :: (rest ++ Y) := by
          conv => lhs; rw [hbody]
          simp
        rw [happend]
        exact takeWhile_append_cons all_takeWhile hstop
      have hlonger : (body.takeWhile (· != '}')).length < (body ++ Y).length := by
        rw [List.length_append]
        omega
      simp only [List.cons_append, UnicodeEscape.numeral?, hrun, if_pos hlonger]
    · cases hnumeral
  · rename_i hbrace
    split at hnumeral
    · rename_i hlength
      obtain ⟨rfl, rfl⟩ := Prod.mk.inj (Option.some.inj hnumeral)
      refine ⟨hlength, fun Y => ?_⟩
      have hlonger : 4 ≤ (t ++ Y).length := by
        rw [List.length_append]
        omega
      unfold UnicodeEscape.numeral?
      split
      · rename_i body hbody
        cases t with
        | nil => simp at hlength
        | cons a t => exact absurd (by rw [(List.cons.inj hbody).1]) (hbrace t)
      · rw [if_pos hlonger, List.take_append_of_le_length hlength]
    · cases hnumeral

theorem lowSurrogate_append {low : Nat} (h : lowSurrogate? t = some low) :
    4 ≤ t.length ∧ ∀ Y, lowSurrogate? (t ++ Y) = some low := by
  unfold lowSurrogate? at h
  split at h
  · rename_i hlength
    refine ⟨hlength, fun Y => ?_⟩
    have hlonger : 4 ≤ (t ++ Y).length := by
      rw [List.length_append]
      omega
    rw [lowSurrogate?, if_pos hlonger, List.take_append_of_le_length hlength, h]
  · cases h

/-- Only a lone high surrogate depends on what stands behind it. -/
theorem unicodeEscape_append (h : unicodeEscape? t = some (code, n))
    (hhigh : isHighSurrogate code = false) :
    n ≤ t.length ∧ ∀ Y, unicodeEscape? (t ++ Y) = some (code, n) := by
  obtain ⟨⟨first, length⟩, hfirst, h⟩ := Option.bind_eq_some_iff.mp h
  obtain ⟨hlength, happend⟩ := code_append hfirst
  have hhead : ∀ Y, (t ++ Y).head? = t.head? := by
    intro Y
    cases t with
    | nil => simp [UnicodeEscape.code?, UnicodeEscape.numeral?] at hfirst
    | cons => rfl
  have hdrop : ∀ Y, (t ++ Y).drop length = t.drop length ++ Y := fun Y =>
    List.drop_append_of_le_length hlength
  simp only at h
  split at h
  · cases h
  · rename_i hmax
    split at h
    · rename_i hsingle
      obtain ⟨rfl, rfl⟩ := Prod.mk.inj (Option.some.inj h)
      refine ⟨hlength, fun Y => ?_⟩
      unfold unicodeEscape?
      simp only [happend, hhead, Option.bind_eq_bind, Option.bind_some, if_neg hmax, if_pos hsingle]
    · rename_i hsingle
      have hfirstHigh : isHighSurrogate first := by
        simp only [Bool.or_eq_true, not_or] at hsingle
        simpa using hsingle.2
      split at h
      · rename_i rest hrest
        split at h
        · rename_i low hlow
          obtain ⟨rfl, rfl⟩ := Prod.mk.inj (Option.some.inj h)
          obtain ⟨hrestLength, hlowAppend⟩ := lowSurrogate_append hlow
          refine ⟨?_, fun Y => ?_⟩
          · have := congrArg List.length hrest
            simp only [List.length_drop, List.length_cons] at this
            omega
          · unfold unicodeEscape?
            simp only [happend, hhead, hdrop, hrest, List.cons_append, hlowAppend,
              Option.bind_eq_bind, Option.bind_some, if_neg hmax, if_neg hsingle]
        · obtain ⟨rfl, rfl⟩ := Prod.mk.inj (Option.some.inj h)
          rw [hfirstHigh] at hhigh
          cases hhigh
      · obtain ⟨rfl, rfl⟩ := Prod.mk.inj (Option.some.inj h)
        rw [hfirstHigh] at hhigh
        cases hhigh

theorem not_isHighSurrogate_of_scalar (h : Text.scalar? code = some c) :
    isHighSurrogate code = false := by
  unfold Text.scalar? at h
  split at h
  · rename_i hvalid
    simp only [isHighSurrogate, Bool.and_eq_false_iff, decide_eq_false_iff_not]
    obtain hlt | hlt := hvalid <;> omega
  · cases h

theorem nameChar_append (h : nameChar? c t = some (d, extra)) (hd : d ≠ '\\') :
    extra ≤ t.length ∧ ∀ Y, nameChar? c (t ++ Y) = some (d, extra) := by
  unfold nameChar? at h
  split at h
  · rename_i r
    obtain ⟨⟨code, length⟩, hunicode, h⟩ := Option.bind_eq_some_iff.mp h
    obtain ⟨e, hscalar, h⟩ := Option.bind_eq_some_iff.mp h
    obtain ⟨rfl, rfl⟩ := Prod.mk.inj (Option.some.inj h)
    obtain ⟨hlength, happend⟩ :=
      unicodeEscape_append hunicode (not_isHighSurrogate_of_scalar hscalar)
    refine ⟨by simpa using hlength, fun Y => ?_⟩
    rw [List.cons_append, nameChar?, happend]
    simp [hscalar]
  · obtain ⟨rfl, rfl⟩ := Prod.mk.inj (Option.some.inj h)
    refine ⟨by simp, fun Y => ?_⟩
    unfold nameChar?
    split
    · exact absurd rfl hd
    · rfl

theorem nameRest_append (h : nameRest? t = some (name, n)) :
    n ≤ t.length ∧ ∀ Y, nameRest? (t ++ Y) = some (name, n) := by
  have ne : ∀ {d : Char}, Source.isMute d → d ≠ '\\' := by
    rintro d hd rfl
    cases hd
  fun_induction nameRest? t generalizing name n with
  | case1 => cases h
  | case2 c rest extra hc =>
    obtain ⟨rfl, rfl⟩ := Prod.mk.inj (Option.some.inj h)
    obtain ⟨hlength, happend⟩ := nameChar_append hc (by decide)
    refine ⟨by simpa using hlength, fun Y => ?_⟩
    rw [List.cons_append, nameRest?, happend]
    rfl
  | case3 c rest d extra hc hend hcontinue ih =>
    obtain ⟨⟨name, length⟩, hrest, h⟩ := Option.map_eq_some_iff.mp h
    obtain ⟨rfl, rfl⟩ := Prod.mk.inj h
    obtain ⟨hlength, happend⟩ := nameChar_append hc (ne (Source.isMute_of_isContinue hcontinue))
    obtain ⟨hle, hrestAppend⟩ := ih hrest
    refine ⟨by rw [List.length_drop] at hle; rw [List.length_cons]; omega, fun Y => ?_⟩
    rw [List.cons_append, nameRest?, happend]
    simp only [if_neg hend, if_pos hcontinue]
    rw [List.drop_append_of_le_length hlength, hrestAppend]
    rfl
  | case4 => cases h
  | case5 => cases h

theorem name_append (h : name? t = some (name, n)) :
    n ≤ t.length ∧ ∀ Y, name? (t ++ Y) = some (name, n) := by
  unfold name? at h
  split at h
  · cases h
  · rename_i c rest
    split at h
    · rename_i d extra hc
      split at h
      · rename_i hstart
        obtain ⟨⟨name, length⟩, hrest, h⟩ := Option.map_eq_some_iff.mp h
        obtain ⟨rfl, rfl⟩ := Prod.mk.inj h
        have hd : d ≠ '\\' := by
          rintro rfl
          cases Source.isMute_of_isStart hstart
        obtain ⟨hlength, happend⟩ := nameChar_append hc hd
        obtain ⟨hle, hrestAppend⟩ := nameRest_append hrest
        refine ⟨by rw [List.length_drop] at hle; rw [List.length_cons]; omega, fun Y => ?_⟩
        rw [List.cons_append, name?, happend]
        simp only [if_pos hstart]
        rw [List.drop_append_of_le_length hlength, hrestAppend]
        rfl
      · cases h
    · cases h

end

end Grammar

-- ---------------------------------------------------------------------------
-- Escapes
-- ---------------------------------------------------------------------------

/-- The text of an escape behind its backslash: its first character and the rest. -/
def Escape.Spelled (d : Char) (r : Text) : Escape → Prop
  | .backReference n => d.isDigit ∧ d ≠ '0' ∧ (∀ x ∈ r, x.isDigit) ∧ Text.digitsValue (d :: r) = n
  | .null => d = '0' ∧ r = []
  | .shorthand c => d = c ∧ isShorthand c ∧ r = []
  | .namedReference => d = 'k' ∧ ∃ raw, r = '<' :: (raw ++ ['>'])
  | .unicode => d = 'u' ∧ r.IsQuad
  | .hex => d = 'x' ∧ r.length = 2 ∧ ∀ x ∈ r, Text.isHexDigit x
  | .control => d = 'c' ∧ ∃ a, r = [a] ∧ a.isAlpha
  | .char c => d = c ∧ r = []
  | .octal | .property | .unicodeBraced => True

section
variable {e : Escape} {d : Char} {r X : Text}

theorem of_startsWithHex {k : Nat} (h : startsWithHex k (r ++ X)) (hr : r.length = k) :
    ∀ x ∈ r, Text.isHexDigit x := by
  simp only [startsWithHex, Bool.and_eq_true, List.all_eq_true] at h
  rw [← hr, List.take_left] at h
  exact h.2

theorem spelled_reference (hd : d.isDigit) (h0 : d ≠ '0')
    (h : scanReference d (r ++ X) = (e, r.length + 1)) : e.Spelled d r := by
  have alone : r = [] → e = .backReference (digit d) → e.Spelled d r := by
    rintro rfl rfl
    exact ⟨hd, h0, by simp, Text.digitsValue_singleton d⟩
  unfold scanReference at h
  split at h
  · rename_i a t hat
    split at h
    · rename_i ha
      obtain ⟨rfl, hlength⟩ := Prod.mk.inj h
      obtain ⟨b, rfl⟩ : ∃ b, r = [b] := List.length_eq_one_iff.mp (by omega)
      obtain rfl : b = a := (List.cons.inj hat).1
      exact ⟨hd, h0, by simpa using ha, Text.digitsValue_pair d b⟩
    · obtain ⟨rfl, hlength⟩ := Prod.mk.inj h
      exact alone (List.length_eq_zero_iff.mp (by omega)) rfl
  · obtain ⟨rfl, hlength⟩ := Prod.mk.inj h
    exact alone (List.length_eq_zero_iff.mp (by omega)) rfl

theorem spelled_zero (h : scanZero (r ++ X) = (e, r.length + 1)) : e.Spelled '0' r := by
  simp only [scanZero] at h
  split at h
  · obtain ⟨rfl, hlength⟩ := Prod.mk.inj h
    exact ⟨rfl, List.length_eq_zero_iff.mp (by omega)⟩
  · obtain ⟨rfl, -⟩ := Prod.mk.inj h
    trivial

theorem spelled_unicode (h : scanUnicode (r ++ X) = (e, r.length + 1)) : e.Spelled 'u' r := by
  unfold scanUnicode at h
  split at h
  · obtain ⟨rfl, -⟩ := Prod.mk.inj h
    trivial
  · split at h
    · rename_i hhex
      obtain ⟨rfl, hlength⟩ := Prod.mk.inj h
      exact ⟨rfl, by omega, of_startsWithHex hhex (by omega)⟩
    · obtain ⟨rfl, hlength⟩ := Prod.mk.inj h
      exact ⟨rfl, List.length_eq_zero_iff.mp (by omega)⟩

theorem spelled_scanEscape (h : scanEscape d (r ++ X) = (e, r.length + 1)) : e.Spelled d r := by
  have alone : ∀ {n : Nat}, n = r.length + 1 → n = 1 → r = [] := fun hn h1 =>
    List.length_eq_zero_iff.mp (by omega)
  by_cases hdigit : d.isDigit
  · by_cases h0 : d = '0'
    · subst h0
      exact spelled_zero h
    · simp only [scanEscape, hdigit, if_true, h0, if_false] at h
      exact spelled_reference hdigit h0 h
  · simp only [scanEscape, hdigit, Bool.false_eq_true, if_false] at h
    split at h
    case h_1 | h_2 | h_3 | h_4 | h_5 | h_6 =>
      obtain ⟨rfl, hlength⟩ := Prod.mk.inj h
      exact ⟨rfl, rfl, alone hlength rfl⟩
    · unfold scanNamedReference at h
      split at h
      · rename_i t ht
        split at h
        · rename_i n hn
          obtain ⟨rfl, hlength⟩ := Prod.mk.inj h
          cases r with
          | nil => simp at hlength
          | cons a name =>
            obtain ⟨rfl, rfl⟩ : a = '<' ∧ name ++ X = t := List.cons.inj ht
            obtain ⟨body, rest, happend, hbody⟩ := (reads_name.some_iff _ _).mp hn
            have hlengths : name.length = body.length := by
              have := reads_name.length_eq _ _ hbody
              simp only [List.length_cons, id_eq] at hlength this
              omega
            obtain ⟨raw, -, -, rfl, -⟩ := hbody
            obtain ⟨rfl, -⟩ := List.append_inj happend hlengths
            exact ⟨rfl, raw, rfl⟩
        · obtain ⟨rfl, hlength⟩ := Prod.mk.inj h
          exact ⟨rfl, alone hlength rfl⟩
      · obtain ⟨rfl, hlength⟩ := Prod.mk.inj h
        exact ⟨rfl, alone hlength rfl⟩
    · exact spelled_unicode h
    · split at h
      · rename_i hhex
        obtain ⟨rfl, hlength⟩ := Prod.mk.inj h
        exact ⟨rfl, by omega, of_startsWithHex hhex (by omega)⟩
      · obtain ⟨rfl, hlength⟩ := Prod.mk.inj h
        exact ⟨rfl, alone hlength rfl⟩
    · split at h
      · rename_i halpha
        obtain ⟨rfl, hlength⟩ := Prod.mk.inj h
        obtain ⟨a, rfl⟩ : ∃ a, r = [a] := List.length_eq_one_iff.mp (by omega)
        exact ⟨rfl, a, rfl, by simpa using halpha⟩
      · obtain ⟨rfl, hlength⟩ := Prod.mk.inj h
        exact ⟨rfl, alone hlength rfl⟩
    case h_11 | h_12 =>
      split at h
      · obtain ⟨rfl, -⟩ := Prod.mk.inj h
        trivial
      · obtain ⟨rfl, hlength⟩ := Prod.mk.inj h
        exact ⟨rfl, alone hlength rfl⟩
    · obtain ⟨rfl, hlength⟩ := Prod.mk.inj h
      exact ⟨rfl, alone hlength rfl⟩

theorem mem_sharedEscapes (h : d ∈ sharedEscapes) :
    d ∈ identityEscapes ∨ d ∈ ['f', 'n', 'r', 't', 'v'] := by
  have hall : ∀ x ∈ sharedEscapes, x ∈ identityEscapes ∨ x ∈ ['f', 'n', 'r', 't', 'v'] :=
    forall_mem_of_all (by decide)
  exact hall d h

theorem characterEscape_identity {wide : Bool} {Y : Text} (h : d ∈ identityEscapes) :
    characterEscape? wide d Y = some (d.toNat, 1) := by
  have hletter : ∀ x ∈ identityEscapes, x.isAlphanum = false := forall_mem_of_all (by decide)
  have hoctal : ∀ x ∈ identityEscapes, Text.isOctalDigit x = false := forall_mem_of_all (by decide)
  have hd := hletter d h
  have ho := hoctal d h
  unfold characterEscape?
  split
  case h_9 =>
    have h0 : d ≠ '0' := by
      rintro rfl
      simp at hd
    simp [h0, ho, h]
  all_goals simp at hd

/-- Escapes that stand for a character in both modes, whatever is behind them,
codes in four digits aside. -/
def Escape.isCharacter : Escape → Bool
  | .null | .hex | .control => true
  | .char c => sharedEscapes.contains c
  | _ => false

/-- Escapes that end in a digit and would take another one. -/
def Escape.isNumber : Escape → Bool
  | .backReference _ | .null => true
  | _ => false

theorem characterEscape_spelled (hs : e.Spelled d r) (he : e.isCharacter) :
    ∃ code, ∀ wide Y, (e.isNumber → Y.head?.any Char.isDigit = false) →
      characterEscape? wide d (r ++ Y) = some (code, r.length + 1) := by
  cases e with
  | null =>
    obtain ⟨rfl, rfl⟩ := hs
    refine ⟨0, fun wide Y hdigit => ?_⟩
    simp [characterEscape?, hdigit rfl]
  | hex =>
    obtain ⟨rfl, hlength, hhex⟩ := hs
    obtain ⟨a, b, rfl⟩ := List.length_eq_two.mp hlength
    obtain ⟨code, hcode, -⟩ := Text.hexDigits_of_isHexDigit (by simp) hhex
    exact ⟨code, fun wide Y _ => by simp [characterEscape?, hexPair?, hcode]⟩
  | control =>
    obtain ⟨rfl, a, rfl, ha⟩ := hs
    exact ⟨a.toNat % 32, fun wide Y _ => by simp [characterEscape?, ha]⟩
  | char c =>
    obtain ⟨rfl, rfl⟩ := hs
    have hd : d ∈ sharedEscapes := by simpa [Escape.isCharacter] using he
    obtain hd | hd := mem_sharedEscapes hd
    · exact ⟨d.toNat, fun wide Y _ => characterEscape_identity hd⟩
    · simp only [List.mem_cons, List.not_mem_nil, or_false] at hd
      obtain rfl | rfl | rfl | rfl | rfl := hd
      all_goals exact ⟨_, fun wide Y _ => rfl⟩
  | _ => cases he

section
variable {wide : Bool} {found : Survey} {Y : Text}

/-- Characters that have an escape of their own, outside classes or inside. -/
def ownEscapes : Text := ['b', 'B', 'c', 'p', 'P', 'k', '-']

theorem escapeLength_character (hd : d ∉ ownEscapes)
    (hset : isShorthand d = false) (hdigit : d.isDigit → d = '0') :
    escapeLength? wide found d Y = (characterEscape? wide d Y).map Prod.snd := by
  simp only [ownEscapes, List.mem_cons, List.not_mem_nil, or_false, not_or] at hd
  have hnumber : (d.isDigit && d != '0') = false := by
    cases hx : d.isDigit with
    | false => rfl
    | true => simp [hdigit hx]
  simp [escapeLength?, hd, hset, hnumber]

theorem leadingDigits_append (hr : ∀ x ∈ r, x.isDigit) (hY : Y.head?.any Char.isDigit = false) :
    Text.leadingDigits (r ++ Y) = r := by
  cases Y with
  | nil =>
    rw [List.append_nil]
    exact List.takeWhile_eq_self_iff.mpr hr
  | cons y Y => exact takeWhile_append_cons hr (by simpa using hY)

theorem exists_leadingDigits (t : Text) : ∃ digits Y, t = digits ++ Y ∧
    (∀ x ∈ digits, x.isDigit) ∧ Y.head?.any Char.isDigit = false := by
  refine ⟨t.takeWhile Char.isDigit, t.dropWhile Char.isDigit, ?_, all_takeWhile, ?_⟩
  · exact (List.takeWhile_append_dropWhile ..).symm
  · have hstop := List.head?_dropWhile_not Char.isDigit t
    cases hhead : (t.dropWhile Char.isDigit).head? with
    | none => rfl
    | some c => simpa [hhead] using hstop

theorem escapeLength_reference (hd : d.isDigit) (h0 : d ≠ '0') (hr : ∀ x ∈ r, x.isDigit)
    (hle : Text.digitsValue (d :: r) ≤ found.parentheses)
    (hY : Y.head?.any Char.isDigit = false) :
    escapeLength? wide found d (r ++ Y) = some (r.length + 1) := by
  have hrun : Text.leadingDigits (d :: (r ++ Y)) = d :: r :=
    leadingDigits_append (List.forall_mem_cons.mpr ⟨hd, hr⟩) hY
  have ne : ∀ x : Char, x.isDigit = false → d ≠ x := by
    rintro x hx rfl
    simp [hx] at hd
  have hset : isShorthand d = false := by
    simp [isShorthand, ne 'd' rfl, ne 'D' rfl, ne 's' rfl, ne 'S' rfl, ne 'w' rfl, ne 'W' rfl]
  simp [escapeLength?, ne 'b' rfl, ne 'B' rfl, ne 'c' rfl, ne 'p' rfl, ne 'P' rfl, hset, hd, h0,
    hrun, hle]

theorem of_mem_sharedEscapes (h : d ∈ sharedEscapes) :
    d ∉ ownEscapes ∧ isShorthand d = false ∧ d.isDigit = false := by
  have hall : ∀ x ∈ sharedEscapes, x ∉ ownEscapes ∧ isShorthand x = false ∧ x.isDigit = false :=
    forall_mem_of_all (by decide)
  exact hall d h

theorem mem_patternEscapes {t : Token} (h : t.patternEscapeChanges (.char d) = false) :
    d ∈ sharedEscapes ∨ d = 'b' ∨ d = 'B' := by
  have hmem : patternEscapes.contains d = true := by
    change (!patternEscapes.contains d) = false at h
    generalize patternEscapes.contains d = b at h
    cases b with
    | false => cases h
    | true => rfl
  replace hmem : d ∈ patternEscapes := List.contains_iff_mem.mp hmem
  refine (List.mem_append.mp hmem).imp id fun h => ?_
  simpa only [List.mem_cons, List.not_mem_nil, or_false] using h

/-- What is no problem to the scan is an escape of the same text in both modes,
references by number and codes in four digits aside. -/
theorem escapeLength_spelled {t : Token} (hs : e.Spelled d r)
    (hchange : t.patternEscapeChanges e = false) (hu : e ≠ .unicode)
    (hreference : ∀ n, e ≠ .backReference n)
    (hname : e = .namedReference →
      ∃ name ∈ found.names, name? r.tail = some (name, r.tail.length))
    (hdigit : e.isNumber → Y.head?.any Char.isDigit = false) :
    escapeLength? wide found d (r ++ Y) = some (r.length + 1) := by
  have character : d ∉ ownEscapes → isShorthand d = false →
      (d.isDigit → d = '0') → e.isCharacter →
        escapeLength? wide found d (r ++ Y) = some (r.length + 1) := by
    intro hd hset hdigits he
    obtain ⟨code, hcode⟩ := characterEscape_spelled hs he
    rw [escapeLength_character hd hset hdigits, hcode wide Y hdigit]
    rfl
  cases e with
  | null =>
    obtain ⟨rfl, rfl⟩ := hs
    exact character (by decide) (by decide) (fun _ => rfl) rfl
  | hex =>
    obtain ⟨rfl, -⟩ := hs
    exact character (by decide) (by decide) (fun h => by cases h) rfl
  | control =>
    obtain ⟨code, hcode⟩ := characterEscape_spelled hs rfl
    obtain ⟨rfl, a, rfl, ha⟩ := hs
    have hwide := hcode wide Y hdigit
    cases wide with
    | false => simp [escapeLength?, isShorthand, ha]
    | true => simpa [escapeLength?, isShorthand] using ⟨code, hwide⟩
  | char c =>
    obtain ⟨rfl, rfl⟩ := hs
    obtain hc | rfl | rfl := mem_patternEscapes hchange
    · obtain ⟨hd, hset, hnumber⟩ := of_mem_sharedEscapes hc
      refine character hd hset (fun h => ?_) (List.contains_iff_mem.mpr hc)
      rw [hnumber] at h
      cases h
    · rfl
    · rfl
  | shorthand c =>
    obtain ⟨rfl, hd, rfl⟩ := hs
    simp [escapeLength?, hd]
  | backReference n => exact absurd rfl (hreference n)
  | namedReference =>
    obtain ⟨rfl, text, rfl⟩ := hs
    obtain ⟨name, hmem, hread⟩ := hname rfl
    obtain ⟨-, happend⟩ := name_append hread
    have hne : found.names ≠ [] := List.ne_nil_of_mem hmem
    have hname : name? (text ++ '>' :: Y) = some (name, text.length + 1) := by
      simpa using happend Y
    simp [escapeLength?, isShorthand, namedReferenceLength?, hne, hname, hmem]
  | unicode => exact absurd rfl hu
  | octal | property | unicodeBraced => cases hchange

end

end

-- ---------------------------------------------------------------------------
-- Groups
-- ---------------------------------------------------------------------------

/-- Whether a quantifier may follow a group in a mode. -/
def GroupOpener.repeatable (wide : Bool) : GroupOpener → Bool
  | .lookahead | .negativeLookahead => !wide
  | .lookbehind | .negativeLookbehind => false
  | _ => true

def GroupOpener.isDeferred : GroupOpener → Bool
  | .deferred _ => true
  | _ => false

/-- The text of an opener behind its parenthesis, where `X` comes next. -/
def GroupOpener.Spelled (r X : Text) : GroupOpener → Prop
  | .capture => r = [] ∧ X.head? ≠ some '?'
  | .named => ∃ name, r = '?' :: '<' :: name
  | .nonCapture => r = ['?', ':']
  | .lookahead => r = ['?', '=']
  | .negativeLookahead => r = ['?', '!']
  | .lookbehind => r = ['?', '<', '=']
  | .negativeLookbehind => r = ['?', '<', '!']
  | .modifiers => r = ['?'] ∧ ∀ x ∈ X.head?, x ∉ [':', '=', '!', '<']
  | .deferred m => Marker.Tail (m, r.length) r

theorem spelled_scanGroup {g : GroupOpener} {r X : Text}
    (read : scanGroup (r ++ X) = (g, r.length)) : g.Spelled r X := by
  have front : ∀ {n : Nat} {w : Text}, r.length = n → (r ++ X).take n = w → r = w := by
    rintro n w rfl rfl
    rw [List.take_left]
  unfold scanGroup at read
  split at read
  · rename_i marker n htail
    obtain ⟨rfl, rfl⟩ := Prod.mk.inj read
    obtain ⟨body, rest, happend, hbody⟩ := (Marker.reads_tail.some_iff _ _).mp htail
    obtain rfl : r = body :=
      (List.append_inj happend (Marker.reads_tail.length_eq _ _ hbody).symm).1
    exact hbody
  · split at read <;> obtain ⟨rfl, hlength⟩ := Prod.mk.inj read
    case h_1 | h_2 | h_3 | h_4 | h_5 =>
      rename_i heq
      exact front hlength.symm (by rw [heq]; rfl)
    · rename_i heq
      have hlt : 2 ≤ r.length := by omega
      obtain ⟨a, b, name, rfl⟩ : ∃ a b name, r = a :: b :: name := by
        match r, hlt with
        | a :: b :: name, _ => exact ⟨a, b, name, rfl⟩
      obtain ⟨rfl, rfl, -⟩ : a = '?' ∧ b = '<' ∧ _ := by simpa using heq
      exact ⟨name, rfl⟩
    · rename_i hcolon hequals hbang _ _ hangle heq
      obtain ⟨a, rfl⟩ : ∃ a, r = [a] := List.length_eq_one_iff.mp hlength.symm
      obtain ⟨rfl, rfl⟩ := List.cons.inj heq
      refine ⟨rfl, fun x hx hmem => ?_⟩
      obtain ⟨rest, rfl⟩ := List.head?_eq_some_iff.mp hx
      simp only [List.mem_cons, List.not_mem_nil, or_false] at hmem
      obtain rfl | rfl | rfl | rfl := hmem
      · exact hcolon rest rfl
      · exact hequals rest rfl
      · exact hbang rest rfl
      · exact hangle rest rfl
    · rename_i hnone
      obtain rfl : r = [] := List.length_eq_zero_iff.mp hlength.symm
      refine ⟨rfl, fun hX => ?_⟩
      obtain ⟨rest, rfl⟩ := List.head?_eq_some_iff.mp hX
      exact hnone rest rfl

namespace Grammar

variable {wide : Bool} {found : Survey} {groups : List Bool} {captures : Nat}
variable {c : Char} {r X Y : Text} {g : GroupOpener} {n : Nat}

theorem name_eq_none (h : Identifier.isStart edition c = false) (hc : c ≠ '\\') :
    name? (c :: Y) = none := by
  have hchar : nameChar? c Y = some (c, 0) := by
    unfold nameChar?
    split
    · exact absurd rfl hc
    · rfl
  simp [name?, hchar, h]

theorem opener_named {t name : Text} (h : name? t = some (name, n)) :
    opener? wide ('?' :: '<' :: t) = some (.opening true true, n + 2) := by
  unfold opener?
  split
  case h_4 | h_5 =>
    rename_i heq
    obtain rfl := (List.cons.inj (List.cons.inj heq).2).2
    rw [name_eq_none (by decide +kernel) (by decide)] at h
    cases h
  case h_6 =>
    rename_i heq
    obtain rfl := (List.cons.inj (List.cons.inj heq).2).2
    rw [h]
    rfl
  all_goals grind

/-- An opener is the same in both modes. One without a question mark must not
be in front of one, and a name has to end where the lexer thinks it does. -/
theorem opener_spelled (hs : g.Spelled r X) (hd : g.isDeferred = false) (hm : g ≠ .modifiers)
    (hcapture : g = .capture → Y.head? ≠ some '?')
    (hname : g = .named → ∃ name, name? (r.drop 2) = some (name, (r.drop 2).length)) :
    opener? wide (r ++ Y) = some (.opening g.isCapture (g.repeatable wide), r.length) := by
  cases g with
  | capture =>
    obtain ⟨rfl, -⟩ := hs
    have hY := hcapture rfl
    rw [List.nil_append]
    unfold opener?
    split
    case h_8 => rfl
    all_goals simp at hY
  | named =>
    obtain ⟨name, rfl⟩ := hs
    obtain ⟨text, hread⟩ := hname rfl
    obtain ⟨-, happend⟩ := name_append hread
    exact opener_named (happend Y)
  | modifiers => exact absurd rfl hm
  | deferred => cases hd
  | _ =>
    obtain rfl : r = _ := hs
    rfl

theorem modifiers_append {t : Text} (h : modifiersLength? t = some n) :
    ∃ w rest, t = w ++ ':' :: rest ∧ n = w.length + 1 ∧ (∀ x ∈ w, x ∈ "ims-".toList) ∧
      ∀ Y, modifiersLength? (w ++ ':' :: Y) = some (w.length + 1) := by
  unfold modifiersLength? at h
  simp only at h
  split at h
  · rename_i hm
    obtain rfl := Option.some.inj h
    rw [Bool.and_eq_true, Bool.and_eq_true, decide_eq_true_eq, List.all_eq_true] at hm
    obtain ⟨⟨hlength, hany⟩, hall⟩ := hm
    obtain ⟨stop, rest, ht, hstop⟩ := Source.exists_stop hlength
    obtain rfl : stop = ':' := by simpa using hstop
    have hrun : ∀ x ∈ t.takeWhile (· != ':'), x != ':' := all_takeWhile
    generalize t.takeWhile (· != ':') = w at *
    refine ⟨w, rest, ht, rfl, fun x hx => ?_, fun Y => ?_⟩
    · have hx := hall x hx
      rw [Bool.and_eq_true, List.contains_eq_mem, decide_eq_true_eq] at hx
      exact hx.1
    · have htake : (w ++ ':' :: Y).takeWhile (· != ':') = w := takeWhile_append_cons hrun rfl
      have hlonger : w.length < (w ++ ':' :: Y).length := by simp
      unfold modifiersLength?
      rw [htake]
      simp only [hlonger, decide_true, Bool.true_and, hany, List.all_eq_true.mpr hall, if_true]
  · cases h

end Grammar

end Splice
