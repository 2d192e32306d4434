import Splice.Proofs.Lookahead

/-!
# The text of markers and references

What `Marker.tail?` reads is exactly the text of a marker behind its opening
parenthesis, with numbers written in any number of digits, and a marker that
is written with shortest numerals is read back.
-/

namespace Splice

-- ---------------------------------------------------------------------------
-- Decimal numerals
-- ---------------------------------------------------------------------------

namespace Text

theorem decimal_ne_nil (n : Nat) : decimal n ≠ [] := Nat.toDigits_ne_nil

theorem isDigit_of_mem_decimal {c : Char} {n : Nat} (h : c ∈ decimal n) : c.isDigit :=
  Nat.isDigit_of_mem_toDigits (by decide) (by decide) h

theorem digitsValue_decimal (n : Nat) : digitsValue (decimal n) = n :=
  Nat.ofDigitChars_ten_toDigits

theorem digitsValue_singleton (c : Char) : digitsValue [c] = Lexer.digit c := by
  simp [digitsValue, Lexer.digit]

theorem digitsValue_pair (c d : Char) :
    digitsValue [c, d] = 10 * Lexer.digit c + Lexer.digit d := by
  simp [digitsValue, Lexer.digit]

theorem decimal_cases {n : Nat} (h0 : 0 < n) (h : n ≤ 99) :
    (∃ c, decimal n = [c] ∧ c ≠ '0' ∧ n ≤ 9) ∨
      ∃ c d, decimal n = [c, d] ∧ c ≠ '0' ∧ 10 ≤ n := by
  have key : ∀ n ≤ 99, 0 < n →
      (decimal n).length = (if n ≤ 9 then 1 else 2) ∧ (decimal n).head? ≠ some '0' := by
    decide +kernel
  obtain ⟨hl, hh⟩ := key n h h0
  match hd : decimal n, hl with
  | [c], hl =>
    rw [hd] at hh
    refine .inl ⟨c, rfl, by simpa using hh, ?_⟩
    by_contra hn
    simp [hn] at hl
  | [c, d], hl =>
    rw [hd] at hh
    refine .inr ⟨c, d, rfl, by simpa using hh, ?_⟩
    by_contra hn
    simp [show n ≤ 9 by omega] at hl
  | [], hl => exact absurd hd (decimal_ne_nil n)
  | _ :: _ :: _ :: _, hl => split at hl <;> simp at hl

end Text

-- ---------------------------------------------------------------------------
-- Markers
-- ---------------------------------------------------------------------------

namespace Marker

variable {t : Text} {m : Marker} {n : Nat}

theorem after?_eq_some {lead r : Text} : after? lead t = some r ↔ t = lead ++ r := by
  unfold after?
  constructor
  · intro h
    split at h
    · rename_i hp
      obtain ⟨r', rfl⟩ := List.isPrefixOf_iff_prefix.mp hp
      simp only [List.drop_left, Option.some.injEq] at h
      rw [h]
    · simp at h
  · rintro rfl
    simp

/-- A numeral as markers hold them: a run of digits whose value fits. -/
structure IsNumeral (digits : Text) (value : Nat) : Prop where
  ne_nil : digits ≠ []
  isDigit : ∀ c ∈ digits, c.isDigit
  value_eq : Text.digitsValue digits = value
  lt : value < wordLimit

theorem isNumeral_decimal (h : n < wordLimit) : IsNumeral (Text.decimal n) n :=
  ⟨Text.decimal_ne_nil n, fun _ => Text.isDigit_of_mem_decimal, Text.digitsValue_decimal n, h⟩

theorem numeral?_append {digits r : Text} {c : Char} (h : IsNumeral digits n)
    (hc : c.isDigit = false) : numeral? (digits ++ c :: r) = some (n, digits.length) := by
  have hw : Text.leadingDigits (digits ++ c :: r) = digits :=
    Lexer.takeWhile_append_cons h.isDigit hc
  unfold numeral?
  split
  · rename_i hn
    exact absurd (hw ▸ hn) h.ne_nil
  · simp [hw, h.value_eq, h.lt]

theorem of_numeral? {l : Nat} (h : numeral? t = some (n, l)) :
    ∃ digits, IsNumeral digits n ∧ digits.length = l ∧ t = digits ++ t.drop l := by
  unfold numeral? at h
  split at h
  · simp at h
  · rename_i hne
    simp only [Option.ite_none_right_eq_some, Option.some.injEq, Prod.mk.injEq] at h
    obtain ⟨hlt, rfl, rfl⟩ := h
    exact ⟨_, ⟨hne, Lexer.all_takeWhile, rfl, hlt⟩, rfl,
      (Lexer.takeWhile_append_drop_length Char.isDigit t).symm⟩

def Tail (a : Marker × Nat) (body : Text) : Prop :=
  ∃ depth index, IsNumeral depth a.1.depth ∧ IsNumeral index a.1.index ∧
    body = opening ++ depth ++ middle ++ index ++ [')'] ∧ a.2 = body.length

theorem reads_tail : Lexer.Reads tail? Prod.snd Tail := by
  refine ⟨fun t a => ⟨fun h => ?_, ?_⟩, fun a body ⟨_, _, _, _, _, hn⟩ => hn.symm⟩
  · simp only [tail?, bind, Option.bind_eq_some_iff] at h
    obtain ⟨t₁, h₁, ⟨depth, dl⟩, h₂, t₂, h₃, ⟨index, il⟩, h₄, h⟩ := h
    obtain ⟨ds, hds, rfl, e₂⟩ := of_numeral? h₂
    obtain ⟨is, his, rfl, e₄⟩ := of_numeral? h₄
    rw [after?_eq_some] at h₁ h₃
    split at h
    · rename_i rest e₅
      simp only [Option.some.injEq] at h
      subst h
      refine ⟨opening ++ ds ++ middle ++ is ++ [')'], rest, ?_, ds, is, hds, his, rfl, ?_⟩
      · rw [h₁, e₂, h₃, e₄, e₅]
        simp
      · simp [Nat.add_assoc]
    · simp at h
  · rintro ⟨_, rest, rfl, ds, is, hds, his, rfl, hn⟩
    obtain ⟨⟨depth, index⟩, l⟩ := a
    simp only at hn hds his
    have e : opening ++ ds ++ middle ++ is ++ [')'] ++ rest =
        opening ++ (ds ++ (middle ++ (is ++ ')' :: rest))) := by simp
    have h₁ : after? opening (opening ++ (ds ++ (middle ++ (is ++ ')' :: rest)))) =
        some (ds ++ (middle ++ (is ++ ')' :: rest))) := after?_eq_some.mpr rfl
    have h₂ : numeral? (ds ++ (middle ++ (is ++ ')' :: rest))) = some (depth, ds.length) :=
      numeral?_append (r := "n:".toList ++ (is ++ ')' :: rest)) hds (by decide)
    have h₃ : after? middle (middle ++ (is ++ ')' :: rest)) = some (is ++ ')' :: rest) :=
      after?_eq_some.mpr rfl
    have h₄ : numeral? (is ++ ')' :: rest) = some (index, is.length) :=
      numeral?_append his (by decide)
    simp only [tail?, bind, e, h₁, h₂, h₃, h₄, Option.bind_some, List.drop_left]
    rw [hn]
    simp [Nat.add_assoc]

def renderTail (m : Marker) : Text :=
  opening ++ Text.decimal m.depth ++ middle ++ Text.decimal m.index ++ [')']

/-- A marker whose numbers fit is read back from its text, whatever follows. -/
theorem tail?_renderTail (hd : m.depth < wordLimit) (hi : m.index < wordLimit) (r : Text) :
    tail? (m.renderTail ++ r) = some (m, m.renderTail.length) :=
  (reads_tail.some_iff _ _).mpr
    ⟨m.renderTail, r, rfl, _, _, isNumeral_decimal hd, isNumeral_decimal hi, rfl, rfl⟩

theorem lt_of_tail? {a : Marker × Nat} (h : tail? t = some a) :
    a.1.depth < wordLimit ∧ a.1.index < wordLimit := by
  obtain ⟨_, _, _, _, _, hd, hi, _⟩ := (reads_tail.some_iff _ _).mp h
  exact ⟨hd.lt, hi.lt⟩

end Marker

end Splice
