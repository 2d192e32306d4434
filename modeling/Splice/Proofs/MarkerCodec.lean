import Splice.Proofs.Tiling

/-!
# Markers are read as they are written

A marker may have leading zeros, and has nothing else that its numbers do not
determine. So what is read back from a marker writes the same text again, up to
leading zeros, and the lexer takes exactly that text as one token, whatever
stands behind it.
-/

namespace Splice

open Lexer

variable {t digits : Text} {m : Marker} {n : Nat}

-- ---------------------------------------------------------------------------
-- Leading zeros
-- ---------------------------------------------------------------------------

namespace Text

theorem digitsValue_concat (digits : Text) (c : Char) :
    digitsValue (digits ++ [c]) = 10 * digitsValue digits + Lexer.digit c := by
  simp [digitsValue, Lexer.digit]

theorem digitsValue_zeros (k : Nat) (digits : Text) :
    digitsValue (List.replicate k '0' ++ digits) = digitsValue digits := by
  induction k with
  | zero => rfl
  | succ k ih => exact ih

theorem exists_zeros (hne : digits ≠ []) (hd : ∀ c ∈ digits, c.isDigit) :
    ∃ k, digits = List.replicate k '0' ++ decimal (digitsValue digits) := by
  induction digits using List.reverseRecOn with
  | nil => exact absurd rfl hne
  | append_singleton digits c ih =>
    have hc : c.isDigit := hd c (by simp)
    rw [digitsValue_concat]
    by_cases hfirst : digits = []
    · subst hfirst
      refine ⟨0, ?_⟩
      simpa [digitsValue] using (decimal_digit hc).symm
    · obtain ⟨k, hk⟩ := ih hfirst fun x hx => hd x (by simp [hx])
      rcases Nat.eq_zero_or_pos (digitsValue digits) with hzero | hpos
      · -- All digits so far are zeros, which the new one leaves behind it.
        refine ⟨k + 1, ?_⟩
        rw [hzero] at hk ⊢
        rw [Nat.mul_zero, Nat.zero_add, decimal_digit hc, hk, List.replicate_succ']
        rfl
      · refine ⟨k, ?_⟩
        rw [decimal_concat hpos hc, ← List.append_assoc, ← hk]

end Text

namespace Marker

theorem isNumeral_iff : IsNumeral digits n ↔
    n < wordLimit ∧ ∃ k, digits = List.replicate k '0' ++ Text.decimal n := by
  constructor
  · intro h
    have hzeros := Text.exists_zeros h.ne_nil h.isDigit
    rw [h.value_eq] at hzeros
    exact ⟨h.lt, hzeros⟩
  · rintro ⟨hlt, k, rfl⟩
    have hn := isNumeral_decimal hlt
    refine ⟨by simp [hn.ne_nil], ?_, (Text.digitsValue_zeros k _).trans hn.value_eq, hlt⟩
    intro c hc
    rcases List.mem_append.mp hc with hc | hc
    · rw [List.eq_of_mem_replicate hc]
      rfl
    · exact hn.isDigit c hc

-- ---------------------------------------------------------------------------
-- Markers as texts
-- ---------------------------------------------------------------------------

def padded (j k : Nat) (m : Marker) : Text :=
  '(' :: opening ++ (List.replicate j '0' ++ Text.decimal m.depth) ++ middle ++
    (List.replicate k '0' ++ Text.decimal m.index) ++ [')']

theorem padded_zero (m : Marker) : m.padded 0 0 = m.render := rfl

theorem parse?_cons (t : Text) : parse? ('(' :: t) = some m ↔ Tail (m, t.length) t := by
  constructor
  · intro h
    simp only [parse?] at h
    split at h
    · rename_i marker length htail
      simp only [Option.ite_none_right_eq_some, Option.some.injEq] at h
      obtain ⟨rfl, rfl⟩ := h
      obtain ⟨body, rest, hsplit, hbody⟩ := (reads_tail.some_iff _ _).mp htail
      have hlength := reads_tail.length_eq _ _ hbody
      obtain rfl : rest = [] := by
        have hsum := congrArg List.length hsplit
        rw [List.length_append, hlength] at hsum
        exact List.eq_nil_of_length_eq_zero (by omega)
      obtain rfl : t = body := hsplit.trans (List.append_nil body)
      exact hbody
    · cases h
  · intro h
    have htail := (reads_tail.some_iff t _).mpr ⟨t, [], (List.append_nil t).symm, h⟩
    simp [parse?, htail]

theorem parse?_eq_some : parse? t = some m ↔ ∃ depth index,
    IsNumeral depth m.depth ∧ IsNumeral index m.index ∧
      t = "(?:$ ^d:".toList ++ depth ++ ",n:".toList ++ index ++ [')'] := by
  constructor
  · intro h
    obtain ⟨body, rfl⟩ : ∃ body, t = '(' :: body := by
      unfold parse? at h
      split at h
      · exact ⟨_, rfl⟩
      · cases h
    obtain ⟨depth, index, hdepth, hindex, hbody, -⟩ := (parse?_cons body).mp h
    exact ⟨depth, index, hdepth, hindex, congrArg ('(' :: ·) hbody⟩
  · rintro ⟨depth, index, hdepth, hindex, rfl⟩
    exact (parse?_cons _).mpr ⟨depth, index, hdepth, hindex, rfl, rfl⟩

theorem parse?_eq_some_padded : parse? t = some m ↔
    m.depth < wordLimit ∧ m.index < wordLimit ∧ ∃ j k, t = m.padded j k := by
  rw [parse?_eq_some]
  constructor
  · rintro ⟨depth, index, hdepth, hindex, rfl⟩
    obtain ⟨hd, j, rfl⟩ := isNumeral_iff.mp hdepth
    obtain ⟨hi, k, rfl⟩ := isNumeral_iff.mp hindex
    exact ⟨hd, hi, j, k, rfl⟩
  · rintro ⟨hd, hi, j, k, rfl⟩
    exact ⟨_, _, isNumeral_iff.mpr ⟨hd, j, rfl⟩, isNumeral_iff.mpr ⟨hi, k, rfl⟩, rfl⟩

theorem lex_of_parse? (h : parse? t = some m) (r : Text) :
    lex (t ++ r) = ⟨.groupOpen (.deferred m), t, .pattern⟩ :: lex r := by
  obtain ⟨body, rfl⟩ : ∃ body, t = '(' :: body := by
    obtain ⟨depth, index, -, -, rfl⟩ := parse?_eq_some.mp h
    exact ⟨_, rfl⟩
  have htail : tail? (body ++ r) = some (m, body.length) :=
    (reads_tail.some_iff _ _).mpr ⟨body, r, rfl, (parse?_cons body).mp h⟩
  have hscan : scan .pattern '(' (body ++ r) = (.groupOpen (.deferred m), body.length) := by
    rw [scan_group]
    simp [scanGroup, htail]
  rw [lex, List.cons_append, lexFrom_cons, hscan, List.take_left, List.drop_left]
  rfl

/-- A marker whose numbers fit is read back from its text, and is one token of any text
that starts with it. The texts that are read as a marker are those of its form, which are
what writes it, up to leading zeros. -/
theorem codec_exact :
    (∀ m : Marker, m.depth < wordLimit → m.index < wordLimit →
      parse? m.render = some m ∧
      ∀ r, lex (m.render ++ r) = ⟨.groupOpen (.deferred m), m.render, .pattern⟩ :: lex r ∧
        Token.spans (lex (m.render ++ r)) =
          (⟨.groupOpen (.deferred m), m.render, .pattern⟩, 0, Text.byteSize m.render) ::
            (Token.spans (lex r)).map (Token.spanBehind (Text.byteSize m.render))) ∧
    (∀ t m, parse? t = some m ↔ ∃ depth index,
      IsNumeral depth m.depth ∧ IsNumeral index m.index ∧
        t = "(?:$ ^d:".toList ++ depth ++ ",n:".toList ++ index ++ [')']) ∧
    ∀ t m, parse? t = some m ↔
      m.depth < wordLimit ∧ m.index < wordLimit ∧ ∃ j k, t = m.padded j k := by
  refine ⟨?_, fun _ _ => parse?_eq_some, fun _ _ => parse?_eq_some_padded⟩
  intro m hd hi
  have hparse : parse? m.render = some m :=
    parse?_eq_some_padded.mpr ⟨hd, hi, 0, 0, (padded_zero m).symm⟩
  refine ⟨hparse, fun r => ?_⟩
  have hlex := lex_of_parse? hparse r
  refine ⟨hlex, ?_⟩
  rw [hlex, Token.spans_cons]

theorem codec_exact_largest :
    let m : Marker := ⟨0, 4294967295⟩
    m.depth < wordLimit ∧ m.index < wordLimit ∧ parse? m.render = some m ∧
      parse? "(?:$ ^d:00,n:4294967295)".toList = some m ∧
      parse? "(?:$ ^d:0,n:4294967296)".toList ≠ some ⟨0, 4294967296⟩ := by
  intro m
  have hd : m.depth < wordLimit := by decide
  have hi : m.index < wordLimit := by decide
  obtain ⟨hrender, -, hpadded⟩ := codec_exact
  refine ⟨hd, hi, (hrender m hd hi).1, (hpadded _ m).mpr ⟨hd, hi, 1, 0, by decide⟩, ?_⟩
  intro hlarge
  obtain ⟨-, hlt, -⟩ := (hpadded _ _).mp hlarge
  exact absurd hlt (by decide)

end Marker

end Splice
