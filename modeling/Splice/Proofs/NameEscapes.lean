import Splice.Proofs.Surveys

/-!
# Names and their escapes

A name is written character by character, each as it is or as an escape by its code
(`GroupName.Writes`). Decoding gives the name back from every text that writes it, so
that the name alone decides whether such a text names a group. It accepts no other text,
except that a plus sign may stand in front of the digits of an escape.
-/

namespace Splice

variable {c : Char} {name raw t : Text} {code n : Nat}

-- ---------------------------------------------------------------------------
-- Hexadecimal numerals
-- ---------------------------------------------------------------------------

namespace Text

variable {digits : Text}

def HexDigit (c : Char) (value : Nat) : Prop :=
  "0123456789abcdef".toList[value]? = some c ∨ "0123456789ABCDEF".toList[value]? = some c

instance (c : Char) (value : Nat) : Decidable (HexDigit c value) :=
  inferInstanceAs (Decidable (_ ∨ _))

/-- A hexadecimal numeral: a run of digits, the last of which counts least. -/
structure HexNumeral (digits : Text) (value : Nat) : Prop where
  ne_nil : digits ≠ []
  value_eq : ∃ values, List.Forall₂ HexDigit digits.reverse values ∧ Nat.ofDigits 16 values = value

def SignedNumeral (numeral : Text) (value : Nat) : Prop :=
  HexNumeral numeral value ∨ ∃ digits, numeral = '+' :: digits ∧ HexNumeral digits value

theorem hexDigit_of_eq_some (h : hexDigit? c = some n) : HexDigit c n := by
  have digit : ∀ k, 48 ≤ k → k ≤ 57 →
      "0123456789abcdef".toList[k - 48]? = some (Char.ofNat k) := by decide
  have lower : ∀ k, 97 ≤ k → k ≤ 102 →
      "0123456789abcdef".toList[k - 97 + 10]? = some (Char.ofNat k) := by decide
  have upper : ∀ k, 65 ≤ k → k ≤ 70 →
      "0123456789ABCDEF".toList[k - 65 + 10]? = some (Char.ofNat k) := by decide
  unfold hexDigit? at h
  split at h
  · rename_i hc
    simp only [Char.isDigit, Bool.and_eq_true, decide_eq_true_eq] at hc
    obtain rfl := Option.some.inj h
    exact .inl (by simpa using digit c.toNat hc.1 hc.2)
  · split at h
    · rename_i hc
      obtain rfl := Option.some.inj h
      exact .inl (by simpa using lower c.toNat hc.1 hc.2)
    · split at h
      · rename_i hc
        obtain rfl := Option.some.inj h
        exact .inr (by simpa using upper c.toNat hc.1 hc.2)
      · cases h

theorem HexDigit.eq_some (h : HexDigit c n) : hexDigit? c = some n := by
  have hread : ∀ k < 16, "0123456789abcdef".toList[k]?.bind hexDigit? = some k ∧
      "0123456789ABCDEF".toList[k]?.bind hexDigit? = some k := by decide
  obtain h | h := h
  · have hn : n < 16 := (List.getElem?_eq_some_iff.mp h).1
    have hv := (hread n hn).1
    rwa [h] at hv
  · have hn : n < 16 := (List.getElem?_eq_some_iff.mp h).1
    have hv := (hread n hn).2
    rwa [h] at hv

theorem hexDigit?_eq_some : hexDigit? c = some n ↔ HexDigit c n :=
  ⟨hexDigit_of_eq_some, HexDigit.eq_some⟩

theorem foldlM_hexDigit : digits.foldlM (fun n d => (hexDigit? d).map (16 * n + ·)) 0 = some n ↔
    ∃ values, List.Forall₂ HexDigit digits.reverse values ∧ Nat.ofDigits 16 values = n := by
  induction digits using List.reverseRecOn generalizing n with
  | nil =>
    simp [eq_comm]
  | append_singleton digits d ih =>
    rw [List.foldlM_append, List.reverse_append, List.reverse_singleton, List.singleton_append]
    simp only [List.foldlM_cons, List.foldlM_nil, Option.bind_eq_bind, Option.bind_eq_some_iff, ih]
    constructor
    · rintro ⟨m, ⟨values, hvalues, rfl⟩, k, hk, hn⟩
      obtain ⟨v, hv, rfl⟩ := Option.map_eq_some_iff.mp hk
      obtain rfl := Option.some.inj hn
      refine ⟨v :: values, .cons (hexDigit?_eq_some.mp hv) hvalues, ?_⟩
      rw [Nat.ofDigits_cons, Nat.add_comm]
    · rintro ⟨_, hvalues, rfl⟩
      cases hvalues with
      | cons hv hvalues =>
        refine ⟨_, ⟨_, hvalues, rfl⟩, _, Option.map_eq_some_iff.mpr
          ⟨_, hexDigit?_eq_some.mpr hv, rfl⟩, ?_⟩
        rw [Nat.ofDigits_cons, Nat.add_comm]
        rfl

theorem hexDigits?_eq_some : hexDigits? digits = some n ↔ HexNumeral digits n := by
  cases digits with
  | nil => exact ⟨fun h => (nomatch h), fun h => absurd rfl h.ne_nil⟩
  | cons d digits =>
    exact ⟨fun h => ⟨List.cons_ne_nil _ _, foldlM_hexDigit.mp h⟩,
      fun h => foldlM_hexDigit.mpr h.value_eq⟩

theorem HexNumeral.head (h : HexNumeral digits n) :
    ∃ d rest, digits = d :: rest ∧ d ≠ '+' ∧ d ≠ '{' := by
  cases digits with
  | nil => exact absurd rfl h.ne_nil
  | cons d digits =>
    have hhex := Source.isHexDigit_of_hexDigits (hexDigits?_eq_some.mpr h) d List.mem_cons_self
    refine ⟨d, digits, rfl, ?_, ?_⟩ <;> rintro rfl <;> exact absurd hhex (by decide)

theorem not_hexNumeral_plus : ¬ HexNumeral ('+' :: digits) n := by
  intro h
  obtain ⟨_, _, heq, hplus, -⟩ := h.head
  exact hplus (List.cons.inj heq).1.symm

theorem hexNumeral?_eq_some :
    hexNumeral? digits = some n ↔ n < wordLimit ∧ SignedNumeral digits n := by
  unfold hexNumeral?
  rw [Option.filter_eq_some_iff, decide_eq_true_iff, and_comm]
  refine and_congr_right fun _ => ?_
  split
  · rename_i rest
    constructor
    · intro h
      exact .inr ⟨rest, rfl, hexDigits?_eq_some.mp h⟩
    · rintro (h | ⟨_, heq, h⟩)
      · exact absurd h not_hexNumeral_plus
      · obtain rfl := (List.cons.inj heq).2
        exact hexDigits?_eq_some.mpr h
  · rename_i hplus
    rw [hexDigits?_eq_some]
    exact ⟨.inl, fun h => h.resolve_right fun ⟨_, heq, _⟩ => hplus _ heq⟩

theorem scalar?_eq_some : scalar? code = some c ↔ code = c.toNat := by
  unfold scalar?
  constructor
  · intro h
    split at h
    · rename_i hvalid
      obtain rfl := Option.some.inj h
      rw [Char.toNat_ofNat, if_pos hvalid]
    · cases h
  · rintro rfl
    rw [if_pos (show c.toNat.isValidChar from c.valid), Char.ofNat_toNat]

end Text

-- ---------------------------------------------------------------------------
-- Names with escapes
-- ---------------------------------------------------------------------------

theorem Identifier.isIdentifier_iff {edition : Identifier.Edition} :
    isIdentifier edition name ↔ ∃ first rest, name = first :: rest ∧
      isStart edition first ∧ ∀ c ∈ rest, isContinue edition c := by
  cases name with
  | nil => simp [isIdentifier]
  | cons first rest => simp [isIdentifier]

namespace GroupName

open Text (HexNumeral SignedNumeral)

variable {numeral stricter : Text → Nat → Prop} {body : Text}

/-- What may stand behind `\u` for a character: a numeral of its code, in four
characters or in braces. -/
inductive Names (numeral : Text → Nat → Prop) (c : Char) : Text → Prop
  | quad {digits : Text} (length_eq : digits.length = 4) (code : numeral digits c.toNat) :
    Names numeral c digits
  | braced {digits : Text} (code : numeral digits c.toNat) :
    Names numeral c ('{' :: (digits ++ ['}']))

/-- A name and a text that writes it. Each character is written as it is, unless it is a
backslash, or as an escape. -/
inductive Writes (numeral : Text → Nat → Prop) : Text → Text → Prop
  | nil : Writes numeral [] []
  | plain {c : Char} {name t : Text} (hc : c ≠ '\\') (rest : Writes numeral name t) :
    Writes numeral (c :: name) (c :: t)
  | escape {c : Char} {name body t : Text} (first : Names numeral c body)
    (rest : Writes numeral name t) : Writes numeral (c :: name) ('\\' :: 'u' :: (body ++ t))

theorem Names.mono (h : ∀ digits n, stricter digits n → numeral digits n)
    (hb : Names stricter c body) : Names numeral c body := by
  cases hb with
  | quad length_eq code => exact .quad length_eq (h _ _ code)
  | braced code => exact .braced (h _ _ code)

theorem Writes.mono (h : ∀ digits n, stricter digits n → numeral digits n)
    (hw : Writes stricter name t) : Writes numeral name t := by
  induction hw with
  | nil => exact .nil
  | plain hc _ ih => exact .plain hc ih
  | escape first _ ih => exact .escape (first.mono h) ih

-- ---------------------------------------------------------------------------
-- Reading an escape
-- ---------------------------------------------------------------------------

theorem not_delimiter_of_signed {digits : Text} (h : SignedNumeral digits n) :
    ∀ x ∈ digits, x ∉ ['\\', '{', '}'] := by
  have hex : ∀ {digits}, HexNumeral digits n → ∀ x ∈ digits, x ∉ ['\\', '{', '}'] := by
    intro digits h x hx hm
    have hhex := Source.isHexDigit_of_hexDigits (Text.hexDigits?_eq_some.mpr h) x hx
    have hnone : ∀ x ∈ ['\\', '{', '}'], Text.isHexDigit x = false :=
      Lexer.forall_mem_of_all (by decide)
    rw [hnone x hm] at hhex
    cases hhex
  obtain h | ⟨digits, rfl, h⟩ := h
  · exact hex h
  · exact List.forall_mem_cons.mpr ⟨by decide, hex h⟩

theorem numeral?_eq_some {numeral : Text} (h : ∀ x ∈ numeral, x ∉ ['\\', '{', '}']) :
    UnicodeEscape.numeral? t = some (numeral, n) ↔
      ∃ rest, (numeral.length = 4 ∧ n = 4 ∧ t = numeral ++ rest) ∨
        (n = numeral.length + 2 ∧ t = '{' :: (numeral ++ '}' :: rest)) := by
  constructor
  · intro ht
    unfold UnicodeEscape.numeral? at ht
    split at ht
    · simp only at ht
      split at ht
      · rename_i hlength
        obtain ⟨rfl, rfl⟩ := Prod.mk.inj (Option.some.inj ht)
        obtain ⟨stop, rest, hbody, hstop⟩ := Source.exists_stop hlength
        obtain rfl : stop = '}' := by simpa using hstop
        exact ⟨rest, .inr ⟨rfl, congrArg ('{' :: ·) hbody⟩⟩
      · cases ht
    · split at ht
      · rename_i hlength
        obtain ⟨rfl, rfl⟩ := Prod.mk.inj (Option.some.inj ht)
        exact ⟨t.drop 4, .inl ⟨by simp [hlength], rfl, (List.take_append_drop 4 t).symm⟩⟩
      · cases ht
  · rintro ⟨rest, ⟨hfour, rfl, rfl⟩ | ⟨rfl, rfl⟩⟩
    · unfold UnicodeEscape.numeral?
      split
      · rename_i body hbody
        -- A numeral does not begin with the brace that would open another form.
        cases numeral with
        | nil => simp at hfour
        | cons x numeral =>
          obtain rfl : x = '{' := (List.cons.inj hbody).1
          exact absurd (h _ List.mem_cons_self) (by decide)
      · rw [if_pos (by rw [List.length_append]; omega), ← hfour, List.take_left]
    · have hrun : (numeral ++ '}' :: rest).takeWhile (· != '}') = numeral :=
        Lexer.takeWhile_append_cons
          (fun x hx => bne_iff_ne.mpr fun heq => h x hx (by simp [heq])) rfl
      simp [UnicodeEscape.numeral?, hrun]

theorem char?_numeral : UnicodeEscape.char? t = some (c, n) ↔
    ∃ numeral, UnicodeEscape.numeral? t = some (numeral, n) ∧ SignedNumeral numeral c.toNat := by
  constructor
  · intro h
    obtain ⟨code, hcode, hscalar⟩ := code_of_char h
    obtain rfl := Text.scalar?_eq_some.mp hscalar
    obtain ⟨⟨numeral, length⟩, hnumeral, hcode⟩ := Option.bind_eq_some_iff.mp hcode
    obtain ⟨code, hhex, hcode⟩ := Option.bind_eq_some_iff.mp hcode
    obtain ⟨rfl, rfl⟩ := Prod.mk.inj (Option.some.inj hcode)
    exact ⟨numeral, hnumeral, (Text.hexNumeral?_eq_some.mp hhex).2⟩
  · rintro ⟨numeral, hnumeral, hcode⟩
    have hhex : Text.hexNumeral? numeral = some c.toNat :=
      Text.hexNumeral?_eq_some.mpr ⟨c.val.toNat_lt, hcode⟩
    have hscalar : Text.scalar? c.toNat = some c := Text.scalar?_eq_some.mpr rfl
    simp [UnicodeEscape.char?, UnicodeEscape.code?, hnumeral, hhex, hscalar]

theorem char?_eq_some : UnicodeEscape.char? t = some (c, n) ↔
    ∃ body rest, t = body ++ rest ∧ body.length = n ∧ Names SignedNumeral c body := by
  rw [char?_numeral]
  constructor
  · rintro ⟨numeral, hnumeral, hcode⟩
    obtain ⟨rest, ⟨hfour, rfl, rfl⟩ | ⟨rfl, rfl⟩⟩ :=
      (numeral?_eq_some (not_delimiter_of_signed hcode)).mp hnumeral
    · exact ⟨numeral, rest, rfl, hfour, .quad hfour hcode⟩
    · exact ⟨'{' :: (numeral ++ ['}']), rest, by simp, by simp, .braced hcode⟩
  · rintro ⟨body, rest, rfl, rfl, hbody⟩
    cases hbody with
    | quad hfour hcode =>
      exact ⟨body, (numeral?_eq_some (not_delimiter_of_signed hcode)).mpr
        ⟨rest, .inl ⟨hfour, hfour, rfl⟩⟩, hcode⟩
    | @braced numeral hcode =>
      exact ⟨numeral, (numeral?_eq_some (not_delimiter_of_signed hcode)).mpr
        ⟨rest, .inr ⟨by simp, by simp⟩⟩, hcode⟩

-- ---------------------------------------------------------------------------
-- Reading a name
-- ---------------------------------------------------------------------------

theorem unescape_plain (hc : c ≠ '\\') : unescape (c :: t) = (unescape t).map (c :: ·) := by
  rw [unescape]
  · exact if_neg hc
  · rintro _ rfl
    exact absurd rfl hc

theorem unescape_escape (h : Names SignedNumeral c body) :
    unescape ('\\' :: 'u' :: (body ++ t)) = (unescape t).map (c :: ·) := by
  have hchar : UnicodeEscape.char? (body ++ t) = some (c, body.length) :=
    char?_eq_some.mpr ⟨body, t, rfl, rfl, h⟩
  rw [unescape, hchar]
  simp only [List.drop_left]

/-- Decoding accepts exactly what writes a name, if a plus sign may stand in front of
the digits of an escape. -/
theorem unescape_eq_some : unescape raw = some name ↔ Writes SignedNumeral name raw := by
  constructor
  · intro h
    fun_induction unescape raw generalizing name with
    | case1 =>
      obtain rfl := Option.some.inj h
      exact .nil
    | case2 t c length hchar ih =>
      obtain ⟨name, hname, rfl⟩ := Option.map_eq_some_iff.mp h
      obtain ⟨body, rest, rfl, rfl, hbody⟩ := char?_eq_some.mp hchar
      rw [List.drop_left] at ih hname
      exact .escape hbody (ih hname)
    -- A backslash that begins no escape is refused.
    | case3 => cases h
    | case4 => cases h
    | case5 c t _ hc ih =>
      obtain ⟨name, hname, rfl⟩ := Option.map_eq_some_iff.mp h
      exact .plain hc (ih hname)
  · intro h
    induction h with
    | nil => rw [unescape]
    | plain hc _ ih => rw [unescape_plain hc, ih, Option.map_some]
    | escape hbody _ ih => rw [unescape_escape hbody, ih, Option.map_some]

example : unescape "\\u\x7b+61\x7d".toList = some ['a'] := by cbv

theorem Writes.decoded (h : Writes HexNumeral name raw) : unescape raw = some name :=
  unescape_eq_some.mpr (h.mono fun _ _ => .inl)

/-- A name is decoded from every text that writes it, and whether such a text names a
group is a matter of the name alone. -/
theorem unescape_of_writes (h : Writes HexNumeral name raw) :
    unescape raw = some name ∧
    (isValid raw ↔ ∃ first rest, name = first :: rest ∧
      Identifier.isStart .unicode16 first ∧ ∀ c ∈ rest, Identifier.isContinue .unicode16 c) ∧
    ∀ other, Writes HexNumeral name other → isValid other = isValid raw := by
  have valid : ∀ {raw}, Writes HexNumeral name raw →
      isValid raw = Identifier.isIdentifier .unicode16 name := by
    intro raw h
    rw [isValid, h.decoded]
    rfl
  refine ⟨h.decoded, ?_, fun other hother => (valid hother).trans (valid h).symm⟩
  rw [valid h]
  exact Identifier.isIdentifier_iff

theorem unescape_of_writes_mixed :
    let name := "π_𝒳".toList
    let raw := "\\u03C0_\\u\x7b01d4B3\x7d".toList
    Writes HexNumeral name raw ∧ Writes HexNumeral name name ∧
      unescape raw = some name ∧ isValid raw ∧ isValid name = isValid raw := by
  intro name raw
  have hpi : HexNumeral "03C0".toList 'π'.toNat := ⟨by decide, [0, 12, 3, 0], by decide, by decide⟩
  have hx : HexNumeral "01d4B3".toList '𝒳'.toNat :=
    ⟨by decide, [3, 11, 4, 13, 1, 0], by decide, by decide⟩
  have hraw : Writes HexNumeral name raw :=
    .escape (.quad rfl hpi) (.plain (by decide) (.escape (.braced hx) .nil))
  have hname : Writes HexNumeral name name :=
    .plain (by decide) (.plain (by decide) (.plain (by decide) .nil))
  obtain ⟨hdecoded, hvalid, hsame⟩ := unescape_of_writes hraw
  exact ⟨hraw, hname, hdecoded, hvalid.mpr ⟨'π', "_𝒳".toList, rfl, by decide +kernel,
    Lexer.forall_mem_of_all (by decide +kernel)⟩, hsame name hname⟩

-- ---------------------------------------------------------------------------
-- Plus signs
-- ---------------------------------------------------------------------------

/-- A plus sign stands where the digits of an escape should begin. -/
def HasSign (raw : Text) : Prop := "\\u+".toList <:+: raw ∨ "\\u\x7b+".toList <:+: raw

theorem hasSign_cons : HasSign (c :: t) ↔
    "\\u+".toList <+: c :: t ∨ "\\u\x7b+".toList <+: c :: t ∨ HasSign t := by
  rw [HasSign, HasSign, List.infix_cons_iff, List.infix_cons_iff]
  tauto

theorem hasSign_plain (hc : c ≠ '\\') : HasSign (c :: t) ↔ HasSign t := by
  have hno : ∀ rest, ¬ '\\' :: rest <+: c :: t :=
    fun rest hrest => hc (List.cons_prefix_cons.mp hrest).1.symm
  rw [hasSign_cons]
  exact ⟨fun hs => (hs.resolve_left (hno _)).resolve_left (hno _), fun hs => .inr (.inr hs)⟩

theorem hasSign_append (h : '\\' ∉ body) : HasSign (body ++ t) ↔ HasSign t := by
  induction body with
  | nil => rfl
  | cons x body ih =>
    rw [List.mem_cons, not_or] at h
    rw [List.cons_append, hasSign_plain (Ne.symm h.1), ih h.2]

theorem Names.not_backslash (h : Names SignedNumeral c body) : '\\' ∉ body := by
  have hnumeral : ∀ {digits}, SignedNumeral digits c.toNat → '\\' ∉ digits :=
    fun hcode hm => not_delimiter_of_signed hcode _ hm List.mem_cons_self
  cases h with
  | quad _ hcode => exact hnumeral hcode
  | braced hcode => simpa using hnumeral hcode

theorem Names.not_plus_prefix (h : Names HexNumeral c body) (t : Text) :
    ¬ ['+'] <+: body ++ t ∧ ¬ ['{', '+'] <+: body ++ t := by
  cases h with
  | quad _ hcode =>
    obtain ⟨x, digits, rfl, hplus, hbrace⟩ := hcode.head
    simp [hplus.symm, hbrace.symm]
  | braced hcode =>
    obtain ⟨x, digits, rfl, hplus, -⟩ := hcode.head
    simp [hplus.symm]

theorem Names.plus_prefix (h : Names SignedNumeral c body) (hunsigned : ¬ Names HexNumeral c body)
    (t : Text) : ['+'] <+: body ++ t ∨ ['{', '+'] <+: body ++ t := by
  cases h with
  | quad hfour hcode =>
    obtain hcode | ⟨digits, rfl, -⟩ := hcode
    · exact absurd (.quad hfour hcode) hunsigned
    · exact .inl (by simp)
  | braced hcode =>
    obtain hcode | ⟨digits, rfl, -⟩ := hcode
    · exact absurd (.braced hcode) hunsigned
    · exact .inr (by simp)

theorem Names.hasSign_iff (h : Names SignedNumeral c body) :
    HasSign ('\\' :: 'u' :: (body ++ t)) ↔ ¬ Names HexNumeral c body ∨ HasSign t := by
  have hbody : '\\' ∉ 'u' :: body := by simpa using h.not_backslash
  have hrest : HasSign ('u' :: (body ++ t)) ↔ HasSign t := hasSign_append hbody
  have hsign : "\\u+".toList <+: '\\' :: 'u' :: (body ++ t) ∨
      "\\u\x7b+".toList <+: '\\' :: 'u' :: (body ++ t) ↔ ¬ Names HexNumeral c body := by
    change ['\\', 'u', '+'] <+: _ ∨ ['\\', 'u', '{', '+'] <+: _ ↔ _
    simp only [List.cons_prefix_cons, true_and]
    exact ⟨fun hs hu => hs.elim (hu.not_plus_prefix t).1 (hu.not_plus_prefix t).2,
      fun hn => h.plus_prefix hn t⟩
  rw [hasSign_cons, hrest, ← or_assoc, hsign]

theorem Writes.not_hasSign (h : Writes HexNumeral name raw) : ¬ HasSign raw := by
  induction h with
  | nil => simp [HasSign]
  | plain hc _ ih => rwa [hasSign_plain hc]
  | escape first _ ih =>
    have hsigned : Names SignedNumeral _ _ := first.mono fun _ _ => .inl
    rw [hsigned.hasSign_iff, not_or, not_not]
    exact ⟨first, ih⟩

theorem Writes.unsigned (h : Writes SignedNumeral name raw) (hs : ¬ HasSign raw) :
    Writes HexNumeral name raw := by
  induction h with
  | nil => exact .nil
  | plain hc _ ih => exact .plain hc (ih (mt (hasSign_plain hc).mpr hs))
  | escape first _ ih =>
    rw [first.hasSign_iff, not_or, not_not] at hs
    exact .escape hs.1 (ih hs.2)

/-- What is decoded writes the name that it gives. Each of its backslashes begins an
escape, by a code in four hexadecimal digits or by one between braces, and the name has the
character of that code in the place of the escape. Nothing else is decoded, unless there
is a plus sign in front of the digits of an escape. -/
theorem unescape_writes_iff (raw name : Text) :
    (unescape raw = some name ∧ ¬ HasSign raw ↔ Writes HexNumeral name raw) ∧
    (unescape raw = some name ↔ Writes SignedNumeral name raw) := by
  refine ⟨⟨?_, ?_⟩, unescape_eq_some⟩
  · rintro ⟨h, hsign⟩
    exact (unescape_eq_some.mp h).unsigned hsign
  · intro h
    exact ⟨h.decoded, h.not_hasSign⟩

end GroupName

end Splice
