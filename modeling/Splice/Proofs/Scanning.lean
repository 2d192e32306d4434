import Splice.Proofs.MarkerText

/-!
# What a token depends on

The kind and the length of a token are decided by its own characters, except
where the text behind it completes a longer construct. `scan_append` says what
can be completed when text is added at the end, and `scan_keep` that changing
the text behind a token changes nothing as long as the new text begins with a
character that no construct takes.
-/

namespace Splice

/-- Escapes that say nothing about groups and references. -/
def Escape.isPlain : Escape → Bool
  | .backReference _ => false
  | .char c => c != 'k'
  | _ => true

/-- Tokens that say nothing about groups, classes and references. -/
def TokenKind.isPlain : TokenKind → Bool
  | .escape e => e.isPlain
  | .dot | .caret | .dollar | .dash | .star | .plus | .question | .char => true
  | .braceOpen _ | .braceClose | .classOpen .emptyNegated => true
  | _ => false

/-- Tokens that lack nothing: neither a lone backslash, nor a reference by name
without the name, nor the opener of a named group whose name has no end. -/
def Token.isWhole (t : Token) : Bool :=
  match t.kind with
  | .garbage => false
  | .escape (.char c) => c != 'k'
  | .groupOpen .named => t.text.getLast? == some '>'
  | _ => true

namespace Lexer

variable {c d : Char} {t u y : Text} {n : Nat}

-- ---------------------------------------------------------------------------
-- Soft characters
-- ---------------------------------------------------------------------------

theorem isSoft_of_isAlphanum (h : c.isAlphanum) : isSoft c := by simp [isSoft, h]

theorem isSoft_of_isDigit (h : c.isDigit) : isSoft c :=
  isSoft_of_isAlphanum (by simp [Char.isAlphanum, h])

theorem isSoft_of_isAlpha (h : c.isAlpha) : isSoft c :=
  isSoft_of_isAlphanum (by simp [Char.isAlphanum, h])

theorem isSoft_of_isHexDigit (h : Text.isHexDigit c) : isSoft c := by
  apply isSoft_of_isAlphanum
  unfold Text.isHexDigit Text.hexDigit? at h
  split at h
  · rename_i hd
    simp [Char.isAlphanum, hd]
  · split at h
    · rename_i hr
      have : c.isLower := by
        simp only [Char.isLower, Bool.and_eq_true, decide_eq_true_eq]
        exact ⟨hr.1, Nat.le_trans hr.2 (by decide)⟩
      simp [Char.isAlphanum, Char.isAlpha, this]
    · split at h
      · rename_i hr
        have : c.isUpper := by
          simp only [Char.isUpper, decide_eq_true_eq]
          exact ⟨hr.1, Nat.le_trans hr.2 (by decide)⟩
        simp [Char.isAlphanum, Char.isAlpha, this]
      · simp at h

theorem isDigit_of_isOctalDigit (h : Text.isOctalDigit c) : c.isDigit := by
  simp only [Text.isOctalDigit, Bool.and_eq_true, decide_eq_true_eq] at h
  simp only [Char.isDigit, Bool.and_eq_true, decide_eq_true_eq]
  exact ⟨h.1, Nat.le_trans h.2 (by decide)⟩

theorem isSoft_of_isOctalDigit (h : Text.isOctalDigit c) : isSoft c :=
  isSoft_of_isDigit (isDigit_of_isOctalDigit h)

theorem braced_soft {allowed : Char → Bool} (ha : ∀ c, allowed c → isSoft c) (n : Nat)
    (body : Text) (h : Braced allowed n body) : ∀ c ∈ body, isSoft c := by
  obtain ⟨inside, -, hin, rfl, -⟩ := h
  intro c hc
  simp only [List.cons_append, List.mem_cons, List.mem_append, List.not_mem_nil, or_false] at hc
  rcases hc with rfl | hc | rfl
  · decide
  · exact ha c (hin c hc)
  · decide

def isPropertyChar (c : Char) : Bool := c.isAlphanum || c == '_' || c == '='

theorem reads_property : Reads propertyLength? id (Braced isPropertyChar) :=
  reads_braced (by decide)

theorem property_soft (n : Nat) (body : Text) (h : Braced isPropertyChar n body) :
    ∀ c ∈ body, isSoft c := by
  refine braced_soft (fun c hc => ?_) n body h
  simp only [isPropertyChar, Bool.or_eq_true] at hc
  simp only [isSoft, Bool.or_eq_true]
  exact .inl (.inl (.inl hc))

theorem bounds_soft (n : Nat) (body : Text) (h : Bounds n body) : ∀ c ∈ body, isSoft c := by
  obtain ⟨least, -, hl, -, rfl | ⟨most, hm, rfl⟩⟩ := h
  · intro c hc
    simp only [List.mem_append, List.mem_singleton] at hc
    rcases hc with hc | rfl
    · exact isSoft_of_isDigit (hl c hc)
    · decide
  · intro c hc
    simp only [List.mem_append, List.mem_cons, List.not_mem_nil, or_false] at hc
    rcases hc with (hc | rfl | hc) | rfl
    · exact isSoft_of_isDigit (hl c hc)
    · decide
    · exact isSoft_of_isDigit (hm c hc)
    · decide

-- ---------------------------------------------------------------------------
-- Escapes in a longer text
-- ---------------------------------------------------------------------------

/-- The escape `e`, read behind its first character from `u`, becomes `e'` once
`y` is added, and takes `n` characters. -/
inductive Grows (e e' : Escape) (u y : Text) (n : Nat) : Prop
  | plain (old : e.isPlain) (new : e'.isPlain) (taken : Absorbs u y n)
  | reference (i j : Nat) (old : e = .backReference i) (new : e' = .backReference j)
      (alone : u = []) (one : n = 1) (digit : y.head?.any Char.isDigit)

/-- Text added behind an escape leaves it alone or makes it grow. -/
def StaysOrGrows (read : Text → Escape × Nat) (u y : Text) : Prop :=
  read (u ++ y) = read u ∨
    ∃ n, (read (u ++ y)).2 = n + 1 ∧ Grows (read u).1 (read (u ++ y)).1 u y n

theorem startsWithHex_append (k : Nat) (u y : Text) :
    startsWithHex k (u ++ y) = startsWithHex k u ∨
      startsWithHex k u = false ∧ startsWithHex k (u ++ y) = true ∧ Absorbs u y k := by
  by_cases hk : k ≤ u.length
  · left
    have hk' : k ≤ (u ++ y).length := by simp; omega
    simp [startsWithHex, hk, List.take_append_of_le_length hk, Nat.le_add_right_of_le hk]
  · have hu : startsWithHex k u = false := by simp [startsWithHex, hk]
    cases h : startsWithHex k (u ++ y) with
    | false => exact .inl hu.symm
    | true =>
      simp only [startsWithHex, Bool.and_eq_true, decide_eq_true_eq, List.length_append,
        List.all_eq_true] at h
      rw [List.take_append, List.take_of_length_le (by omega)] at h
      refine .inr ⟨hu, rfl, k - u.length, by omega, by omega, .inl (by omega), ?_, ?_⟩
      · exact fun c hc => isSoft_of_isHexDigit (h.2 c (List.mem_append_left _ hc))
      · exact fun c hc => isSoft_of_isHexDigit (h.2 c (List.mem_append_right _ hc))

theorem scanZero_append (u y : Text) : StaysOrGrows scanZero u y := by
  unfold StaysOrGrows
  have plain : ∀ t, (scanZero t).1.isPlain := by
    intro t
    simp only [scanZero]
    split <;> rfl
  match u with
  | a :: b :: u => left; simp [scanZero]
  | [a] =>
    by_cases ha : Text.isOctalDigit a
    · cases y with
      | nil => left; rfl
      | cons b y =>
        by_cases hb : Text.isOctalDigit b
        · refine .inr ⟨2, by simp [scanZero, ha, hb], .plain (plain _) (plain _)
            ⟨1, rfl, by simp, .inl (by simp), ?_, ?_⟩⟩
          · simpa using isSoft_of_isOctalDigit ha
          · simpa using isSoft_of_isOctalDigit hb
        · left; simp [scanZero, ha, hb]
    · left; cases y <;> simp [scanZero, ha]
  | [] =>
    rw [List.nil_append]
    have taken : ∀ n, n ≤ y.length → (0 < n ∨ y.head?.any Char.isDigit) →
        (∀ c ∈ y.take n, Text.isOctalDigit c) → Absorbs [] y n := fun n hn hm hc =>
      ⟨n, by simp, hn, hm, by simp, fun c h => isSoft_of_isOctalDigit (hc c h)⟩
    by_cases h0 : (y.take 2).takeWhile Text.isOctalDigit = []
    · by_cases hd : y.head?.any Char.isDigit
      · refine .inr ⟨0, by simp [scanZero, h0, hd], .plain (plain _) (plain _)
          (taken 0 (by simp) (.inr hd) (by simp))⟩
      · left
        simp [scanZero, h0, hd]
    · have hp := List.takeWhile_prefix (l := y.take 2) Text.isOctalDigit
      have ht : (y.take 2).takeWhile Text.isOctalDigit =
          y.take ((y.take 2).takeWhile Text.isOctalDigit).length := by
        have h1 := List.prefix_iff_eq_take.mp (hp.trans (List.take_prefix 2 y))
        exact h1
      refine .inr ⟨((y.take 2).takeWhile Text.isOctalDigit).length, by simp [scanZero, h0],
        .plain (plain _) (plain _) (taken _ ?_ (.inl (List.length_pos_iff.mpr h0)) ?_)⟩
      · exact (hp.trans (List.take_prefix 2 y)).length_le
      · rw [← ht]
        exact all_takeWhile

theorem scanReference_append (c : Char) (u y : Text) :
    StaysOrGrows (scanReference c) u y := by
  unfold StaysOrGrows
  match u, y with
  | a :: u, _ => left; simp [scanReference]
  | [], [] => left; rfl
  | [], d :: y =>
    by_cases hd : d.isDigit
    · refine .inr ⟨1, by simp [scanReference, hd], .reference (digit c) (10 * digit c + digit d)
        rfl (by simp [scanReference, hd]) rfl rfl (by simpa using hd)⟩
    · left; simp [scanReference, hd]

theorem scanUnicode_append (u y : Text) : StaysOrGrows scanUnicode u y := by
  unfold StaysOrGrows
  have plain : ∀ t, (scanUnicode t).1.isPlain := by
    intro t
    unfold scanUnicode
    split
    · rfl
    · split <;> rfl
  have reads : Reads (bracedLength? Text.isHexDigit) id (Braced Text.isHexDigit) :=
    reads_braced (by decide)
  rcases reads.append_or (braced_soft fun _ => isSoft_of_isHexDigit) u y with
    hb | ⟨hb, k, hk, ha⟩
  · cases hu : bracedLength? Text.isHexDigit u with
    | some k => left; simp [scanUnicode, hb, hu]
    | none =>
      rw [hu] at hb
      rcases startsWithHex_append 4 u y with h4 | ⟨h4, h4', ha⟩
      · left; simp [scanUnicode, hb, hu, h4]
      · exact .inr ⟨4, by simp [scanUnicode, hb, h4'], .plain (plain _) (plain _) ha⟩
  · exact .inr ⟨k, by simp [scanUnicode, hk], .plain (plain _) (plain _) ha⟩

theorem scanEscape_of_not_mem (hd : d.isDigit = false)
    (h : d ∉ ['k', 'u', 'x', 'c', 'p', 'P']) : ∃ e, ∀ t, scanEscape d t = (e, 1) := by
  by_cases hs : d ∈ ['d', 'D', 's', 'S', 'w', 'W']
  · refine ⟨.shorthand d, fun t => ?_⟩
    simp only [List.mem_cons, List.not_mem_nil, or_false] at hs
    rcases hs with rfl | rfl | rfl | rfl | rfl | rfl <;> rfl
  · refine ⟨.char d, fun t => ?_⟩
    simp only [List.mem_cons, List.not_mem_nil, or_false, not_or] at h hs
    simp only [scanEscape, hd]
    split <;> simp_all

theorem scanProperty_append (hd : d = 'p' ∨ d = 'P') (u y : Text) :
    StaysOrGrows (scanEscape d) u y := by
  unfold StaysOrGrows
  have some : ∀ {t n}, propertyLength? t = some n → scanEscape d t = (.property, n + 1) := by
    intro t n h
    rcases hd with rfl | rfl <;> simp [scanEscape, h]
  have none : ∀ {t}, propertyLength? t = none → scanEscape d t = (.char d, 1) := by
    intro t h
    rcases hd with rfl | rfl <;> simp [scanEscape, h]
  have plain : ∀ t, (scanEscape d t).1.isPlain := by
    intro t
    cases h : propertyLength? t with
    | some n =>
      rw [some h]
      rfl
    | none =>
      rw [none h]
      rcases hd with rfl | rfl <;> rfl
  rcases reads_property.append_or property_soft u y with h | ⟨-, k, h, ha⟩
  · left
    cases hu : propertyLength? u with
    | some n => rw [some hu, some (h.trans hu)]
    | none => rw [none hu, none (h.trans hu)]
  · exact .inr ⟨k, by rw [some h], .plain (plain _) (plain _) ha⟩

theorem scanHex_append (u y : Text) : StaysOrGrows (scanEscape 'x') u y := by
  rcases startsWithHex_append 2 u y with h | ⟨h, h', ha⟩
  · left
    simp [scanEscape, h]
  · right
    refine ⟨2, ?_, .plain ?_ ?_ ha⟩ <;> simp [scanEscape, h, h'] <;> rfl

theorem scanControl_append (u y : Text) : StaysOrGrows (scanEscape 'c') u y := by
  cases u with
  | cons a u => exact .inl rfl
  | nil =>
    by_cases ha : y.head?.any Char.isAlpha
    · obtain ⟨a, y, rfl⟩ : ∃ a r, y = a :: r := by
        cases y with
        | nil => simp at ha
        | cons a r => exact ⟨a, r, rfl⟩
      have ha : a.isAlpha := by simpa using ha
      have taken : Absorbs [] (a :: y) 1 :=
        ⟨1, rfl, by simp, .inl (by simp), by simp, by simpa using isSoft_of_isAlpha ha⟩
      right
      refine ⟨1, ?_, .plain ?_ ?_ taken⟩ <;> simp [scanEscape, ha] <;> rfl
    · left
      simp [scanEscape, ha]

/-- A back reference by name is the exception: a name may hold any character. -/
theorem scanEscape_append (hk : d ≠ 'k') (u y : Text) :
    scanEscape d (u ++ y) = scanEscape d u ∨
      isSoft d ∧ ∃ n, (scanEscape d (u ++ y)).2 = n + 1 ∧
        Grows (scanEscape d u).1 (scanEscape d (u ++ y)).1 u y n := by
  suffices h : StaysOrGrows (scanEscape d) u y ∧
      (isSoft d ∨ scanEscape d (u ++ y) = scanEscape d u) by
    obtain ⟨h, hs | hs⟩ := h
    · exact h.imp id fun hg => ⟨hs, hg⟩
    · exact .inl hs
  by_cases hd : d.isDigit
  · refine ⟨?_, .inl (isSoft_of_isDigit hd)⟩
    by_cases h0 : d = '0'
    · subst h0
      exact scanZero_append u y
    · simpa [StaysOrGrows, scanEscape, hd, h0] using scanReference_append d u y
  · by_cases hm : d ∈ ['k', 'u', 'x', 'c', 'p', 'P']
    · simp only [List.mem_cons, List.not_mem_nil, or_false, hk, false_or] at hm
      rcases hm with rfl | rfl | rfl | hp
      · exact ⟨scanUnicode_append u y, .inl (by decide)⟩
      · exact ⟨scanHex_append u y, .inl (by decide)⟩
      · exact ⟨scanControl_append u y, .inl (by decide)⟩
      · exact ⟨scanProperty_append hp u y, .inl (by rcases hp with rfl | rfl <;> decide)⟩
    · obtain ⟨e, he⟩ := scanEscape_of_not_mem (by simpa using hd) hm
      have same : scanEscape d (u ++ y) = scanEscape d u := by rw [he, he]
      exact ⟨.inl same, .inr same⟩

/-- No construct takes the first character of the text, if there is one. -/
def Breaks (y : Text) : Prop := ∀ c ∈ y.head?, c = '\\' ∨ c = '[' ∨ c = '('

theorem Breaks.not_soft (hy : Breaks y) (hc : c ∈ y.head?) : isSoft c = false := by
  rcases hy c hc with rfl | rfl | rfl <;> decide

theorem Breaks.not_digit (hy : Breaks y) : y.head?.any Char.isDigit = false := by
  cases h : y.head? with
  | none => rfl
  | some c => rcases hy c h with rfl | rfl | rfl <;> decide

theorem Breaks.not_absorbs (hy : Breaks y) : ¬ Absorbs u y n := by
  rintro ⟨m, -, hle, hm, -, hs⟩
  rcases hm with hm | hm
  · cases y with
    | nil => simp at hle; omega
    | cons c y =>
      have hc : c ∈ (c :: y).take m := by
        obtain ⟨m, rfl⟩ := Nat.exists_eq_succ_of_ne_zero (by omega : m ≠ 0)
        simp
      have := hs c hc
      rw [hy.not_soft rfl] at this
      simp at this
  · simp [hy.not_digit] at hm

-- ---------------------------------------------------------------------------
-- Group openers
-- ---------------------------------------------------------------------------

section
variable {g : GroupOpener} {w z : Text}

theorem tail_mem {a : Marker × Nat} {body : Text} (h : Marker.Tail a body) :
    (∀ c ∈ body, c ≠ '\\' ∧ c ≠ '[' ∧ c ≠ '(' ∧ c ≠ '|') ∧ ')' ∉ body.dropLast := by
  obtain ⟨ds, is, hd, hi, rfl, -⟩ := h
  have digit : ∀ c : Char, c.isDigit → c ≠ '\\' ∧ c ≠ '[' ∧ c ≠ '(' ∧ c ≠ '|' ∧ c ≠ ')' := by
    intro c hc
    refine ⟨?_, ?_, ?_, ?_, ?_⟩ <;> rintro rfl <;> simp at hc
  have front : ∀ c ∈ Marker.opening ++ ds ++ Marker.middle ++ is,
      c ≠ '\\' ∧ c ≠ '[' ∧ c ≠ '(' ∧ c ≠ '|' ∧ c ≠ ')' := by
    intro c hc
    simp only [List.mem_append] at hc
    rcases hc with ((hc | hc) | hc) | hc
    · revert c
      exact forall_mem_of_all (by decide)
    · exact digit c (hd.isDigit c hc)
    · revert c
      exact forall_mem_of_all (by decide)
    · exact digit c (hi.isDigit c hc)
  refine ⟨fun c hc => ?_, fun hc => ?_⟩
  · rcases List.mem_append.mp hc with hc | hc
    · obtain ⟨hbackslash, hbracket, hgroup, hbar, -⟩ := front c hc
      exact ⟨hbackslash, hbracket, hgroup, hbar⟩
    · rw [List.mem_singleton] at hc
      subst hc
      decide
  · rw [List.dropLast_concat] at hc
    exact (front ')' hc).2.2.2.2 rfl

theorem tail?_append_eq_none (hw : Marker.tail? w = none) (hy : ')' ∈ w ∨ Breaks y) :
    Marker.tail? (w ++ y) = none := by
  cases h : Marker.tail? (w ++ y) with
  | none => rfl
  | some a =>
    obtain ⟨m, -, hm, hle, hf⟩ := Marker.reads_tail.body_eq hw h
    obtain ⟨hb, hlast⟩ := tail_mem hf
    have hne : y.take m ≠ [] := by
      intro h
      have := congrArg List.length h
      rw [List.length_take_of_le hle] at this
      simp at this
      omega
    rcases hy with hy | hy
    · rw [List.dropLast_append_of_ne_nil hne] at hlast
      exact absurd (List.mem_append_left _ hy) hlast
    · cases y with
      | nil => simp at hne
      | cons c y =>
        obtain ⟨m, rfl⟩ := Nat.exists_eq_succ_of_ne_zero (by omega : m ≠ 0)
        have := hb c (by simp)
        rcases hy c rfl with rfl | rfl | rfl <;> simp at this

theorem nameLength?_congr (h : nameLength? (w ++ y) = some n) (hn : n ≤ w.length) :
    nameLength? (w ++ z) = some n :=
  reads_name.append (reads_name.of_append h hn)

theorem scanGroup_capture (ht : Marker.tail? t = none) (h : t.head? ≠ some '?') :
    scanGroup t = (.capture, 0) := by
  cases t with
  | nil => rfl
  | cons c t =>
    simp only [scanGroup, ht]
    split <;> simp_all

theorem scanGroup_modifiers (ht : Marker.tail? ('?' :: t) = none)
    (h : ∀ c ∈ t.head?, c ≠ ':' ∧ c ≠ '=' ∧ c ≠ '!' ∧ c ≠ '<') :
    scanGroup ('?' :: t) = (.modifiers, 1) := by
  cases t with
  | nil => rfl
  | cons c t =>
    simp only [scanGroup, ht]
    split <;> simp_all

theorem scanGroup_named (ht : Marker.tail? ('?' :: '<' :: t) = none)
    (h : ∀ c ∈ t.head?, c ≠ '=' ∧ c ≠ '!') :
    scanGroup ('?' :: '<' :: t) = (.named, 2 + (nameLength? t).getD 0) := by
  cases t with
  | nil => rfl
  | cons c t =>
    have hc : c ≠ '=' ∧ c ≠ '!' := h c rfl
    simp [scanGroup, ht, hc.1, hc.2]

theorem two_le_scanGroup {r : Text} (ht : Marker.tail? ('?' :: c :: r) = none)
    (hc : c = ':' ∨ c = '=' ∨ c = '!' ∨ c = '<') : 2 ≤ (scanGroup ('?' :: c :: r)).2 := by
  rcases hc with rfl | rfl | rfl | rfl
  · simp [scanGroup, ht]
  · simp [scanGroup, ht]
  · simp [scanGroup, ht]
  · by_cases hr : ∀ c ∈ r.head?, c ≠ '=' ∧ c ≠ '!'
    · simp [scanGroup_named ht hr]
    · cases r with
      | nil => simp at hr
      | cons c r =>
        have hc : c = '=' ∨ c = '!' := by
          simp only [List.head?_cons, Option.mem_some_iff] at hr
          grind
        rcases hc with rfl | rfl <;> simp [scanGroup, ht]

theorem one_le_scanGroup (ht : Marker.tail? ('?' :: t) = none) :
    1 ≤ (scanGroup ('?' :: t)).2 := by
  by_cases h : ∀ c ∈ t.head?, c ≠ ':' ∧ c ≠ '=' ∧ c ≠ '!' ∧ c ≠ '<'
  · simp [scanGroup_modifiers ht h]
  · cases t with
    | nil => simp at h
    | cons c t =>
      simp only [List.head?_cons, Option.mem_some_iff] at h
      have := two_le_scanGroup ht (by grind)
      omega

theorem scanGroup_congr_bracket (h : scanGroup ('?' :: '<' :: (w ++ y)) = (g, n))
    (hn : n ≤ w.length + 2) (hg : g = .named → 2 < n)
    (ht : Marker.tail? ('?' :: '<' :: (w ++ y)) = none)
    (ht' : Marker.tail? ('?' :: '<' :: (w ++ z)) = none) :
    scanGroup ('?' :: '<' :: (w ++ z)) = (g, n) := by
  have hw : w ≠ [] := by
    rintro rfl
    rw [List.nil_append] at h ht
    by_cases hy : ∀ c ∈ y.head?, c ≠ '=' ∧ c ≠ '!'
    · rw [scanGroup_named ht hy, Prod.mk.injEq] at h
      have := hg h.1.symm
      simp at hn
      omega
    · cases y with
      | nil => simp at hy
      | cons c y =>
        have hc : c = '=' ∨ c = '!' := by
          simp only [List.head?_cons, Option.mem_some_iff] at hy
          grind
        rcases hc with rfl | rfl <;>
        · simp only [scanGroup, ht, Prod.mk.injEq] at h
          simp at hn
          omega
  obtain ⟨e, w, rfl⟩ := List.exists_cons_of_ne_nil hw
  rw [List.cons_append] at h ht ht' ⊢
  by_cases he : e = '=' ∨ e = '!'
  · rcases he with rfl | rfl <;>
    · simp only [scanGroup, ht] at h
      simpa only [scanGroup, ht'] using h
  · have hm : ∀ r : Text, ∀ c ∈ (e :: r).head?, c ≠ '=' ∧ c ≠ '!' := by
      intro r c hc
      simp only [List.head?_cons, Option.mem_some_iff] at hc
      grind
    rw [scanGroup_named ht (hm _), Prod.mk.injEq] at h
    rw [scanGroup_named ht' (hm _), Prod.mk.injEq]
    refine ⟨h.1, ?_⟩
    have hn2 := hg h.1.symm
    cases hl : nameLength? (e :: (w ++ y)) with
    | none =>
      rw [hl] at h
      simp at h
      omega
    | some k =>
      rw [hl, Option.getD_some] at h
      have : nameLength? (e :: (w ++ z)) = some k :=
        nameLength?_congr (w := e :: w) hl (by simp at hn ⊢; omega)
      rw [this, Option.getD_some]
      exact h.2

theorem scanGroup_congr_question (h : scanGroup ('?' :: (w ++ y)) = (g, n))
    (hn : n ≤ w.length + 1) (hg : g = .named → 2 < n)
    (ht : Marker.tail? ('?' :: (w ++ y)) = none) (ht' : Marker.tail? ('?' :: (w ++ z)) = none)
    (next : ∀ c ∈ z.head?, w ≠ [] ∨ c ≠ ':' ∧ c ≠ '=' ∧ c ≠ '!' ∧ c ≠ '<') :
    scanGroup ('?' :: (w ++ z)) = (g, n) := by
  match w with
  | [] =>
    rw [List.nil_append] at h ht ht' ⊢
    have hm : ∀ c ∈ y.head?, c ≠ ':' ∧ c ≠ '=' ∧ c ≠ '!' ∧ c ≠ '<' := by
      intro c hc
      obtain ⟨r, rfl⟩ := List.head?_eq_some_iff.mp hc
      by_contra hs
      have := two_le_scanGroup ht (by grind)
      rw [h] at this
      simp at hn
      omega
    rw [scanGroup_modifiers ht hm] at h
    rw [← h]
    exact scanGroup_modifiers ht' fun c hc => by simpa using next c hc
  | b :: w =>
    rw [List.cons_append] at h ht ht' ⊢
    by_cases hb : b = '<'
    · subst hb
      exact scanGroup_congr_bracket h hn hg ht ht'
    · by_cases hb' : b = ':' ∨ b = '=' ∨ b = '!'
      · rcases hb' with rfl | rfl | rfl <;>
        · simp only [scanGroup, ht] at h
          simpa only [scanGroup, ht'] using h
      · have hm : ∀ r : Text, ∀ c ∈ (b :: r).head?, c ≠ ':' ∧ c ≠ '=' ∧ c ≠ '!' ∧ c ≠ '<' := by
          intro r c hc
          simp only [List.head?_cons, Option.mem_some_iff] at hc
          grind
        rw [scanGroup_modifiers ht (hm _)] at h
        rw [← h]
        exact scanGroup_modifiers ht' (hm _)

/-- An opener depends on its own characters only, if what follows cannot
continue them. A named opener has to be complete. -/
theorem scanGroup_congr (h : scanGroup (w ++ y) = (g, n)) (hn : n ≤ w.length)
    (hg : g = .named → 2 < n) (hy : ')' ∈ w ∨ Breaks z) : scanGroup (w ++ z) = (g, n) := by
  cases ht : Marker.tail? (w ++ y) with
  | some a =>
    have hl : a.2 = n := by
      simp only [scanGroup, ht, Prod.mk.injEq] at h
      exact h.2
    have ht' := Marker.reads_tail.append (y := z) (Marker.reads_tail.of_append ht (hl ▸ hn))
    simp only [scanGroup, ht'] at h ⊢
    simpa [ht] using h
  | none =>
    have hw : Marker.tail? w = none := by
      cases hw : Marker.tail? w with
      | none => rfl
      | some a => simp [Marker.reads_tail.append hw] at ht
    have ht' := tail?_append_eq_none hw hy
    -- What `w` leaves open is not continued by `z`.
    have next : ∀ c ∈ z.head?, ')' ∈ w ∨ c ≠ '?' ∧ c ≠ ':' ∧ c ≠ '=' ∧ c ≠ '!' ∧ c ≠ '<' := by
      intro c hc
      refine hy.imp id fun hy => ?_
      rcases hy c hc with rfl | rfl | rfl <;> decide
    match w with
    | [] =>
      have hq : y.head? ≠ some '?' := by
        intro hq
        obtain ⟨r, rfl⟩ := List.head?_eq_some_iff.mp hq
        have := one_le_scanGroup ht
        rw [List.nil_append] at h
        rw [h] at this
        simp at hn
        omega
      rw [scanGroup_capture ht hq] at h
      rw [← h]
      exact scanGroup_capture ht' fun hc => by simpa using next '?' hc
    | a :: w =>
      by_cases ha : a = '?'
      · subst ha
        refine scanGroup_congr_question h hn hg ht ht' fun c hc => (next c hc).imp ?_ And.right
        rintro hw rfl
        simp at hw
      · rw [scanGroup_capture ht (by simpa using ha)] at h
        rw [← h]
        exact scanGroup_capture ht' (by simpa using ha)

theorem of_scanGroup_named (h : scanGroup t = (.named, n)) :
    ∃ r, t = '?' :: '<' :: r ∧ n = 2 + (nameLength? r).getD 0 := by
  unfold scanGroup at h
  split at h
  · simp at h
  · split at h <;> simp_all

end

-- ---------------------------------------------------------------------------
-- Tokens
-- ---------------------------------------------------------------------------

section
variable {context : Context} {k : TokenKind} {w z : Text}

theorem scan_escape (context : Context) (d : Char) (t : Text) :
    scan context '\\' (d :: t) = (.escape (scanEscape d t).1, (scanEscape d t).2) := rfl

theorem scan_group (t : Text) :
    scan .pattern '(' t = (.groupOpen (scanGroup t).1, (scanGroup t).2) := rfl

theorem scan_brace (t : Text) : scan .pattern '{' t =
    match quantifierLength? t with
    | some n => (.braceOpen .quantifier, n)
    | none => (.braceOpen .literal, 0) := by
  cases h : quantifierLength? t <;> simp [scan, h]

/-- An escape takes its first character, and no more than there is behind it. -/
def Fits (length : Nat) (t : Text) : Prop := 1 ≤ length ∧ length ≤ t.length + 1

theorem Fits.one (t : Text) : Fits 1 t := ⟨Nat.le_refl 1, by simp⟩

theorem Fits.succ (h : n ≤ t.length) : Fits (n + 1) t := ⟨by simp, by simpa using h⟩

theorem startsWithHex_le {k : Nat} (h : startsWithHex k t) : k ≤ t.length := by
  simp only [startsWithHex, Bool.and_eq_true, decide_eq_true_eq] at h
  exact h.1

theorem scanZero_fits (t : Text) : Fits (scanZero t).2 t := by
  have hl := ((List.takeWhile_prefix (l := t.take 2) Text.isOctalDigit).trans
    (List.take_prefix 2 t)).length_le
  simp only [scanZero]
  split
  · exact .one t
  · exact .succ hl

theorem scanReference_fits (c : Char) (t : Text) : Fits (scanReference c t).2 t := by
  cases t with
  | nil => exact .one []
  | cons a t =>
    by_cases ha : a.isDigit
    · simpa [scanReference, ha] using Fits.succ (t := a :: t) (n := 1) (by simp)
    · simpa [scanReference, ha] using Fits.one (a :: t)

theorem scanUnicode_fits (t : Text) : Fits (scanUnicode t).2 t := by
  unfold scanUnicode
  cases h : bracedLength? Text.isHexDigit t with
  | some n =>
    have reads : Reads (bracedLength? Text.isHexDigit) id (Braced Text.isHexDigit) :=
      reads_braced (by decide)
    exact .succ (reads.length_le h)
  | none =>
    by_cases h4 : startsWithHex 4 t
    · simpa [h4] using Fits.succ (startsWithHex_le h4)
    · simpa [h4] using Fits.one t

theorem scanNamedReference_fits (t : Text) : Fits (scanNamedReference t).2 t := by
  unfold scanNamedReference
  split
  · rename_i r
    cases h : nameLength? r with
    | none => exact .one _
    | some n => exact .succ (by simpa using reads_name.length_le h)
  · exact .one _

theorem scanProperty_fits (hd : d = 'p' ∨ d = 'P') (t : Text) : Fits (scanEscape d t).2 t := by
  cases h : propertyLength? t with
  | some n =>
    have := Fits.succ (reads_property.length_le h)
    rcases hd with rfl | rfl <;> simpa [scanEscape, h] using this
  | none => rcases hd with rfl | rfl <;> simpa [scanEscape, h] using Fits.one t

theorem scanEscape_fits (d : Char) (t : Text) : Fits (scanEscape d t).2 t := by
  by_cases hd : d.isDigit
  · by_cases h0 : d = '0'
    · subst h0
      exact scanZero_fits t
    · simpa [scanEscape, hd, h0] using scanReference_fits d t
  · by_cases hm : d ∈ ['k', 'u', 'x', 'c', 'p', 'P']
    · simp only [List.mem_cons, List.not_mem_nil, or_false] at hm
      rcases hm with rfl | rfl | rfl | rfl | hp
      · exact scanNamedReference_fits t
      · exact scanUnicode_fits t
      · by_cases h2 : startsWithHex 2 t
        · simpa [scanEscape, h2] using Fits.succ (startsWithHex_le h2)
        · simpa [scanEscape, h2] using Fits.one t
      · cases t with
        | nil => exact .one []
        | cons a t =>
          by_cases ha : a.isAlpha
          · simpa [scanEscape, ha] using Fits.succ (t := a :: t) (n := 1) (by simp)
          · simpa [scanEscape, ha] using Fits.one (a :: t)
      · exact scanProperty_fits hp t
    · obtain ⟨e, he⟩ := scanEscape_of_not_mem (by simpa using hd) hm
      rw [he]
      exact .one t

theorem scanGroup_length_le (t : Text) : (scanGroup t).2 ≤ t.length := by
  cases ht : Marker.tail? t with
  | some a =>
    have := Marker.reads_tail.length_le ht
    simpa [scanGroup, ht] using this
  | none =>
    have named : ∀ r : Text, (nameLength? r).getD 0 ≤ r.length := by
      intro r
      cases h : nameLength? r with
      | none => simp
      | some n => simpa using reads_name.length_le h
    simp only [scanGroup, ht]
    split <;> simp
    have := named ‹Text›
    omega

/-- Characters that are a token by themselves whatever stands behind them. -/
def IsSimple (context : Context) (c : Char) : Prop :=
  c ≠ '\\' ∧ (context = .charClass ∨ c ≠ '(' ∧ c ≠ '[' ∧ c ≠ '{')

theorem scan_of_isSimple (h : IsSimple context c) : ∃ k, ∀ t, scan context c t = (k, 0) := by
  obtain ⟨hb, hc⟩ := h
  rcases hc with rfl | ⟨hg, hc, hq⟩
  · by_cases hs : c = '(' ∨ c = '[' ∨ c = '{'
    · rcases hs with rfl | rfl | rfl
      · exact ⟨_, fun _ => rfl⟩
      · exact ⟨_, fun _ => rfl⟩
      · exact ⟨_, fun _ => rfl⟩
    · refine ⟨(scan .charClass c []).1, fun t => ?_⟩
      simp only [not_or] at hs
      unfold scan
      split <;> simp_all
  · refine ⟨(scan context c []).1, fun t => ?_⟩
    unfold scan
    split <;> simp_all

theorem IsSimple.or (context : Context) (c : Char) :
    IsSimple context c ∨ c = '\\' ∨ context = .pattern ∧ (c = '(' ∨ c = '[' ∨ c = '{') := by
  unfold IsSimple
  cases context <;> simp <;> grind

theorem scan_class (t : Text) : scan .pattern '[' t =
    if ['^', ']'].isPrefixOf t then (.classOpen .emptyNegated, 2) else (.classOpen .plain, 0) := by
  match t with
  | [] => rfl
  | [a] => by_cases ha : a = '^' <;> simp [scan, List.isPrefixOf]
  | a :: b :: t =>
    by_cases ha : '^' = a
    · by_cases hb : ']' = b
      · subst ha hb; rfl
      · subst ha; simp [scan, List.isPrefixOf, hb, Ne.symm hb]
    · simp [scan, List.isPrefixOf, ha, Ne.symm ha]

theorem scan_length_le (context : Context) (c : Char) (t : Text) :
    (scan context c t).2 ≤ t.length := by
  rcases IsSimple.or context c with hs | rfl | ⟨rfl, rfl | rfl | rfl⟩
  · obtain ⟨k, hk⟩ := scan_of_isSimple hs
    simp [hk]
  · cases t with
    | nil => simp [scan]
    | cons d t => simpa [scan_escape] using (scanEscape_fits d t).2
  · exact scanGroup_length_le t
  · rw [scan_class]
    split
    · rename_i hp
      exact (List.isPrefixOf_iff_prefix.mp hp).length_le
    · simp
  · rw [scan_brace]
    cases h : quantifierLength? t with
    | none => simp
    | some n => simpa using reads_quantifier.length_le h

theorem scan_class_congr (h : scan .pattern '[' (w ++ y) = (k, n)) (hn : n ≤ w.length)
    (hy : ']' ∈ w ∨ Breaks z) : scan .pattern '[' (w ++ z) = (k, n) := by
  suffices hp : ['^', ']'].isPrefixOf (w ++ z) = ['^', ']'].isPrefixOf (w ++ y) by
    rw [scan_class, hp, ← scan_class, h]
  have hl : ['^', ']'].isPrefixOf (w ++ y) = true → 2 ≤ w.length := by
    intro hp
    rw [scan_class, if_pos hp] at h
    simp only [Prod.mk.injEq] at h
    omega
  match w with
  | [] =>
    have h0 : ['^', ']'].isPrefixOf y = false := by
      by_contra hp
      simpa using hl (by simpa using hp)
    rw [List.nil_append, List.nil_append, h0]
    cases z with
    | nil => rfl
    | cons c z =>
      rcases hy.resolve_left (by simp) c rfl with rfl | rfl | rfl <;> simp [List.isPrefixOf]
  | [a] =>
    have h0 : ['^', ']'].isPrefixOf (a :: y) = false := by
      by_contra hp
      simpa using hl (by simpa using hp)
    rw [List.cons_append, List.cons_append, List.nil_append, List.nil_append, h0]
    by_cases ha : a = '^'
    · subst ha
      cases z with
      | nil => rfl
      | cons c z =>
        rcases hy.resolve_left (by simp) c rfl with rfl | rfl | rfl <;> simp [List.isPrefixOf]
    · simp [List.isPrefixOf, Ne.symm ha]
  | a :: b :: w => simp [List.isPrefixOf]

/-- A token `k`, read at the start of `u`, becomes `k'` once `y` is added. -/
inductive TokenGrows (k k' : TokenKind) (u y : Text) (n : Nat) : Prop
  | plain (old : k.isPlain) (new : k'.isPlain) (taken : Absorbs u y n)
  | reference (i j : Nat) (d : Char) (old : k = .escape (.backReference i))
      (new : k' = .escape (.backReference j)) (alone : u = [d]) (two : n = 2)
      (digit : y.head?.any Char.isDigit)

theorem Absorbs.cons (h : Absorbs u y n) (hd : isSoft d) : Absorbs (d :: u) y (n + 1) := by
  obtain ⟨m, rfl, hle, hm, hu, hy⟩ := h
  refine ⟨m, by simp; omega, hle, hm, ?_, hy⟩
  simpa using ⟨hd, hu⟩

theorem two_lt_of_isWhole (h : scanGroup u = (.named, n))
    (hw : (⟨.groupOpen .named, '(' :: u.take n, context⟩ : Token).isWhole) : 2 < n := by
  obtain ⟨r, rfl, rfl⟩ := of_scanGroup_named h
  cases hr : nameLength? r with
  | none => simp [Token.isWhole, hr] at hw
  | some m =>
    obtain ⟨_, _, -, name, hne, -, rfl, hm⟩ := (reads_name.some_iff _ _).mp hr
    have := List.length_pos_iff.mpr hne
    simp at hm ⊢
    omega

theorem scanNamedReference_congr {e : Escape} (h : scanNamedReference (w ++ y) = (e, n))
    (hn : n ≤ w.length + 1) (he : e ≠ .char 'k') : scanNamedReference (w ++ z) = (e, n) := by
  have hw : ∃ r m, w ++ y = '<' :: r ∧ nameLength? r = some m ∧ e = .namedReference ∧
      n = m + 2 := by
    unfold scanNamedReference at h
    split at h
    · rename_i r hr
      cases hm : nameLength? r <;> simp_all
    · simp_all
  obtain ⟨r, m, hr, hm, rfl, rfl⟩ := hw
  cases w with
  | nil => simp at hn
  | cons a w =>
    simp only [List.cons_append, List.cons.injEq] at hr
    obtain ⟨rfl, rfl⟩ := hr
    have := nameLength?_congr (z := z) hm (by simp at hn; omega)
    simp [scanNamedReference, this]

theorem scanEscape_named_congr {text : Text} (hn : (scanEscape 'k' (w ++ y)).2 ≤ w.length + 1)
    (hw : (⟨.escape (scanEscape 'k' (w ++ y)).1, text, context⟩ : Token).isWhole) :
    scanEscape 'k' (w ++ z) = scanEscape 'k' (w ++ y) := by
  have hchar : (scanEscape 'k' (w ++ y)).1 ≠ .char 'k' := by
    intro he
    simp [Token.isWhole, he] at hw
  exact scanNamedReference_congr (e := (scanEscape 'k' (w ++ y)).1) rfl hn hchar

/-- Text added behind a source leaves a token of it alone or makes it grow. The
groups and classes that the source opens have to be closed in it. -/
theorem scan_append (h : scan context c u = (k, n)) (hn : n ≤ u.length)
    (hw : (⟨k, c :: u.take n, context⟩ : Token).isWhole)
    (hg : context = .pattern → c = '(' → ')' ∈ u)
    (hc : context = .pattern → c = '[' → ']' ∈ u) (y : Text) :
    scan context c (u ++ y) = (k, n) ∨
      ∃ k' n', scan context c (u ++ y) = (k', n') ∧ TokenGrows k k' u y n' := by
  have hu : u ++ [] = u := List.append_nil u
  -- All but a backslash and three openers are tokens by themselves.
  rcases IsSimple.or context c with hs | rfl | ⟨rfl, rfl | rfl | rfl⟩
  · obtain ⟨k', hk⟩ := scan_of_isSimple hs
    rw [hk] at h
    exact .inl (by rw [hk, h])
  · cases u with
    | nil =>
      simp only [scan, Prod.mk.injEq] at h
      obtain ⟨rfl, -⟩ := h
      simp [Token.isWhole] at hw
    | cons d u =>
      rw [List.cons_append, scan_escape, Prod.mk.injEq]
      rw [scan_escape, Prod.mk.injEq] at h
      obtain ⟨rfl, rfl⟩ := h
      by_cases hd : d = 'k'
      · subst hd
        have hnamed : scanEscape 'k' (u ++ y) = scanEscape 'k' (u ++ []) :=
          scanEscape_named_congr (by rwa [List.append_nil]) (by rwa [List.append_nil])
        rw [List.append_nil] at hnamed
        exact .inl (by simp [hnamed])
      · rcases scanEscape_append hd u y with he | ⟨hs, m, hm, hgr⟩
        · simp [he]
        · refine .inr ⟨_, _, rfl, ?_⟩
          cases hgr with
          | plain old new taken => exact .plain old new (hm ▸ taken.cons hs)
          | reference i j old new alone one digit =>
            exact .reference i j d (by rw [old]) (by rw [new]) (by rw [alone]) (by omega) digit
  · rw [scan_group, Prod.mk.injEq] at h
    left
    have hn2 : (scanGroup u).1 = .named → 2 < n := by
      intro hm
      rw [← h.1, hm] at hw
      exact two_lt_of_isWhole (Prod.ext hm h.2) hw
    have := scanGroup_congr (w := u) (y := []) (z := y) (g := (scanGroup u).1) (n := n)
      (by rw [hu]; exact Prod.ext rfl h.2) hn hn2 (.inl (hg rfl rfl))
    rw [scan_group, this, ← h.1]
  · exact .inl (scan_class_congr (w := u) (y := []) (by rwa [hu]) hn (.inl (hc rfl rfl)))
  · rw [scan_brace] at h ⊢
    rcases reads_quantifier.append_or bounds_soft u y with hq | ⟨hq, m, hq', ha⟩
    · rw [hq]
      exact .inl h
    · rw [hq] at h
      rw [hq']
      simp only [Prod.mk.injEq] at h
      exact .inr ⟨_, _, rfl, .plain (by simp [← h.1, TokenKind.isPlain]) rfl ha⟩

theorem not_grows {e e' : Escape} (hy : Breaks y) : ¬ Grows e e' u y n
  | .plain _ _ taken => hy.not_absorbs taken
  | .reference _ _ _ _ _ _ digit => by simp [hy.not_digit] at digit

section
variable {d : Char} (hdigit : y.head?.any Char.isDigit = false) (hz : Breaks z)
include hdigit

theorem Absorbs.lt (h : Absorbs w y n) : w.length < n := by
  obtain ⟨l, rfl, -, hl, -⟩ := h
  have := hl.resolve_right (by simp [hdigit])
  omega

include hz

theorem scanEscape_keep (hd : d ≠ 'k') (hn : (scanEscape d (w ++ y)).2 ≤ w.length + 1) :
    scanEscape d (w ++ z) = scanEscape d (w ++ y) := by
  have hold : scanEscape d (w ++ y) = scanEscape d w := by
    refine (scanEscape_append hd w y).resolve_right ?_
    rintro ⟨-, m, hm, hgrow⟩
    cases hgrow with
    | plain _ _ taken =>
      have := taken.lt hdigit
      omega
    | reference _ _ _ _ _ _ digit => simp [hdigit] at digit
  have hnew : scanEscape d (w ++ z) = scanEscape d w := by
    refine (scanEscape_append hd w z).resolve_right ?_
    rintro ⟨-, m, -, hgrow⟩
    exact not_grows hz hgrow
  rw [hnew, hold]

theorem quantifierLength_keep (hn : ∀ m, quantifierLength? (w ++ y) = some m → m ≤ w.length) :
    quantifierLength? (w ++ z) = quantifierLength? (w ++ y) := by
  have hnew : quantifierLength? (w ++ z) = quantifierLength? w := by
    refine (reads_quantifier.append_or bounds_soft w z).resolve_right ?_
    rintro ⟨-, m, -, ha⟩
    exact hz.not_absorbs ha
  have hold : quantifierLength? (w ++ y) = quantifierLength? w := by
    refine (reads_quantifier.append_or bounds_soft w y).resolve_right ?_
    rintro ⟨-, m, hm, ha⟩
    have hlt : w.length < m := ha.lt hdigit
    exact absurd (hn m hm) (Nat.not_le.mpr hlt)
  rw [hnew, hold]

end

/-- Nothing changes a token whose text is complete, as long as the text behind
it begins with a character that no construct takes. -/
theorem scan_keep (h : scan context c (w ++ y) = (k, n)) (hn : n ≤ w.length)
    (hw : (⟨k, c :: w.take n, context⟩ : Token).isWhole)
    (hd : y.head?.any Char.isDigit = false) (hy : Breaks z) :
    scan context c (w ++ z) = (k, n) := by
  rcases IsSimple.or context c with hs | rfl | ⟨rfl, rfl | rfl | rfl⟩
  · obtain ⟨k', hk⟩ := scan_of_isSimple hs
    rw [hk] at h
    rw [hk, h]
  · cases w with
    | nil =>
      cases y with
      | nil =>
        simp only [List.append_nil, scan, Prod.mk.injEq] at h
        obtain ⟨rfl, -⟩ := h
        simp [Token.isWhole] at hw
      | cons d y =>
        rw [List.nil_append, scan_escape, Prod.mk.injEq] at h
        have := (scanEscape_fits d y).1
        simp at hn
        omega
    | cons d w =>
      rw [List.cons_append, scan_escape, Prod.mk.injEq] at h
      obtain ⟨rfl, rfl⟩ := h
      rw [List.cons_append, scan_escape]
      have hkeep : scanEscape d (w ++ z) = scanEscape d (w ++ y) := by
        by_cases hk : d = 'k'
        · subst hk
          exact scanEscape_named_congr hn hw
        · exact scanEscape_keep hd hy hk hn
      rw [hkeep]
  · rw [scan_group, Prod.mk.injEq] at h
    have hn2 : (scanGroup (w ++ y)).1 = .named → 2 < n := by
      intro hm
      have ht : (w ++ y).take n = w.take n := List.take_append_of_le_length hn
      rw [← h.1, hm, ← ht] at hw
      exact two_lt_of_isWhole (Prod.ext hm h.2) hw
    have := scanGroup_congr (g := (scanGroup (w ++ y)).1) (n := n) (z := z)
      (Prod.ext rfl h.2) hn hn2 (.inr hy)
    rw [scan_group, this, ← h.1]
  · exact scan_class_congr h hn (.inr hy)
  · rw [scan_brace] at h ⊢
    rw [quantifierLength_keep hd hy, h]
    intro m hm
    rw [hm] at h
    obtain ⟨-, rfl⟩ := Prod.mk.inj h
    exact hn

end

end Lexer

end Splice
