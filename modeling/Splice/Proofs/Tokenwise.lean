import Splice.Proofs.Patching
import Splice.Proofs.Renumbering

/-!
# Renumbering token by token

Renumbering replaces references and markers and copies every other token. Its
result is read as the replaced tokens, one for one. Two things could stand in
the way. A reference of one digit that a marker leaves takes a digit behind it
(`swallows`). A name that lacks its end would get one if a marker behind it
disappeared with its parentheses, so no marker may follow such a name; a
reference behind it only gets other digits (`Shifted`).
-/

namespace Splice

open Lexer

variable {context : Context} {c : Char} {k : TokenKind} {g : GroupOpener} {r s t old new : Text}
  {ts us : List Token} {n : Nat} {offset : Word} {a : Token}

-- ---------------------------------------------------------------------------
-- Numerals of references
-- ---------------------------------------------------------------------------

theorem Text.digitChar_digit {c : Char} (h : c.isDigit) : Nat.digitChar (Lexer.digit c) = c := by
  simp only [Char.isDigit, Bool.and_eq_true, decide_eq_true_eq] at h
  have hl : 48 ≤ c.toNat := h.1
  have hu : c.toNat ≤ 57 := h.2
  have hdigit : ∀ n, 48 ≤ n → n ≤ 57 → Nat.digitChar (n - 48) = Char.ofNat n := by decide
  rw [Lexer.digit, show '0'.toNat = 48 from rfl, hdigit _ hl hu, Char.ofNat_toNat]

theorem Text.digit_lt {c : Char} (h : c.isDigit) : Lexer.digit c < 10 := by
  simp only [Char.isDigit, Bool.and_eq_true, decide_eq_true_eq] at h
  have hu : c.toNat ≤ 57 := h.2
  rw [Lexer.digit, show '0'.toNat = 48 from rfl]
  omega

theorem Text.decimal_digit {c : Char} (h : c.isDigit) : decimal (Lexer.digit c) = [c] := by
  rw [decimal, Nat.toDigits_of_lt_base (digit_lt h), digitChar_digit h]

theorem Text.decimal_concat (hn : 0 < n) (hc : c.isDigit) :
    decimal (10 * n + Lexer.digit c) = decimal n ++ [c] := by
  rw [decimal, ← Nat.toDigits_append_toDigits (by decide) hn (digit_lt hc)]
  exact congrArg (decimal n ++ ·) (decimal_digit hc)

theorem Text.decimal_digits {c d : Char} (hc : c.isDigit) (h0 : c ≠ '0') (hd : d.isDigit) :
    decimal (10 * Lexer.digit c + Lexer.digit d) = [c, d] := by
  rw [decimal_concat (digit_pos hc h0) hd, decimal_digit hc]
  rfl

theorem Lexer.text_of_scan_reference {r : Text} {n : Nat}
    (h : scan .pattern '\\' (r ++ t) = (.escape (.backReference n), r.length)) :
    r = Text.decimal n ∧ n ≤ maxBackReference := by
  have taken : ∀ {c v}, r ++ t = c :: v → c.isDigit ∧ c ≠ '0' ∧
      scanReference c v = (.backReference n, r.length) := by
    intro c v hv
    rw [hv, scan_escape, Prod.mk.injEq, TokenKind.escape.injEq] at h
    have hc : c.isDigit := by
      by_contra hc
      exact scanEscape_ne_backReference (by simpa using hc) h.1
    have h0 : c ≠ '0' := by
      rintro rfl
      have hzero : (scanEscape '0' v).1 ≠ .backReference n := by
        simp only [scanEscape, scanZero]
        split <;> simp <;> split <;> simp
      exact hzero h.1
    refine ⟨hc, h0, ?_⟩
    simp only [scanEscape, hc, h0, if_true, if_false] at h
    exact Prod.ext h.1 h.2
  cases r with
  | nil =>
    cases t with
    | nil => simp [scan] at h
    | cons c v =>
      obtain ⟨-, -, hs⟩ := taken rfl
      cases v with
      | nil => simp [scanReference] at hs
      | cons d v => by_cases hd : d.isDigit <;> simp [scanReference, hd] at hs
  | cons c r =>
    obtain ⟨hc, h0, hs⟩ := taken rfl
    cases r with
    | nil =>
      have hn : n = digit c := by
        cases t with
        | nil => simpa [scanReference, eq_comm] using hs
        | cons d t => by_cases hd : d.isDigit <;> simp_all [scanReference]
      have hlt := Text.digit_lt hc
      exact ⟨by rw [hn, Text.decimal_digit hc], by simp only [maxBackReference]; omega⟩
    | cons d r =>
      by_cases hd : d.isDigit
      · have hs : n = 10 * digit c + digit d ∧ r = [] := by
          simpa [scanReference, hd, eq_comm] using hs
        have hlt := Text.digit_lt hc
        have hlt' := Text.digit_lt hd
        refine ⟨by rw [hs.1, hs.2, Text.decimal_digits hc h0 hd], ?_⟩
        simp only [maxBackReference]
        omega
      · simp [scanReference, hd] at hs

-- ---------------------------------------------------------------------------
-- Numbers behind a name that lacks its end
-- ---------------------------------------------------------------------------

/-- Texts that differ in nothing but the digits behind some backslashes. -/
inductive Shifted : Text → Text → Prop
  | nil : Shifted [] []
  | cons {old new : Text} (c : Char) (rest : Shifted old new) : Shifted (c :: old) (c :: new)
  | number {x y old new : Text} (hx : ∀ c ∈ x, c.isDigit) (hy : ∀ c ∈ y, c.isDigit)
      (rest : Shifted old new) : Shifted ('\\' :: (x ++ old)) ('\\' :: (y ++ new))

theorem Shifted.append (h : Shifted old new) (t : Text) : Shifted (t ++ old) (t ++ new) := by
  induction t with
  | nil => exact h
  | cons c t ih => exact .cons c ih

theorem Shifted.head? (h : Shifted old new) : new.head? = old.head? := by cases h <;> rfl

theorem Shifted.nil_eq (h : Shifted [] new) : new = [] := by cases h; rfl

theorem Shifted.of_cons (h : Shifted old (c :: new)) (hc : c ≠ '\\') :
    ∃ rest, old = c :: rest ∧ Shifted rest new := by
  cases h with
  | cons _ rest => exact ⟨_, rfl, rest⟩
  | number => exact absurd rfl hc

theorem not_isNameEnd_of_isDigit (h : c.isDigit) : isNameEnd c = false := by
  simp only [isNameEnd, Bool.or_eq_false_iff, beq_eq_false_iff_ne]
  refine ⟨⟨⟨?_, ?_⟩, ?_⟩, ?_⟩ <;> rintro rfl <;> simp at h

theorem find?_isNameEnd_digits {x : Text} (hx : ∀ c ∈ x, c.isDigit) (t : Text) :
    (x ++ t).find? isNameEnd = t.find? isNameEnd := by
  have hnone : x.find? isNameEnd = none :=
    List.find?_eq_none.mpr fun c hc => by simp [not_isNameEnd_of_isDigit (hx c hc)]
  rw [List.find?_append, hnone, Option.none_or]

theorem Shifted.find? (h : Shifted old new) :
    new.find? isNameEnd = old.find? isNameEnd := by
  induction h with
  | nil => rfl
  | cons c _ ih => rw [List.find?_cons, List.find?_cons, ih]
  | number hx hy _ ih =>
    rw [List.find?_cons, List.find?_cons, find?_isNameEnd_digits hx, find?_isNameEnd_digits hy, ih]

theorem Shifted.nameLength? (h : Shifted old new) (hold : Lexer.nameLength? old = none) :
    Lexer.nameLength? new = none := by
  have hsome : (Lexer.nameLength? new).isSome = (Lexer.nameLength? old).isSome := by
    rw [Bool.eq_iff_iff, nameLength?_isSome, nameLength?_isSome, h.find?, h.head?]
  simpa [hold] using hsome

theorem Shifted.withholds (h : Shifted old new) : Withholds old new where
  nil := by
    rintro rfl
    exact h.nil_eq
  angle v := by
    rintro rfl
    obtain ⟨u, rfl, hrest⟩ := h.of_cons (by decide)
    exact ⟨u, rfl, hrest.nameLength?⟩
  name := h.nameLength?
  lookbehind hold := h.head?.symm ▸ hold

-- ---------------------------------------------------------------------------
-- Renumbered tokens
-- ---------------------------------------------------------------------------

/-- Whether some tokens begin with a marker that is resolved to a reference of
one digit, and go on with a digit. -/
def swallows : List Token → Bool
  | a :: b :: _ => a.resolved?.any (· ≤ 9) && b.text.head?.any Char.isDigit
  | _ => false

/-- Behind a token whose end is missing there is no marker. -/
def Patient (ts : List Token) : Prop :=
  ∀ a us, a :: us <:+ ts → a.isWhole ∨ ∀ b ∈ us, b.isMarker = false

theorem untokenize_renumbered {texts : List Text}
    (h : ts.mapM (Token.renumber offset) = .ok texts) :
    untokenize (ts.map (Token.renumbered offset)) = texts.flatten := by
  induction ts generalizing texts with
  | nil =>
    obtain rfl : texts = [] := by simpa [pure, Except.pure] using h.symm
    rfl
  | cons a ts ih =>
    obtain ⟨text, texts, ha, hts, rfl⟩ := mapM_cons_ok h
    rw [List.map_cons, untokenize_cons, ih hts, Token.text_renumbered ha, List.flatten_cons]

theorem Lexed.text_cons {b : Token} (h : Lexed context (b :: us)) :
    b.text.head? = (untokenize (b :: us)).head? := by
  cases h
  rfl

theorem Lexed.not_digit (h : Lexed context us) (hs : swallows (a :: us) = false)
    (ha : a.resolved? = some n) (h9 : n ≤ 9) : (untokenize us).head?.any Char.isDigit = false := by
  cases us with
  | nil => rfl
  | cons b us => simpa [swallows, ha, h9, h.text_cons] using hs

theorem Lexed.shifted (h : Lexed context ts) (hm : ∀ a ∈ ts, a.isMarker = false) (offset : Word) :
    Shifted (untokenize ts) (untokenize (ts.map (Token.renumbered offset))) := by
  induction h with
  | nil => exact .nil
  | @cons context c r k ts read _ ih =>
    rw [List.forall_mem_cons] at hm
    rw [List.map_cons]
    obtain ha | ⟨n, text, ha⟩ | ⟨index, text, ha⟩ | ⟨depth, index, text, ha⟩ :=
      Token.renumbered_cases ⟨k, c :: r, context⟩
    · rw [(ha offset).1]
      exact (ih hm.2).append (c :: r)
    · obtain ⟨rfl, rfl, rfl⟩ := Token.mk.inj ha
      obtain rfl : c = '\\' := of_scan read rfl
      rw [(text_of_scan_reference read).1]
      exact .number (fun _ => Text.isDigit_of_mem_decimal) (fun _ => Text.isDigit_of_mem_decimal)
        (ih hm.2)
    · rw [ha] at hm
      cases hm.1
    · rw [ha] at hm
      cases hm.1

theorem Token.renumbered_of_torn (ha : a.isWhole = false) : a.renumbered offset = a := by
  obtain hkept | ⟨n, text, rfl⟩ | ⟨index, text, rfl⟩ | ⟨depth, index, text, rfl⟩ :=
    a.renumbered_cases
  · exact (hkept offset).1
  · cases ha
  · cases ha
  · cases ha

theorem Lexed.renumbered {texts : List Text} (h : Lexed context ts)
    (hr : ts.mapM (Token.renumber offset) = .ok texts)
    (hs : ∀ us, us <:+ ts → swallows us = false) (hp : Patient ts) :
    Respells context ts (ts.map (Token.renumbered offset)) := by
  induction h generalizing texts with
  | nil => exact .nil
  | @cons context c r k ts read rest ih =>
    obtain ⟨text, texts, ht, hts, rfl⟩ := mapM_cons_ok hr
    have hsuffix : ∀ {us}, us <:+ ts → us <:+ ⟨k, c :: r, context⟩ :: ts :=
      fun hus => hus.trans (List.suffix_cons _ ts)
    have hus := ih hts (fun us h => hs us (hsuffix h)) fun a us h => hp a us (hsuffix h)
    rw [List.map_cons]
    cases hw : (⟨k, c :: r, context⟩ : Token).isWhole with
    | true =>
      exact hus.renumbered read hw ht fun _ hresolved h9 =>
        rest.not_digit (hs _ (List.suffix_refl _)) hresolved h9
    | false =>
      -- The token is copied, and only numbers change behind it: its end stays missing.
      have hm := (hp _ ts (List.suffix_refl _)).resolve_left (by simp [hw])
      rw [Token.renumbered_of_torn hw]
      exact ⟨.cons (scan_torn read hw (rest.shifted hm offset).withholds) hus.lexed,
        hus.parallel.append (c :: r)⟩

namespace Source

/-- Whether a marker of a source is resolved to a reference of one digit that
takes a digit behind it. -/
def swallows (s : Text) : Bool := (lex s).tails.any Splice.swallows

theorem lex_of_renumber (hr : renumber s offset = .ok t) (hs : swallows s = false)
    (hp : Patient (lex s)) : lex t = (lex s).map (Token.renumbered offset) := by
  obtain ⟨texts, htexts, rfl⟩ := renumber_ok hr
  have hswallows : ∀ us, us <:+ lex s → Splice.swallows us = false := fun us hus => by
    simpa using List.any_eq_false.mp hs us ((List.mem_tails us (lex s)).mpr hus)
  have hlexed := ((lexed_lexFrom .pattern s).renumbered htexts hswallows hp).lexed
  rw [← untokenize_renumbered htexts]
  exact hlexed.eq

/-- Renumbering a closed source changes its references and markers and nothing else. -/
theorem lex_renumbered (h : Closed s) (hs : swallows s = false)
    (hr : renumber s offset = .ok t) : lex t = (lex s).map (Token.renumbered offset) :=
  lex_of_renumber hr hs fun a _ hus => .inl (h.whole a (hus.subset List.mem_cons_self))

theorem lex_renumbered_mixed :
    let s : Text := "(a)\\1[\\1](?:$ ^d:0,n:2)(?<x>(?:$ ^d:1,n:3)4)\\k<x>\x7b2\x7d".toList
    let t : Text := "(a)\\9[\\1]\\2(?<x>(?:$ ^d:0,n:3)4)\\k<x>\x7b2\x7d".toList
    Closed s ∧ swallows s = false ∧ renumber s 8 = .ok t ∧
      lex t = (lex s).map (Token.renumbered 8) := by
  intro s t
  have hclosed : Closed s := by decide +kernel
  have hswallows : swallows s = false := by decide +kernel
  have hrenumber : renumber s 8 = .ok t := by decide +kernel
  exact ⟨hclosed, hswallows, hrenumber, lex_renumbered hclosed hswallows hrenumber⟩

-- The reference `\1` takes the digit behind the marker that it replaces.
example : renumber "(?:$ ^d:0,n:1)2".toList 0 = .ok "\\12".toList ∧
    lex "\\12".toList = [referenceToken 12] := by decide +kernel

end Source

end Splice
