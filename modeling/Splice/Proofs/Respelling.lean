import Splice.Proofs.Joining

/-!
# Respelled sources

Promotion, emulation and renumbering replace the text of some tokens and are
read again afterwards. A token in front of a replaced one is read as before,
because what it could take is complete and every new spelling begins with a
character that no construct takes. This module has the steps from which each
rewriting is followed through a source (`Respells`).
-/

namespace Splice

open Lexer

-- ---------------------------------------------------------------------------
-- Tokens as they are read
-- ---------------------------------------------------------------------------

/-- Tokens that are read from a context on, each in front of the next ones. -/
inductive Lexed : Context → List Token → Prop
  | nil {context : Context} : Lexed context []
  | cons {context : Context} {c : Char} {r : Text} {k : TokenKind} {ts : List Token}
      (read : scan context c (r ++ untokenize ts) = (k, r.length))
      (rest : Lexed (contextAfter context k) ts) : Lexed context (⟨k, c :: r, context⟩ :: ts)

variable {context : Context} {c : Char} {k : TokenKind} {r s : Text} {ts us : List Token}

theorem lexed_lexFrom (context : Context) (s : Text) : Lexed context (lexFrom context s) := by
  fun_induction lexFrom context s with
  | case1 => exact .nil
  | case2 context c rest kind n hs ih =>
    have hn : n ≤ rest.length := by
      have := scan_length_le context c rest
      rwa [hs] at this
    refine .cons ?_ ih
    rw [untokenize_lexFrom, List.take_append_drop, hs, List.length_take_of_le hn]

theorem Lexed.eq (h : Lexed context ts) : lexFrom context (untokenize ts) = ts := by
  induction h with
  | nil => exact lexFrom_nil _
  | @cons context c r k ts read rest ih =>
    have ht : untokenize (⟨k, c :: r, context⟩ :: ts) = c :: (r ++ untokenize ts) := rfl
    rw [ht, lexFrom_cons, read, List.take_left, List.drop_left, ih]

theorem Lexed.nil_iff (h : Lexed context ts) : ts = [] ↔ untokenize ts = [] := by
  cases h with
  | nil => simp [untokenize]
  | cons read rest => simp [untokenize]

theorem Lexed.behind {front : List Token} (h : Lexed context (front ++ ts)) :
    Lexed (Source.contextBehind context front) ts := by
  induction front generalizing context with
  | nil => exact h
  | cons t front ih =>
    cases h with
    | cons _ rest => exact ih rest

theorem scan_digit (hc : c.isDigit) : scan context c r = (.char, 0) := by
  have hr : ∀ x : Char, x.isDigit = false → c ≠ x := by
    rintro x hx rfl
    simp [hx] at hc
  unfold scan
  split <;> first
    | exact absurd rfl (hr _ (by decide))
    | rfl

theorem Lexed.outlineAt (h : Lexed context ts) (fine : Bool) :
    Lexer.outlineAt fine context (untokenize ts) = outlineFrom fine context ts := by
  rw [Lexer.outlineAt, h.eq]

-- ---------------------------------------------------------------------------
-- Texts that differ from a new spelling on
-- ---------------------------------------------------------------------------

/-- Two texts that agree up to where both end, or up to a place where the first
goes on with no digit and the second with a character that no construct takes. -/
def Parallel (old new : Text) : Prop :=
  ∃ w y z, old = w ++ y ∧ new = w ++ z ∧ (y = [] ↔ z = []) ∧
    y.head?.any Char.isDigit = false ∧ Breaks z

theorem Parallel.nil : Parallel [] [] := ⟨[], [], [], rfl, rfl, Iff.rfl, rfl, by simp [Breaks]⟩

theorem Parallel.append {old new : Text} (h : Parallel old new) (t : Text) :
    Parallel (t ++ old) (t ++ new) := by
  obtain ⟨w, y, z, rfl, rfl, he, hy, hz⟩ := h
  exact ⟨t ++ w, y, z, by simp, by simp, he, hy, hz⟩

theorem Parallel.nil_iff {old new : Text} (h : Parallel old new) : new = [] ↔ old = [] := by
  obtain ⟨w, y, z, rfl, rfl, he, -, -⟩ := h
  simp only [List.append_eq_nil_iff, he]

theorem Parallel.sequel {old new : Text} (h : Parallel old new) : Sequel.of new = .of old := by
  obtain ⟨w, y, z, rfl, rfl, he, hy, hz⟩ := h
  cases w with
  | cons c w => rfl
  | nil =>
    cases y with
    | nil => rw [he.mp rfl]
    | cons a y =>
      cases z with
      | nil => simp at he
      | cons b z =>
        have ha : a.isDigit = false := by simpa using hy
        have hb : b.isDigit = false := by simpa using hz.not_digit
        simp [Sequel.of, ha, hb]

/-- Tokens `us` that are read once the tokens `ts` are respelled. -/
structure Respells (context : Context) (ts us : List Token) : Prop where
  lexed : Lexed context us
  parallel : Parallel (untokenize ts) (untokenize us)

namespace Respells

theorem nil : Respells context [] [] := ⟨.nil, .nil⟩

theorem digit (h : Respells context ts us) :
    (untokenize us).head?.any Char.isDigit = (untokenize ts).head?.any Char.isDigit := by
  rw [Bool.eq_iff_iff, ← Sequel.of_eq_digit, ← Sequel.of_eq_digit, h.parallel.sequel]

theorem keep (read : scan context c (r ++ untokenize ts) = (k, r.length))
    (whole : (⟨k, c :: r, context⟩ : Token).isWhole)
    (rest : Respells (contextAfter context k) ts us) :
    Respells context (⟨k, c :: r, context⟩ :: ts) (⟨k, c :: r, context⟩ :: us) := by
  obtain ⟨lexed, parallel⟩ := rest
  obtain ⟨w, y, z, hts, hus, he, hy, hz⟩ := parallel
  refine ⟨.cons ?_ lexed, .append ⟨w, y, z, hts, hus, he, hy, hz⟩ _⟩
  rw [hts, ← List.append_assoc] at read
  rw [hus, ← List.append_assoc]
  exact scan_keep read (by simp) (by simpa using whole) hy hz

theorem patch {old new : List Token} (lexed : Lexed context (new ++ us))
    (head : ∃ a t, untokenize old = a :: t ∧ a.isDigit = false)
    (breaks : ∃ a t, untokenize new = a :: t ∧ (a = '\\' ∨ a = '[' ∨ a = '(')) :
    Respells context (old ++ ts) (new ++ us) := by
  obtain ⟨a, t, hold, ha⟩ := head
  obtain ⟨b, v, hnew, hb⟩ := breaks
  refine ⟨lexed, [], a :: t ++ untokenize ts, b :: v ++ untokenize us, ?_, ?_, ?_, ?_, ?_⟩
  · rw [untokenize_append, hold, List.nil_append]
  · rw [untokenize_append, hnew, List.nil_append]
  · simp
  · simpa using ha
  · simpa [Breaks] using hb

theorem renew {a b : Token} (lexed : Lexed .pattern (b :: us))
    (head : ∃ c t, a.text = c :: t ∧ c.isDigit = false)
    (breaks : ∃ c t, b.text = c :: t ∧ (c = '\\' ∨ c = '[' ∨ c = '(')) :
    Respells .pattern (a :: ts) (b :: us) := by
  have h : Respells .pattern ([a] ++ ts) ([b] ++ us) :=
    .patch lexed (by simpa [untokenize] using head) (by simpa [untokenize] using breaks)
  exact h

end Respells

end Splice
