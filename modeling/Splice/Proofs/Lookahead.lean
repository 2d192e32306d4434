import Mathlib
import Splice.Token.Lexer

/-!
# Constructs that need look-ahead

Numerals, names, properties and markers are recognized by looking ahead. Every
reader of such a construct recognizes exactly the texts of one form at the
start of what it is given (`Reads`). What stands behind a construct therefore
never matters once it is read, and a construct that only a longer text
completes takes up all of the shorter one.
-/

namespace Splice.Lexer

variable {α : Type}

-- ---------------------------------------------------------------------------
-- Readers of one form
-- ---------------------------------------------------------------------------

/-- A reader that answers `a` exactly where a text of the form `Form a` stands
at the start, and `length a` is the length of that text. -/
structure Reads (reader : Text → Option α) (length : α → Nat) (Form : α → Text → Prop) : Prop where
  some_iff : ∀ t a, reader t = some a ↔ ∃ body rest, t = body ++ rest ∧ Form a body
  length_eq : ∀ a body, Form a body → body.length = length a

theorem forall_mem_of_all {P : Char → Prop} [DecidablePred P] {t : Text}
    (h : t.all fun c => decide (P c)) : ∀ c ∈ t, P c := by
  simpa using h

/-- Characters that a construct can take from the text behind its beginning. -/
def isSoft (c : Char) : Bool :=
  c.isAlphanum || c == '_' || c == '=' || c == ',' || c == '{' || c == '}'

/-- All of `u` and some characters of `y` are taken up as `n` characters of one
construct. No character of `y` is taken where a digit only ends the construct. -/
def Absorbs (u y : Text) (n : Nat) : Prop :=
  ∃ m, n = u.length + m ∧ m ≤ y.length ∧ (0 < m ∨ y.head?.any Char.isDigit) ∧
    (∀ c ∈ u, isSoft c) ∧ ∀ c ∈ y.take m, isSoft c

namespace Reads

variable {reader : Text → Option α} {length : α → Nat} {Form : α → Text → Prop}
  {a : α} {t u y : Text}

theorem length_le (hr : Reads reader length Form) (h : reader t = some a) :
    length a ≤ t.length := by
  obtain ⟨body, rest, rfl, hf⟩ := (hr.some_iff _ _).mp h
  simp [← hr.length_eq a body hf]

theorem append (hr : Reads reader length Form) (h : reader u = some a) :
    reader (u ++ y) = some a := by
  obtain ⟨body, rest, rfl, hf⟩ := (hr.some_iff _ _).mp h
  exact (hr.some_iff _ _).mpr ⟨body, rest ++ y, by simp, hf⟩

theorem of_append (hr : Reads reader length Form) (h : reader (u ++ y) = some a)
    (hl : length a ≤ u.length) : reader u = some a := by
  obtain ⟨body, rest, he, hf⟩ := (hr.some_iff _ _).mp h
  have hb : body.length ≤ u.length := by rw [hr.length_eq a body hf]; exact hl
  have hu : u = body ++ u.drop body.length := by
    have := congrArg (List.take body.length) he
    rw [List.take_append_of_le_length hb, List.take_left] at this
    rw [← this, List.length_take_of_le hb, List.take_append_drop]
  exact (hr.some_iff _ _).mpr ⟨body, _, hu, hf⟩

theorem body_eq (hr : Reads reader length Form) (hu : reader u = none)
    (h : reader (u ++ y) = some a) :
    ∃ m, length a = u.length + m ∧ 0 < m ∧ m ≤ y.length ∧ Form a (u ++ y.take m) := by
  obtain ⟨body, rest, he, hf⟩ := (hr.some_iff _ _).mp h
  have hl := hr.length_eq a body hf
  have hlt : u.length < body.length := by
    by_contra hle
    have := hr.of_append h (by omega)
    simp [hu] at this
  have hle : body.length ≤ u.length + y.length := by
    have := congrArg List.length he
    simp only [List.length_append] at this
    omega
  refine ⟨body.length - u.length, by omega, by omega, by omega, ?_⟩
  have hb : body = u ++ y.take (body.length - u.length) := by
    have := congrArg (List.take body.length) he
    rw [List.take_left, List.take_append, List.take_of_length_le (by omega)] at this
    exact this.symm
  rwa [← hb]

/-- Added text changes nothing, or it completes a construct of soft characters
that takes up everything before it. -/
theorem append_or (hr : Reads reader length Form)
    (hs : ∀ a body, Form a body → ∀ c ∈ body, isSoft c) (u y : Text) :
    reader (u ++ y) = reader u ∨
      reader u = none ∧ ∃ a, reader (u ++ y) = some a ∧ Absorbs u y (length a) := by
  cases hu : reader u with
  | some a => exact .inl (hr.append hu)
  | none =>
    cases h : reader (u ++ y) with
    | none => exact .inl rfl
    | some a =>
      obtain ⟨m, hl, hm, hle, hf⟩ := hr.body_eq hu h
      have hc := hs a _ hf
      refine .inr ⟨rfl, a, rfl, m, hl, hle, .inl hm, ?_, ?_⟩
      · exact fun c h => hc c (List.mem_append_left _ h)
      · exact fun c h => hc c (List.mem_append_right _ h)

end Reads

-- ---------------------------------------------------------------------------
-- Runs of characters
-- ---------------------------------------------------------------------------

theorem takeWhile_append_cons {p : Char → Bool} {l r : Text} {c : Char} (hl : ∀ x ∈ l, p x)
    (hc : p c = false) : (l ++ c :: r).takeWhile p = l := by
  rw [List.takeWhile_append_of_pos hl, List.takeWhile_cons_of_neg (by simp [hc]), List.append_nil]

theorem takeWhile_append_drop_length (p : Char → Bool) (t : Text) :
    t.takeWhile p ++ t.drop (t.takeWhile p).length = t := by
  have h := List.take_append_drop (t.takeWhile p).length t
  rwa [← List.prefix_iff_eq_take.mp (List.takeWhile_prefix p)] at h

theorem eq_run_of_head? {p : Char → Bool} {stop : Char} {t : Text}
    (h : (t.drop (t.takeWhile p).length).head? = some stop) :
    t = t.takeWhile p ++ stop :: t.drop ((t.takeWhile p).length + 1) := by
  obtain ⟨c, r, hd⟩ : ∃ c r, t.drop (t.takeWhile p).length = c :: r := by
    cases hd : t.drop (t.takeWhile p).length with
    | nil => simp [hd] at h
    | cons c r => exact ⟨c, r, rfl⟩
  rw [hd, List.head?_cons, Option.some.injEq] at h
  subst h
  have hsplit := takeWhile_append_drop_length p t
  rw [hd] at hsplit
  have hr : t.drop ((t.takeWhile p).length + 1) = r := by
    rw [← List.drop_drop, hd, List.drop_one, List.tail_cons]
  rw [hr]
  exact hsplit.symm

theorem all_takeWhile {p : Char → Bool} {t : Text} : ∀ c ∈ t.takeWhile p, p c :=
  fun _ h => List.mem_takeWhile_imp h

def runLength? (p : Char → Bool) (stop : Char) (t : Text) : Option Nat :=
  match t.takeWhile p with
  | [] => none
  | run => if (t.drop run.length).head? = some stop then some (run.length + 1) else none

def Run (p : Char → Bool) (stop : Char) (n : Nat) (body : Text) : Prop :=
  ∃ run, run ≠ [] ∧ (∀ c ∈ run, p c) ∧ body = run ++ [stop] ∧ n = body.length

theorem reads_run {p : Char → Bool} {stop : Char} (hp : p stop = false) :
    Reads (runLength? p stop) id (Run p stop) := by
  refine ⟨fun t n => ⟨fun h => ?_, ?_⟩, fun n body ⟨_, _, _, _, hn⟩ => hn.symm⟩
  · unfold runLength? at h
    split at h
    · simp at h
    · rename_i hne
      split at h
      · rename_i hstop
        simp only [Option.some.injEq] at h
        refine ⟨t.takeWhile p ++ [stop], t.drop ((t.takeWhile p).length + 1), ?_,
          t.takeWhile p, hne, all_takeWhile, rfl, by simp [← h]⟩
        simpa using eq_run_of_head? hstop
      · simp at h
  · rintro ⟨_, rest, rfl, run, hne, hin, rfl, rfl⟩
    have hw : (run ++ stop :: rest).takeWhile p = run := takeWhile_append_cons hin hp
    rw [List.append_assoc, List.cons_append, List.nil_append]
    simp only [runLength?, hw]
    cases run with
    | nil => exact absurd rfl hne
    | cons c r => simp [List.drop_left']

-- ---------------------------------------------------------------------------
-- Braces, names and quantifiers
-- ---------------------------------------------------------------------------

def Braced (allowed : Char → Bool) (n : Nat) (body : Text) : Prop :=
  ∃ inside, inside ≠ [] ∧ (∀ c ∈ inside, allowed c) ∧ body = '{' :: inside ++ ['}'] ∧
    n = body.length

theorem bracedLength?_cons (allowed : Char → Bool) (body : Text) :
    bracedLength? allowed ('{' :: body) = (runLength? allowed '}' body).map (· + 1) := by
  rw [bracedLength?, runLength?]
  cases body.takeWhile allowed with
  | nil => rfl
  | cons c run =>
    simp only
    split <;> rfl

theorem reads_braced {allowed : Char → Bool} (ha : allowed '}' = false) :
    Reads (bracedLength? allowed) id (Braced allowed) := by
  refine ⟨fun t n => ⟨fun h => ?_, ?_⟩, fun n body ⟨_, _, _, _, hn⟩ => hn.symm⟩
  · obtain ⟨body, rfl⟩ : ∃ body, t = '{' :: body := by
      unfold bracedLength? at h
      split at h
      · exact ⟨_, rfl⟩
      · cases h
    rw [bracedLength?_cons, Option.map_eq_some_iff] at h
    obtain ⟨m, hm, rfl⟩ := h
    obtain ⟨_, rest, rfl, inside, hne, hin, rfl, rfl⟩ := ((reads_run ha).some_iff _ _).mp hm
    exact ⟨'{' :: inside ++ ['}'], rest, rfl, inside, hne, hin, rfl, rfl⟩
  · rintro ⟨_, rest, rfl, inside, hne, hin, rfl, rfl⟩
    have hrun : runLength? allowed '}' (inside ++ ['}'] ++ rest) = some (inside ++ ['}']).length :=
      ((reads_run ha).some_iff _ _).mpr ⟨_, rest, rfl, inside, hne, hin, rfl, rfl⟩
    rw [List.cons_append, List.cons_append, bracedLength?_cons, hrun]
    rfl

def Named (n : Nat) (body : Text) : Prop :=
  ∃ name, name ≠ [] ∧ (∀ c ∈ name, !isNameEnd c) ∧ body = name ++ ['>'] ∧ n = body.length

theorem reads_name : Reads nameLength? id Named := reads_run (by decide)

def Bounds (n : Nat) (body : Text) : Prop :=
  ∃ least, least ≠ [] ∧ (∀ c ∈ least, c.isDigit) ∧ n = body.length ∧
    (body = least ++ ['}'] ∨
      ∃ most, (∀ c ∈ most, c.isDigit) ∧ body = least ++ ',' :: most ++ ['}'])

theorem reads_quantifier : Reads quantifierLength? id Bounds := by
  refine ⟨fun t n => ⟨fun h => ?_, ?_⟩, fun n body ⟨_, _, _, hn, _⟩ => hn.symm⟩
  · unfold quantifierLength? at h
    split at h
    · simp at h
    · rename_i hne
      have hl : ∀ c ∈ Text.leadingDigits t, c.isDigit := all_takeWhile
      have hp : t = Text.leadingDigits t ++ t.drop (Text.leadingDigits t).length :=
        (takeWhile_append_drop_length Char.isDigit t).symm
      split at h
      · rename_i rest hd
        simp only [Option.some.injEq] at h
        rw [hd] at hp
        exact ⟨Text.leadingDigits t ++ ['}'], rest, by simpa using hp, _, hne, hl, by simp [← h],
          .inl rfl⟩
      · rename_i rest hd
        simp only at h
        split at h
        · rename_i hr
          simp only [Option.some.injEq] at h
          have hm : rest = Text.leadingDigits rest ++
              '}' :: rest.drop ((Text.leadingDigits rest).length + 1) := eq_run_of_head? hr
          rw [hd, hm] at hp
          refine ⟨Text.leadingDigits t ++ ',' :: Text.leadingDigits rest ++ ['}'],
            rest.drop ((Text.leadingDigits rest).length + 1), by simpa using hp, _, hne, hl, ?_,
            .inr ⟨_, all_takeWhile, rfl⟩⟩
          simp [← h]
          omega
        · simp at h
      · simp at h
  · rintro ⟨_, rest, rfl, least, hne, hl, rfl, hb⟩
    have hnil : ∀ r, Text.leadingDigits (least ++ r) = [] → False := by
      intro r h
      cases least with
      | nil => exact hne rfl
      | cons c l => simp [Text.leadingDigits, hl c (by simp)] at h
    rcases hb with rfl | ⟨most, hm, rfl⟩
    · have hw : Text.leadingDigits (least ++ '}' :: rest) = least :=
        takeWhile_append_cons hl (by decide)
      rw [List.append_assoc, List.cons_append, List.nil_append]
      unfold quantifierLength?
      split
      · rename_i h; exact (hnil _ h).elim
      · simp only [hw, List.drop_left]
        simp
    · have hw : Text.leadingDigits (least ++ ',' :: (most ++ '}' :: rest)) = least :=
        takeWhile_append_cons hl (by decide)
      have hw' : Text.leadingDigits (most ++ '}' :: rest) = most :=
        takeWhile_append_cons hm (by decide)
      have ht : least ++ ',' :: most ++ ['}'] ++ rest = least ++ ',' :: (most ++ '}' :: rest) := by
        simp
      rw [ht]
      unfold quantifierLength?
      split
      · rename_i h; exact (hnil _ h).elim
      · simp only [hw, List.drop_left, hw', List.head?_cons]
        simp
        omega

end Splice.Lexer
