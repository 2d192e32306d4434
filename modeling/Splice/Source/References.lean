import Splice.Token.Lexer
import Splice.Word

/-!
# Back references of a source

Numeric back references and markers name groups by number, so they change when
a source is placed behind other groups. `references` finds them, `renumber`
shifts them and moves markers one assembly outward.
-/

namespace Splice

/-- Whether a source refers to groups, and whether a reference ends it. A digit
written behind a final reference would be read as part of its number. -/
structure References where
  present : Bool
  final : Bool
  deriving DecidableEq, Repr

def References.none : References := ⟨false, false⟩

/-- The highest group number that a back reference can name. -/
def maxBackReference : Nat := 99

def backReference (number : Nat) : Except Error Text :=
  if number > maxBackReference then .error (.tooManyBackReferences number)
  else .ok ('\\' :: Text.decimal number)

/-- A reference to the group that lies `offset` groups behind another. -/
def shiftedReference (offset : Word) (number : Nat) : Except Error Text := do
  let shifted ← Word.add offset number
  backReference shifted.toNat

/-- A group that no reference can name is reported if its number is a word. -/
theorem shiftedReference_eq (offset : Word) (n : Nat) : shiftedReference offset n =
    if maxBackReference < n + offset.toNat then
      .error (if n + offset.toNat < wordLimit then .tooManyBackReferences (n + offset.toNat)
        else .overflow)
    else .ok ('\\' :: Text.decimal (n + offset.toNat)) := by
  unfold shiftedReference
  cases h : Word.add offset n with
  | ok shifted =>
    have hsum : shifted.toNat = n + offset.toNat := by
      rw [Word.add_eq_ok.mp h, Nat.add_comm]
    have hfits := Word.toNat_lt shifted
    rw [hsum] at hfits
    show backReference shifted.toNat = _
    rw [hsum, if_pos hfits]
    rfl
  | error e =>
    obtain ⟨hlarge, rfl⟩ := Word.add_eq_error.mp h
    rw [Nat.add_comm] at hlarge
    have hfar : maxBackReference < n + offset.toNat := Nat.lt_of_lt_of_le (by decide) hlarge
    rw [if_pos hfar, if_neg (Nat.not_lt.mpr hlarge)]
    rfl

/-- The text of a token once its source stands behind `offset` more groups. A
marker of depth zero becomes a reference to its own index. -/
def Token.renumber (offset : Word) (t : Token) : Except Error Text :=
  match t.operator? with
  | some (.escape (.backReference number)) => shiftedReference offset number
  | some (.groupOpen (.deferred ⟨0, index⟩)) =>
    if index = 0 then .error (.invalidBackReference index) else backReference index
  | some (.groupOpen (.deferred ⟨depth + 1, index⟩)) => .ok (Marker.render ⟨depth, index⟩)
  | _ => .ok t.text

namespace Source

def references (source : Text) : References :=
  let tokens := lex source
  ⟨tokens.any Token.isReference, tokens.getLast?.any Token.isReference⟩

def renumber (source : Text) (offset : Word) : Except Error Text := do
  let texts ← (lex source).mapM (Token.renumber offset)
  return texts.flatten

end Source

end Splice
