import Splice.Text

/-!
# Deferred reference markers

A builder may refer to a group of the pattern it will be embedded in before
the numbering of that pattern is known. It writes a marker: a group that can
never match, tagged with the number of assemblies that still have to pass
(`depth`) and with the group's number inside the last of them (`index`).

`render` writes a marker and `parse?` reads one back; both numbers are below
`wordLimit`.
-/

namespace Splice

/-- A reference to group `index`, resolved after `depth` more assemblies. -/
structure Marker where
  depth : Nat
  index : Nat
  deriving DecidableEq, Repr

namespace Marker

/-- The part of a marker between its parenthesis and its depth. -/
def opening : Text := "?:$ ^d:".toList

/-- The part of a marker between its depth and its index. -/
def middle : Text := ",n:".toList

def render (m : Marker) : Text :=
  '(' :: opening ++ Text.decimal m.depth ++ middle ++ Text.decimal m.index ++ [')']

/-- The decimal numeral at the start of a text, with its length. Fails without
a digit and on numbers from `wordLimit` up. -/
def numeral? (t : Text) : Option (Nat × Nat) :=
  match Text.leadingDigits t with
  | [] => none
  | digits =>
    let value := Text.digitsValue digits
    if value < wordLimit then some (value, digits.length) else none

/-- What follows `lead` in a text that starts with it. -/
def after? (lead t : Text) : Option Text :=
  if lead.isPrefixOf t then some (t.drop lead.length) else none

/-- Reads a marker whose opening parenthesis is already consumed, with the
number of characters it still takes. -/
def tail? (t : Text) : Option (Marker × Nat) := do
  let t ← after? opening t
  let (depth, depthLength) ← numeral? t
  let t ← after? middle (t.drop depthLength)
  let (index, indexLength) ← numeral? t
  match t.drop indexLength with
  | ')' :: _ =>
    some (⟨depth, index⟩, opening.length + depthLength + middle.length + indexLength + 1)
  | _ => none

def parse? : Text → Option Marker
  | '(' :: t =>
    match tail? t with
    | some (marker, length) => if length = t.length then some marker else none
    | none => none
  | _ => none

end Marker

end Splice
