import Splice.Grammar.Escape

/-!
# Character classes of the pattern grammar

A class lists characters, ranges and sets between brackets. A range of two
single characters has to be in order. A set cannot bound a range: wide mode
rejects that, narrow mode reads the dash as a character.
-/

namespace Splice.Grammar

inductive ClassAtom
  | single (code : Nat)
  | set
  deriving DecidableEq, Repr

/-- The atom behind a backslash, with its length. In narrow mode a `\c` that
names no control character is a lone backslash, and the `c` is read next. -/
def classEscape? (wide : Bool) (c : Char) (rest : Text) : Option (ClassAtom × Nat) :=
  if c = 'b' then some (.single 8, 1)
  else if wide && c == '-' then some (.single c.toNat, 1)
  else if !wide && c == 'c' then
    match rest with
    | d :: _ =>
      if d.isAlphanum || d == '_' then some (.single (d.toNat % 32), 2)
      else some (.single '\\'.toNat, 0)
    | [] => some (.single '\\'.toNat, 0)
  else if isShorthand c then some (.set, 1)
  else if wide && (c == 'p' || c == 'P') then
    (propertyLength? rest).map fun length => (.set, length + 1)
  else (characterEscape? wide c rest).map fun (code, length) => (.single code, length)

/-- The atom that starts with a character, with the number of characters taken
behind it. -/
def classAtom? (wide : Bool) (c : Char) (rest : Text) : Option (ClassAtom × Nat) :=
  if c = '\\' then
    match rest with
    | [] => none
    | d :: rest => classEscape? wide d rest
  else some (.single c.toNat, 0)

/-- Whether two atoms may stand on both sides of a dash. -/
def rangeAllowed (wide : Bool) : ClassAtom → ClassAtom → Bool
  | .single low, .single high => low ≤ high
  | _, _ => !wide

/-- The atom or range that starts with a character, with the number of
characters taken behind it. A dash before the closing bracket is left to be
read as an atom. -/
def classRange? (wide : Bool) (c : Char) (rest : Text) : Option Nat := do
  let (first, length) ← classAtom? wide c rest
  match rest.drop length with
  | '-' :: d :: after =>
    if d = ']' then return length
    else
      let (last, more) ← classAtom? wide d after
      if rangeAllowed wide first last then return length + more + 2 else none
  | _ => return length

/-- Length of the members of a class and its closing bracket. -/
def classMembers? (wide : Bool) : Text → Option Nat
  | [] => none
  | c :: rest =>
    if c = ']' then some 1
    else
      match classRange? wide c rest with
      | some extra => (classMembers? wide (rest.drop extra)).map (· + extra + 1)
      | none => none
termination_by t => t.length
decreasing_by exact Text.length_drop_lt ..

/-- Length of a class behind its opening bracket. -/
def classLength? (wide : Bool) : Text → Option Nat
  | '^' :: rest => (classMembers? wide rest).map (· + 1)
  | t => classMembers? wide t

end Splice.Grammar
