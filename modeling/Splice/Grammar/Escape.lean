import Splice.Identifier
import Splice.UnicodeEscape

/-!
# Escapes of the pattern grammar

The character that an escape stands for in the grammar by which the engine
accepts patterns, and the names of groups. In narrow mode an escape without a
meaning stands for its own character; in wide mode it is an error. Readers
start behind the backslash, or at the place that their text names, and answer
how many characters they take.
-/

namespace Splice.Grammar

-- ---------------------------------------------------------------------------
-- Code points
-- ---------------------------------------------------------------------------

def maxCodePoint : Nat := 0x10FFFF

def isHighSurrogate (code : Nat) : Bool := 0xD800 ≤ code && code ≤ 0xDBFF

def isLowSurrogate (code : Nat) : Bool := 0xDC00 ≤ code && code ≤ 0xDFFF

def surrogatePair (high low : Nat) : Nat :=
  0x10000 + (high - 0xD800) * 0x400 + (low - 0xDC00)

/-- The low surrogate that four hexadecimal digits name. -/
def lowSurrogate? (t : Text) : Option Nat :=
  if 4 ≤ t.length then (Text.hexNumeral? (t.take 4)).filter isLowSurrogate else none

/-- The code point of an escape, read behind its `\u`. A high surrogate in four
digits joins with an escaped low surrogate behind it, and takes a `\u` that
stands behind it in any case. -/
def unicodeEscape? (t : Text) : Option (Nat × Nat) := do
  let (code, length) ← UnicodeEscape.code? t
  if maxCodePoint < code then none
  else if t.head? = some '{' || !isHighSurrogate code then some (code, length)
  else
    match t.drop length with
    | '\\' :: 'u' :: rest =>
      match lowSurrogate? rest with
      | some low => some (surrogatePair code low, length + 6)
      | none => some (code, length + 2)
    | _ => some (code, length)

-- ---------------------------------------------------------------------------
-- Characters
-- ---------------------------------------------------------------------------

/-- Characters that an escape may stand for in both modes. -/
def identityEscapes : Text := "^$\\.*+?()[]\x7b\x7d|/".toList

def hexPair? : Text → Option Nat
  | a :: b :: _ => Text.hexDigits? [a, b]
  | _ => none

/-- The octal digits of an escape: at most three, and at most two from `4` up. -/
def octalDigits (c : Char) (rest : Text) : Text :=
  c :: (rest.take (if c ≤ '3' then 2 else 1)).takeWhile Text.isOctalDigit

def octalValue (digits : Text) : Nat :=
  digits.foldl (fun n c => 8 * n + (c.toNat - '0'.toNat)) 0

/-- The code point of a character escape, with its length. -/
def characterEscape? (wide : Bool) (c : Char) (rest : Text) : Option (Nat × Nat) :=
  match c with
  | 'f' => some (12, 1)
  | 'n' => some (10, 1)
  | 'r' => some (13, 1)
  | 't' => some (9, 1)
  | 'v' => some (11, 1)
  | 'c' => if rest.head?.any Char.isAlpha then (rest.head?).map fun d => (d.toNat % 32, 2) else none
  | 'x' =>
    match hexPair? rest with
    | some code => some (code, 3)
    | none => if wide then none else some (c.toNat, (rest.take 2).length + 1)
  | 'u' =>
    match unicodeEscape? rest with
    | some (code, length) => some (code, length + 1)
    | none => if wide then none else some (c.toNat, 1)
  | _ =>
    if c = '0' && !rest.head?.any Char.isDigit then some (0, 1)
    else if !wide && Text.isOctalDigit c then
      let digits := octalDigits c rest
      some (octalValue digits, digits.length)
    else if !wide || identityEscapes.contains c then some (c.toNat, 1)
    else none

def isShorthand (c : Char) : Bool :=
  c == 'd' || c == 'D' || c == 's' || c == 'S' || c == 'w' || c == 'W'

/-- The character properties that a wide pattern may name. -/
def properties : List Text := ["L".toList, "Lu".toList, "Script=Greek".toList]

def propertyLength? : Text → Option Nat
  | '{' :: body =>
    let name := body.takeWhile (· != '}')
    if name.length < body.length && properties.contains name then some (name.length + 2) else none
  | _ => none

-- ---------------------------------------------------------------------------
-- Names
-- ---------------------------------------------------------------------------

/-- The character that stands at a place of a name, with the number of
characters taken behind the first. -/
def nameChar? (c : Char) (rest : Text) : Option (Char × Nat) :=
  match c, rest with
  | '\\', 'u' :: t => do
    let (code, length) ← unicodeEscape? t
    let d ← Text.scalar? code
    return (d, length + 1)
  | _, _ => some (c, 0)

/-- The edition of the Unicode properties that names in patterns go by. -/
def edition : Identifier.Edition := .unicode15

def nameRest? : Text → Option (Text × Nat)
  | [] => none
  | c :: rest =>
    match nameChar? c rest with
    | some (d, extra) =>
      if d = '>' then some ([], extra + 1)
      else if Identifier.isContinue edition d then
        (nameRest? (rest.drop extra)).map fun (name, length) => (d :: name, extra + length + 1)
      else none
    | none => none
termination_by t => t.length
decreasing_by exact Text.length_drop_lt ..

/-- A name and its closing bracket, read behind the opening one. -/
def name? : Text → Option (Text × Nat)
  | [] => none
  | c :: rest =>
    match nameChar? c rest with
    | some (d, extra) =>
      if Identifier.isStart edition d then
        (nameRest? (rest.drop extra)).map fun (name, length) => (d :: name, extra + length + 1)
      else none
    | none => none

end Splice.Grammar
