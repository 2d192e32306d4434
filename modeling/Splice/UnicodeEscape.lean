import Splice.Text

/-!
# Escapes by code point

`\u0061` and `\u{61}` name a character by its code. Both forms are read behind
their `\u`.
-/

namespace Splice.UnicodeEscape

/-- The numeral of an escape with the number of characters it takes: what
stands between braces, or else exactly four characters. -/
def numeral? : Text → Option (Text × Nat)
  | '{' :: body =>
    let digits := body.takeWhile (· != '}')
    if digits.length < body.length then some (digits, digits.length + 2) else none
  | t => if 4 ≤ t.length then some (t.take 4, 4) else none

/-- The code that an escape names, with the number of characters it takes. -/
def code? (t : Text) : Option (Nat × Nat) := do
  let (numeral, length) ← numeral? t
  let code ← Text.hexNumeral? numeral
  return (code, length)

/-- The character that an escape names, if its code is a scalar value. -/
def char? (t : Text) : Option (Char × Nat) := do
  let (code, length) ← code? t
  let c ← Text.scalar? code
  return (c, length)

end Splice.UnicodeEscape
