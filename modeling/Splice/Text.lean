/-!
# Pattern text

Sources are lists of characters. This module measures them in UTF-8 bytes and
reads the two kinds of number that occur in them: decimal numerals, as in
`\12` and in markers, and hexadecimal numerals, as in `\u0061`.
-/

namespace Splice

/-- Pattern source text, one element per Unicode scalar value. -/
abbrev Text := List Char

/-- Numbers written in markers and escapes fit 32 bits. -/
def wordLimit : Nat := 4294967296

namespace Text

def byteSize : Text → Nat
  | [] => 0
  | c :: t => c.utf8Size + byteSize t

theorem byteSize_append (s t : Text) : byteSize (s ++ t) = byteSize s + byteSize t := by
  induction s with
  | nil => simp [byteSize]
  | cons c s ih => simp [byteSize, ih, Nat.add_assoc]

theorem length_drop_lt (c : Char) (t : Text) (n : Nat) : (t.drop n).length < (c :: t).length := by
  simp only [List.length_drop, List.length_cons]
  omega

-- ---------------------------------------------------------------------------
-- Decimal numerals
-- ---------------------------------------------------------------------------

def leadingDigits (t : Text) : Text := t.takeWhile Char.isDigit

/-- The number that a text of decimal digits denotes; the empty text denotes zero. -/
def digitsValue (digits : Text) : Nat :=
  digits.foldl (fun n c => 10 * n + (c.toNat - '0'.toNat)) 0

def decimal (n : Nat) : Text := Nat.toDigits 10 n

-- ---------------------------------------------------------------------------
-- Hexadecimal numerals
-- ---------------------------------------------------------------------------

/-- The value of a hexadecimal digit in either letter case. -/
def hexDigit? (c : Char) : Option Nat :=
  if c.isDigit then some (c.toNat - '0'.toNat)
  else if 'a' ≤ c ∧ c ≤ 'f' then some (c.toNat - 'a'.toNat + 10)
  else if 'A' ≤ c ∧ c ≤ 'F' then some (c.toNat - 'A'.toNat + 10)
  else none

def isHexDigit (c : Char) : Bool := (hexDigit? c).isSome

def isOctalDigit (c : Char) : Bool := '0' ≤ c && c ≤ '7'

def hexDigits? : Text → Option Nat
  | [] => none
  | c :: rest => (c :: rest).foldlM (fun n d => (hexDigit? d).map (16 * n + ·)) 0

/-- A hexadecimal numeral below `wordLimit`. One plus sign may stand before
its digits; no other sign and no blank may. -/
def hexNumeral? (t : Text) : Option Nat :=
  let digits := match t with
    | '+' :: rest => rest
    | _ => t
  (hexDigits? digits).filter (· < wordLimit)

/-- The character with a code, if the code is a Unicode scalar value. -/
def scalar? (code : Nat) : Option Char :=
  if code.isValidChar then some (Char.ofNat code) else none

end Text

end Splice
