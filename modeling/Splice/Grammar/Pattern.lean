import Splice.Grammar.CharClass
import Splice.Grammar.Survey
import Splice.Token.Lexer

/-!
# The pattern grammar

The engine that runs patterns accepts a source only if it is well formed in
narrow or in wide mode. `captures?` reads a source term by term, remembering
for each open group whether a quantifier may follow it, and answers how many
capturing groups it has opened when all of it is read. `accepts` is the
verdict.
-/

namespace Splice.Grammar

/-- What one term does to the groups that are open. -/
inductive Term
  /-- A quantifier may follow. -/
  | atom
  /-- No quantifier may follow: an anchor, or the bar between alternatives. -/
  | divider
  /-- A group opens. `repeatable` says whether a quantifier may follow it. -/
  | opening (captures repeatable : Bool)
  | closing
  deriving DecidableEq, Repr

-- ---------------------------------------------------------------------------
-- Quantifiers
-- ---------------------------------------------------------------------------

/-- Bounds are held in 64 bits; larger ones count as the largest. -/
def maxBound : Nat := 18446744073709551615

/-- Whether the bounds of a complete braced quantifier, read behind its brace,
are in order. -/
def boundsOrdered (t : Text) : Bool :=
  let least := Text.leadingDigits t
  match t.drop least.length with
  | ',' :: rest =>
    match Text.leadingDigits rest with
    | [] => true
    | most => min (Text.digitsValue least) maxBound ≤ min (Text.digitsValue most) maxBound
  | _ => true

/-- A question mark behind a quantifier belongs to it. -/
def lazyLength : Text → Nat
  | '?' :: _ => 1
  | _ => 0

/-- Length of the quantifier at the start of a text, zero if there is none. An
incomplete brace is an error in wide mode and no quantifier in narrow mode. -/
def quantifierLength? (wide : Bool) : Text → Option Nat
  | '*' :: rest | '+' :: rest | '?' :: rest => some (1 + lazyLength rest)
  | '{' :: rest =>
    match Lexer.quantifierLength? rest with
    | some length =>
      if boundsOrdered rest then some (1 + length + lazyLength (rest.drop length)) else none
    | none => if wide then none else some 0
  | _ => some 0

-- ---------------------------------------------------------------------------
-- Terms
-- ---------------------------------------------------------------------------

/-- Length of inline modifiers and their colon: the letters `i`, `m` and `s`
and a minus sign, each at most once, with at least one letter. -/
def modifiersLength? (t : Text) : Option Nat :=
  let modifiers := t.takeWhile (· != ':')
  if modifiers.length < t.length && modifiers.any (· != '-') &&
      modifiers.all fun c => "ims-".toList.contains c && modifiers.count c == 1 then
    some (modifiers.length + 1)
  else none

/-- The group that opens before a text, with the length of its opener. -/
def opener? (wide : Bool) : Text → Option (Term × Nat)
  | '?' :: ':' :: _ => some (.opening false true, 2)
  | '?' :: '=' :: _ | '?' :: '!' :: _ => some (.opening false !wide, 2)
  | '?' :: '<' :: '=' :: _ | '?' :: '<' :: '!' :: _ => some (.opening false false, 3)
  | '?' :: '<' :: rest => (name? rest).map fun (_, length) => (.opening true true, length + 2)
  | '?' :: rest => (modifiersLength? rest).map fun length => (.opening false true, length + 1)
  | _ => some (.opening true true, 0)

/-- Length of a reference by name, behind its `k`. Where no group has a name,
narrow mode reads a plain `k`. -/
def namedReferenceLength? (wide : Bool) (names : List Text) (t : Text) : Option Nat :=
  if wide || !names.isEmpty then
    match t with
    | '<' :: rest =>
      (name? rest).bind fun (name, length) =>
        if names.contains name then some (length + 1) else none
    | _ => none
  else some 0

/-- Length of the escape that starts with a character, outside classes. -/
def escapeLength? (wide : Bool) (found : Survey) (c : Char) (rest : Text) : Option Nat :=
  let character := (characterEscape? wide c rest).map Prod.snd
  if c = 'b' ∨ c = 'B' ∨ isShorthand c then some 1
  else if !wide && c == 'c' then some (if rest.head?.any Char.isAlpha then 2 else 1)
  else if wide && (c == 'p' || c == 'P') then (propertyLength? rest).map (· + 1)
  else if c.isDigit && c != '0' then
    let digits := Text.leadingDigits (c :: rest)
    if Text.digitsValue digits ≤ found.parentheses then some digits.length
    else if wide then none
    else character
  else if c = 'k' then (namedReferenceLength? wide found.names rest).map (· + 1)
  else character

/-- The term that starts with a character, with the number of characters taken
behind it. -/
def term? (wide : Bool) (found : Survey) (c : Char) (rest : Text) : Option (Term × Nat) :=
  match c with
  | '^' | '$' | '|' => some (.divider, 0)
  | '(' => opener? wide rest
  | ')' => some (.closing, 0)
  | '[' => (classLength? wide rest).map fun length => (.atom, length)
  | '\\' =>
    match rest with
    | [] => none
    | d :: rest => (escapeLength? wide found d rest).map fun length => (.atom, length)
  | '*' | '+' | '?' => none
  | '{' => if wide || (Lexer.quantifierLength? rest).isSome then none else some (.atom, 0)
  | '}' | ']' => if wide then none else some (.atom, 0)
  | _ => some (.atom, 0)

-- ---------------------------------------------------------------------------
-- Patterns
-- ---------------------------------------------------------------------------

/-- Reads terms to the end of a text. `groups` tells of each open group,
innermost first, whether a quantifier may follow it. -/
def readFrom (wide : Bool) (found : Survey) (groups : List Bool) (captures : Nat) :
    Text → Option Nat
  | [] => if groups.isEmpty then some captures else none
  | c :: rest =>
    match term? wide found c rest with
    | none => none
    | some (.divider, n) => readFrom wide found groups captures (rest.drop n)
    | some (.opening capturing repeatable, n) =>
      readFrom wide found (repeatable :: groups) (captures + capturing.toNat) (rest.drop n)
    | some (.atom, n) =>
      match quantifierLength? wide (rest.drop n) with
      | some k => readFrom wide found groups captures (rest.drop (n + k))
      | none => none
    | some (.closing, n) =>
      match groups with
      | [] => none
      | false :: groups => readFrom wide found groups captures (rest.drop n)
      | true :: groups =>
        match quantifierLength? wide (rest.drop n) with
        | some k => readFrom wide found groups captures (rest.drop (n + k))
        | none => none
termination_by t => t.length
decreasing_by all_goals exact Text.length_drop_lt ..

def captures? (wide : Bool) (source : Text) : Option Nat := do
  let found ← survey? source
  readFrom wide found [] 0 source

def accepts (wide : Bool) (source : Text) : Bool := (captures? wide source).isSome

end Splice.Grammar
