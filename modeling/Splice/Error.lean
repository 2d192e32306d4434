import Splice.Direction
import Splice.Flags

/-!
# Composition errors

The ways in which reading, composing or finalizing patterns fails, their
classes, and the text shown for each.
-/

namespace Splice

inductive Error
  /-- A quantifier would apply to nothing or to an assertion. -/
  | nothingToRepeat (shown : Text)
  /-- A narrow source cannot be read in wide mode. -/
  | widePromotion (source : Text)
  /-- The pattern grammar rejects a source. -/
  | invalidPattern (source : Text) (used : Flags)
  | caseMismatch (shown : Text)
  | multilineMismatch (shown : Text)
  | directionMismatch (found building : Direction) (source : Text)
  | flags (cause : FlagsError)
  /-- A deferred builder returned another deferred builder. -/
  | deferredResult
  | tooManyBackReferences (number : Nat)
  /-- A deferred reference resolved to group zero. -/
  | invalidBackReference (number : Nat)
  /-- A number of groups does not fit a word. Nothing recovers from this: it ends
  the program. -/
  | overflow
  deriving DecidableEq, Repr

namespace Error

inductive Class
  /-- A source that is malformed, cannot be promoted, or cannot be repeated. -/
  | source
  /-- Flags, directions or arguments that do not fit together. -/
  | agreement
  /-- A group number that no back reference can name. -/
  | numbering
  /-- A fault of the arithmetic. -/
  | fault
  deriving DecidableEq, Repr

def errorClass : Error → Class
  | nothingToRepeat _ | widePromotion _ | invalidPattern .. => .source
  | caseMismatch _ | multilineMismatch _ | directionMismatch .. | flags _ | deferredResult =>
    .agreement
  | tooManyBackReferences _ | invalidBackReference _ => .numbering
  | overflow => .fault

/-- A source between slashes, followed by the letters of its flags. -/
def slashed (source : Text) (letters : Text) : Text := '/' :: source ++ '/' :: letters

def message : Error → Text
  | nothingToRepeat shown => "nothing to repeat: ".toList ++ slashed shown []
  | widePromotion source =>
    "can't upgrade the pattern to unicode: ".toList ++ slashed source []
  | invalidPattern source used => slashed source used.render
  | caseMismatch shown => "can't combine i and non-i patterns: ".toList ++ shown
  | multilineMismatch shown => "can't combine m and non-m patterns: ".toList ++ shown
  | directionMismatch found building source =>
    "illegal ".toList ++ found.name.toList ++ " pattern argument while building a ".toList ++
      building.name.toList ++ " one: ".toList ++ slashed source []
  | flags (.unknown letters) => "unknown flags: ".toList ++ letters
  | flags (.duplicate letters) => "duplicate flags: ".toList ++ letters
  | deferredResult => "can't compose deferred builder as a pattern".toList
  | tooManyBackReferences number =>
    "too many back references: \\".toList ++ Text.decimal number
  | invalidBackReference number =>
    "invalid back reference: \\".toList ++ Text.decimal number
  | overflow => "attempt to add with overflow".toList

end Error

end Splice
