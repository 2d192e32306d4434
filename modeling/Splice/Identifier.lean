import Splice.Identifier.Table
import Splice.Text

/-!
# Identifiers

Which characters may start and continue the name of a group. Beside the
letters, digits and marks of the Unicode properties these are `$`, `_` and the
two zero-width joiners. A name is judged by one of two editions of the
properties, and the newer one only adds to the older.
-/

namespace Splice.Identifier

/-- Editions of the Unicode properties: versions 15.1 and 16. -/
inductive Edition
  | unicode15
  | unicode16
  deriving DecidableEq, Repr

def inRanges (ranges : List (Nat × Nat)) (c : Char) : Bool :=
  ranges.any fun (low, high) => low ≤ c.toNat && c.toNat ≤ high

/-- Whether a property holds of a character: it is in the table of the older
edition, or, in the newer one, in the table of additions. -/
def Edition.holds (table later : List (Nat × Nat)) (c : Char) : Edition → Bool
  | .unicode15 => inRanges table c
  | .unicode16 => inRanges table c || inRanges later c

def hasIdStart (edition : Edition) (c : Char) : Bool :=
  edition.holds startRanges laterStartRanges c

def hasIdContinue (edition : Edition) (c : Char) : Bool :=
  hasIdStart edition c || edition.holds continueOnlyRanges laterContinueOnlyRanges c

def isStart (edition : Edition) (c : Char) : Bool :=
  c == '_' || c == '$' || hasIdStart edition c

def isContinue (edition : Edition) (c : Char) : Bool :=
  c == '_' || c == '$' || c == '\u200c' || c == '\u200d' || hasIdContinue edition c

def isIdentifier (edition : Edition) : Text → Bool
  | [] => false
  | c :: rest => isStart edition c && rest.all (isContinue edition)

end Splice.Identifier
