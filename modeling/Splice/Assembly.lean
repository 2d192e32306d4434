import Splice.Fragment

/-!
# Assembly

Turns fragments that have been admitted into one composite. Each is fitted to
the flags of the whole, alternations are wrapped where they would leak, groups
are counted and references renumbered from left to right, and the sources are
joined.
-/

namespace Splice

structure Layout where
  /-- Joined by bars instead of one behind the other. -/
  alternation : Bool
  /-- Members of a sequence that alternate are wrapped. -/
  wrap : Bool
  /-- The groups that the caller places before the result. -/
  offset : Word
  deriving DecidableEq, Repr

/-- A source that is ready to be joined. -/
structure Piece where
  source : Text
  /-- A numeric reference ends the source, so that a digit would extend it. -/
  endsInReference : Bool
  deriving DecidableEq, Repr

namespace Piece

/-- What keeps a digit apart from the reference before it. -/
def separator (p : Piece) (tail : Text) : Text :=
  if p.endsInReference && tail.head?.any Char.isDigit then Pattern.emptyGroup else []

def sequence : List Piece → Text
  | [] => []
  | [p] => p.source
  | p :: rest =>
    let tail := sequence rest
    p.source ++ p.separator tail ++ tail

def alternatives (pieces : List Piece) : Text :=
  (['|'] : Text).intercalate (pieces.map Piece.source)

def join (alternation : Bool) (pieces : List Piece) : Text :=
  if alternation then alternatives pieces else sequence pieces

/-- Whether a reference ends the last piece that is not empty. -/
def lastEndsInReference (pieces : List Piece) : Bool :=
  (pieces.reverse.find? (·.source ≠ [])).any Piece.endsInReference

end Piece

/-- Pieces in order, with the number of groups that they capture and whether
any of them holds a reference. -/
structure Numbered where
  pieces : List Piece
  captures : Nat
  hasReferences : Bool
  deriving DecidableEq, Repr

namespace Fragment

def protect (f : Fragment) : StateM Archive Fragment := do
  let (alternates, f) ← f.ask .alternates
  return if alternates then f.grouped else f

/-- Moves a fragment behind `count` groups, and answers the piece that results,
the groups that it captures, and whether it holds references. -/
def number (count : Word) (f : Fragment) :
    ExceptT Error (StateM Archive) (Piece × Nat × Bool) := do
  let (references, f) ← f.ask .references
  let source ← if references.present then Source.renumber f.source count else pure f.source
  let f := { f with source := source }
  let (captures, f) ← f.ask .captures
  return (⟨f.source, references.final⟩, captures, references.present)

def numberAll (count : Word) : List Fragment → ExceptT Error (StateM Archive) Numbered
  | [] => return ⟨[], 0, false⟩
  | f :: rest => do
    let (piece, captures, hasReferences) ← f.number count
    let behind ← Word.add count captures
    let others ← numberAll behind rest
    return ⟨piece :: others.pieces, captures + others.captures,
      hasReferences || others.hasReferences⟩

end Fragment

/-- The composite that numbered pieces make up. `directed` says that one of the
pieces is tied to a direction, even if it holds no reference by itself. -/
def Numbered.toFragment (layout : Layout) (stance : Stance) (directed : Bool) (n : Numbered) :
    Fragment :=
  let hasReferences := directed || n.hasReferences
  let traits : Traits :=
    { direction := if hasReferences then stance.direction else .neutral
      wide := stance.agreement.wide
      ignoreCase := stance.agreement.ignoreCase
      multiline := stance.agreement.multiline }
  let analysis : Analysis :=
    { captures := some n.captures
      references := some ⟨hasReferences, Piece.lastEndsInReference n.pieces⟩
      alternates := if layout.alternation && 1 < n.pieces.length then some true else none
      singleGroup := none }
  .composite (Piece.join layout.alternation n.pieces) traits analysis

/-- Puts admitted fragments together. All of them are fitted to the flags of
the whole before any is numbered. -/
def assemble (fold : Bool) (stance : Stance) (layout : Layout) (directed : Bool)
    (fragments : List Fragment) : ExceptT Error (StateM Archive) Fragment := do
  let fragments ← (fragments.mapM (Fragment.adapt fold stance.agreement.wide) :
    Except Error (List Fragment))
  let fragments ←
    if !layout.alternation && layout.wrap then fragments.mapM fun f => f.protect
    else pure fragments
  let numbered ← Fragment.numberAll layout.offset fragments
  return numbered.toFragment layout stance directed

end Splice
