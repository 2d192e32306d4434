import Splice.Fragment

/-!
# Finishing

Makes a pattern of a fragment, under the flags that its parts agreed on.
-/

namespace Splice

/-- How the caller changes the flags that were agreed on. -/
inductive FlagChange
  | add (flags : Flags)
  | remove (flags : Flags)
  deriving DecidableEq, Repr

def FlagChange.apply (merged : Flags) : FlagChange → Flags
  | .add flags => merged.union flags
  | .remove flags => merged.difference flags

structure Finish where
  change : Option FlagChange
  /-- The direction to record instead of the fragment's own. -/
  direction : Option Direction
  deriving DecidableEq, Repr

def Finish.flags (fold : Bool) (agreement : Agreement) (options : Finish) : Flags :=
  let merged := agreement.merged fold
  match options.change with
  | some change => change.apply merged
  | none => merged

/-- Makes a pattern of a fragment. Where only the caller asks for wide mode,
the fragment is promoted first. The pattern starts with the analyses that are
recorded for the fragment. -/
def Fragment.finish (fold : Bool) (agreement : Agreement) (options : Finish) (f : Fragment) :
    ExceptT Error (StateM Archive) Pattern := do
  let flags := options.flags fold agreement
  let f ← if flags.unicode && !agreement.wide && !f.isWide then f.promote else pure f
  let traits := f.traits?.getD .plain
  Pattern.make f.source flags
    { traits with direction := options.direction.getD traits.direction, wide := flags.unicode }
    (f.analysis (← get))

end Splice
