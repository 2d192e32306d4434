import Splice.Fragment

/-!
# Wrapping

Groups, assertions and quantifiers around a fragment.
-/

namespace Splice

/-- When the delimiters of a wrapping are written. -/
inductive Occasion
  | always
  /-- Where a quantifier would bind to part of the fragment only. -/
  | quantifier
  /-- Around a fragment that alternates. -/
  | disjunction
  deriving DecidableEq, Repr

structure Wrapping where
  occasion : Occasion
  opening : Text
  closing : Text
  /-- What follows, inside or outside delimiters, such as a quantifier. -/
  suffix : Option Text
  deriving DecidableEq, Repr

namespace Wrapping

def applies (wide : Bool) (occasion : Occasion) (f : Fragment) :
    ExceptT Error (StateM Archive) (Bool × Fragment) :=
  match occasion with
  | .always => return (true, f)
  | .quantifier => do
    let (outcome, f) ← f.needsWrapping wide
    return (← outcome, f)
  | .disjunction => f.ask .alternates

def text (w : Wrapping) (delimited : Bool) (source : Text) : Text :=
  (if delimited then w.opening ++ source ++ w.closing else source) ++ w.suffix.getD []

end Wrapping

/-- Wraps a fragment inside a whole that is wide or not. A fragment that gets
neither delimiters nor a suffix stays as it is; any other becomes a composite
of which nothing is known yet but how it was built. -/
def Fragment.decorate (wide : Bool) (w : Wrapping) (f : Fragment) :
    ExceptT Error (StateM Archive) Fragment := do
  let (delimited, f) ← Wrapping.applies (wide || f.isWide) w.occasion f
  if !delimited && w.suffix.isNone then return f
  else
    let traits := f.traits?.getD { Traits.plain with wide := wide }
    return .composite (w.text delimited f.source) traits .empty

end Splice
