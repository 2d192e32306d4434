import Splice.Pattern

/-!
# Agreement of flags and directions

Pieces combine only if they agree on `i`, on `m` unless line anchors are
folded, and on a direction. Wide mode needs no agreement: one wide piece makes
the whole wide.
-/

namespace Splice

/-- What one piece asks of the flags of the whole. A missing value asks for
nothing. -/
structure Demand where
  ignoreCase : Option Bool
  multiline : Option Bool
  wide : Bool
  deriving DecidableEq, Repr

def Pattern.demand (p : Pattern) : Demand :=
  ⟨some p.flags.ignoreCase, some p.flags.multiline, p.flags.unicode⟩

/-- A composite asks for the flags that it was built under. -/
def Traits.demand (t : Traits) : Demand := ⟨t.ignoreCase, t.multiline, t.wide⟩

structure Agreement where
  ignoreCase : Option Bool
  multiline : Option Bool
  wide : Bool
  deriving DecidableEq, Repr

/-- Whether a value is asked for that differs from the one agreed on. -/
def conflicts (agreed asked : Option Bool) : Bool :=
  match agreed, asked with
  | some a, some b => a != b
  | _, _ => false

namespace Agreement

def fresh : Agreement := ⟨none, none, false⟩

/-- Hears a demand. A conflict on `i` is found before anything is recorded, one
on `m` after the demand on `i` is. `shown` names the piece in the error. -/
def hear (fold : Bool) (shown : Text) (a : Agreement) (d : Demand) :
    Except Error Unit × Agreement :=
  if conflicts a.ignoreCase d.ignoreCase then (.error (.caseMismatch shown), a)
  else
    let a := { a with ignoreCase := d.ignoreCase.or a.ignoreCase }
    if !fold && conflicts a.multiline d.multiline then (.error (.multilineMismatch shown), a)
    else
      (.ok (), { a with multiline := d.multiline.or a.multiline, wide := a.wide || d.wide })

/-- The flags of the whole: `i` and `u` as agreed, `m` unless it is folded. -/
def merged (fold : Bool) (a : Agreement) : Flags :=
  { Flags.empty with
    ignoreCase := a.ignoreCase == some true
    multiline := !fold && a.multiline == some true
    unicode := a.wide }

end Agreement

/-- Whether a piece is tied to a direction, which counts as having references.
Fails if that direction opposes the one being built. -/
def Direction.check (found building : Direction) (source : Text) : Except Error Bool :=
  if found.opposes building then .error (.directionMismatch found building source)
  else .ok (found != .neutral)

structure Stance where
  agreement : Agreement
  direction : Direction
  deriving DecidableEq, Repr

namespace Stance

def initial : Stance := ⟨.fresh, .forward⟩

def reset (s : Stance) : Stance := { s with agreement := .fresh }

/-- Admits a pattern: its flags are heard before its direction is checked.
Answers whether it is tied to a direction. -/
def admitPattern (fold : Bool) (p : Pattern) (s : Stance) : Except Error Bool × Stance :=
  match s.agreement.hear fold p.display p.demand with
  | (.error e, a) => (.error e, { s with agreement := a })
  | (.ok (), a) =>
    (p.traits.direction.check s.direction p.source, { s with agreement := a })

/-- Admits a composite: its direction is checked before its flags are heard. -/
def admitComposite (fold : Bool) (source : Text) (t : Traits) (s : Stance) :
    Except Error Bool × Stance :=
  match t.direction.check s.direction source with
  | .error e => (.error e, s)
  | .ok directed =>
    let (outcome, a) := s.agreement.hear fold (Error.slashed source []) t.demand
    (outcome.map fun _ => directed, { s with agreement := a })

end Stance

end Splice
