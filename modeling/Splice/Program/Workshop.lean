import Splice.Program.Answer

/-!
# The state of a running program

A workshop holds the composer's stance, the stances saved around nested work,
the archive of analyses, and the variables. A step changes the workshop also
when it fails, so `Work` keeps the state beside success and failure alike.
-/

namespace Splice

structure Workshop where
  /-- Line anchors are spelled out, so that `m` needs no agreement. -/
  fold : Bool
  stance : Stance
  /-- The stances to return to, innermost first. -/
  saved : List Stance
  archive : Archive
  bindings : Bindings
  /-- The answers of the builders that the current assembly has run. -/
  builders : List (List Answer)

namespace Workshop

def new (fold : Bool) : Workshop := ⟨fold, .initial, [], #[], [], []⟩

def store (name : Name) (value : Value) (w : Workshop) : Workshop :=
  { w with bindings := (name, value) :: w.bindings }

def enter (w : Workshop) : Workshop := { w with saved := w.stance :: w.saved }

/-- Returns to the stance that was saved last. -/
def leave (w : Workshop) : Workshop :=
  match w.saved with
  | [] => w
  | stance :: saved => { w with stance, saved }

def reset (w : Workshop) : Workshop := { w with stance := w.stance.reset }

/-- An assembly that nothing surrounds starts from fresh flags. -/
def beginAssembly (w : Workshop) : Workshop := if w.saved.isEmpty then w.reset else w

def logBuilder (answers : List Answer) (w : Workshop) : Workshop :=
  { w with builders := w.builders ++ [answers] }

end Workshop

/-- Work on a workshop that may fail. -/
abbrev Work (α : Type) := ExceptT Failure (StateM Workshop) α

namespace Work

variable {α : Type}

def filing (act : StateM Archive α) : Work α :=
  ExceptT.mk fun w =>
    let (a, archive) := act w.archive
    (.ok a, { w with archive })

def onArchive (act : ExceptT Error (StateM Archive) α) : Work α :=
  ExceptT.mk fun w =>
    let (outcome, archive) := act w.archive
    (outcome.mapError Failure.ofError, { w with archive })

def onStance (act : Stance → Except Error α × Stance) : Work α :=
  ExceptT.mk fun w =>
    let (outcome, stance) := act w.stance
    (outcome.mapError Failure.ofError, { w with stance })

def fail (cause : Cause) : Work α := throw (.ofCause cause)

def lookup (name : Name) : Work Value := do
  match (← get).bindings.lookup name with
  | some value => return value
  | none => fail (.undefined name)

def lookupPattern (name : Name) : Work Pattern := do
  match ← lookup name with
  | .pattern p => return p
  | .fragment _ => fail (.notAPattern name)

def flags (letters : Text) : Work Flags :=
  match Flags.parse letters with
  | .ok flags => return flags
  | .error cause => throw (.ofError (.flags cause))

def flags? : Option Text → Work (Option Flags)
  | none => return none
  | some letters => do return some (← flags letters)

def require : Requirement → Work Unit
  | .defined name => discard (lookup name)
  | .pattern name => discard (lookupPattern name)
  | .flags letters => discard (flags letters)
  | .malformed field => fail (.malformed field)

def requireAll (requirements : List Requirement) : Work Unit := requirements.forM require

def keep (result : Option Name) (value : Value) : Work Answer := do
  match result with
  | some name => modify (Workshop.store name value)
  | none => pure ()
  return .made (value.view (← get).archive) []

end Work

namespace Workshop

variable {α : Type}

/-- Runs an act and returns to the present stance behind it. -/
def reentrant (act : StateM Workshop α) : StateM Workshop α := do
  modify Workshop.enter
  let a ← act
  modify Workshop.leave
  return a

def facing (d : Direction) (act : StateM Workshop α) : StateM Workshop α := do
  let before := (← get).stance.direction
  modify fun w => { w with stance := { w.stance with direction := d } }
  let a ← act
  modify fun w => { w with stance := { w.stance with direction := before } }
  return a

def shielded (shield : Shield) (act : StateM Workshop α) : StateM Workshop α :=
  match shield with
  | .reentrant => reentrant act
  | .scope => reentrant do
    modify Workshop.reset
    act
  | .direction d => facing d act

end Workshop

end Splice
