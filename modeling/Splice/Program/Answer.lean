import Splice.Program.Step

/-!
# Answers of a program

Every step answers with a view of what it made, with what it was asked for, or
with the cause of its failure. Views show the analyses that are recorded and
compute none.
-/

namespace Splice

inductive ViewKind
  | pattern (flags : Flags) (display : Text)
  | native
  | composite
  deriving DecidableEq, Repr

structure View where
  kind : ViewKind
  source : Text
  analysis : Analysis
  traits : Traits
  deriving DecidableEq, Repr

def Value.view (archive : Archive) : Value → View
  | .pattern p => ⟨.pattern p.flags p.display, p.source, archive.analysis p.number, p.traits⟩
  | .fragment f =>
    let kind := match f.origin with
      | .native _ => .native
      | _ => .composite
    ⟨kind, f.source, f.analysis archive, f.traits?.getD .plain⟩

inductive Finding
  | number (n : Nat)
  | yes (b : Bool)
  | references (r : References)
  deriving DecidableEq, Repr

inductive Cause
  | error (e : Error)
  | undefined (name : Name)
  /-- The variable holds a fragment where a pattern is wanted. -/
  | notAPattern (name : Name)
  | malformed (field : String)
  deriving DecidableEq, Repr

/-- What a step answers. `builders` holds the answers of every deferred builder
that an assembly ran, in the order in which the builders ended. -/
inductive Answer
  | made (view : View) (builders : List (List Answer))
  | stance (s : Stance)
  | done
  | nested (steps : List Answer)
  | forced (finding : Finding) (after : View)
  | same (b : Bool)
  | directed (b : Bool)
  | failed (cause : Cause) (steps : Option (List Answer)) (builders : List (List Answer))

/-- A cause with the answers that were given up to the failure: those of the
nested steps it happened in, and those of the builders of its assembly. -/
structure Failure where
  cause : Cause
  steps : Option (List Answer)
  builders : List (List Answer)

namespace Failure

def ofCause (cause : Cause) : Failure := ⟨cause, none, []⟩

def ofError (e : Error) : Failure := ofCause (.error e)

def answer (f : Failure) : Answer := .failed f.cause f.steps f.builders

/-- Whether the program ends here, as it does where a number overflows. -/
def endsProgram (f : Failure) : Bool := f.cause == .error .overflow

end Failure

end Splice
