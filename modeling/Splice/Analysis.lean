import Splice.Source.Groups
import Splice.Source.References

/-!
# Recorded analyses

Analyses of a source are computed once and recorded beside it. A record is
written at most once: the first answer stays, also if the source it stands
beside has been respelled since.
-/

namespace Splice

variable {α : Type}

/-- What can be asked about a source and recorded, with the type of the answer. -/
inductive Property : Type → Type
  | captures : Property Nat
  | references : Property References
  | alternates : Property Bool
  | singleGroup : Property Bool

def Property.compute : Property α → Text → α
  | .captures => Source.captureCount
  | .references => Source.references
  | .alternates => Source.alternates
  | .singleGroup => Source.isSingleGroup

structure Analysis where
  captures : Option Nat
  references : Option References
  alternates : Option Bool
  singleGroup : Option Bool
  deriving DecidableEq, Repr

namespace Analysis

def empty : Analysis := ⟨none, none, none, none⟩

def get? (a : Analysis) : Property α → Option α
  | .captures => a.captures
  | .references => a.references
  | .alternates => a.alternates
  | .singleGroup => a.singleGroup

def set (a : Analysis) : Property α → α → Analysis
  | .captures, answer => { a with captures := some answer }
  | .references, answer => { a with references := some answer }
  | .alternates, answer => { a with alternates := some answer }
  | .singleGroup, answer => { a with singleGroup := some answer }

theorem get_set (a : Analysis) (p : Property α) (answer : α) :
    (a.set p answer).get? p = some answer := by
  cases p <;> rfl

/-- The recorded answer, or else the computed one, which is then recorded. -/
def ask (a : Analysis) (p : Property α) (source : Text) : α × Analysis :=
  match a.get? p with
  | some answer => (answer, a)
  | none =>
    let answer := p.compute source
    (answer, a.set p answer)

theorem get_ask (a : Analysis) (p : Property α) (source : Text) :
    (a.ask p source).2.get? p = some (a.ask p source).1 := by
  unfold ask
  cases h : a.get? p with
  | some answer => exact h
  | none => exact get_set a p _

end Analysis

end Splice
