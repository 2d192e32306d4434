import Splice.Program.Run

/-!
# The moments of a run

A moment is a step together with the workshop in which it starts. The moments
of a program are those of all the steps that run: the steps of the program, the
steps nested in them, and the steps of the deferred builders of assemblies.
They end where a run ends because something fails.
-/

namespace Splice

variable {α : Type}

structure Moment where
  step : Step
  before : Workshop

namespace Moment

def after (m : Moment) : Workshop := (m.step.run.run m.before).2

end Moment

def Action.sources (w : Workshop) : Action → List Text
  | .compile _ source _ | .raw _ source _ => [source]
  | .decorate _ name wrapping =>
    match w.bindings.lookup name with
    | some value =>
      let act := value.toFragment.decorate w.stance.agreement.wide wrapping
      ((act.run w.archive).1.toOption.map Fragment.source).toList
    | none => []
  | _ => []

def Moment.sources (m : Moment) : List Text :=
  match m.step with
  | .action a => a.sources m.before
  | _ => []

/-- The moments behind an act, of which there are none if it fails. -/
def Work.onward (act : Work α) (next : α → Workshop → List Moment) (w : Workshop) :
    List Moment :=
  match act.run w with
  | (.ok a, after) => next a after
  | (.error _, _) => []

theorem Work.onward_ok {act : Work α} {next : α → Workshop → List Moment} {w after : Workshop}
    {a : α} (h : act.run w = (.ok a, after)) : onward act next w = next a after := by
  rw [onward, h]

theorem Work.mem_onward {act : Work α} {next : α → Workshop → List Moment} {w : Workshop}
    {m : Moment} (h : m ∈ onward act next w) :
    ∃ a after, act.run w = (.ok a, after) ∧ m ∈ next a after := by
  unfold onward at h
  split at h
  · exact ⟨_, _, ‹_›, h⟩
  · simp at h

def Shield.enter (w : Workshop) : Shield → Workshop
  | .reentrant => w.enter
  | .scope => w.enter.reset
  | .direction d => { w with stance := { w.stance with direction := d } }

/-- What a deferred builder does before its result is resolved. -/
def Work.awaitBuilder (steps : List Step) (result : Item) : Work Bindings := do
  let (answers, outcome) ← ExceptT.lift <| Workshop.reentrant do
    let (answers, failure) ← Step.runAll steps
    conclude result answers failure
  modify (Workshop.logBuilder answers)
  ExceptT.mk (pure outcome)

theorem Item.resolve_deferred (seen : Bindings) (wrap : Bool) (steps : List Step)
    (result : Item) :
    (Item.deferred steps result).resolve seen wrap = (do
      let seen ← Work.awaitBuilder steps result
      if result.isDeferred then throw (.ofError .deferredResult)
      else result.resolve seen wrap) := by
  rw [Item.resolve, Work.awaitBuilder]
  simp only [bind_assoc]

mutual
def Item.moments (seen : Bindings) (wrap : Bool) : Item → Workshop → List Moment
  | .tree items, w => Item.momentsAll seen (wrap || 1 < items.length) items w
  | .deferred steps result, w =>
    Step.momentsAll steps w.enter ++
      Work.onward (Work.awaitBuilder steps result)
        (fun seen after => if result.isDeferred then [] else result.moments seen wrap after) w
  | _, _ => []

def Item.momentsAll (seen : Bindings) (wrap : Bool) : List Item → Workshop → List Moment
  | [], _ => []
  | item :: rest, w =>
    item.moments seen wrap w ++
      Work.onward (item.resolve seen wrap) (fun _ after => Item.momentsAll seen wrap rest after) w

/-- The moments of a step, itself first. -/
def Step.moments : Step → Workshop → List Moment
  | .action a, w => [⟨.action a, w⟩]
  | .assemble result items layout, w =>
    ⟨.assemble result items layout, w⟩ ::
      Work.onward (Work.requireAll (Item.requirementsAll items))
        (fun _ after => Item.momentsAll w.bindings (layout.wrap || 1 < items.length) items
          (Workshop.beginAssembly { after with builders := [] })) w
  | .nested shield steps, w => ⟨.nested shield steps, w⟩ :: Step.momentsAll steps (shield.enter w)

def Step.momentsAll : List Step → Workshop → List Moment
  | [], _ => []
  | step :: rest, w =>
    step.moments w ++ Work.onward step.run (fun _ after => Step.momentsAll rest after) w
end

/-- The moments of a program, in which the steps behind a failure run as well
unless the program ends there. -/
def programMoments : List Step → Workshop → List Moment
  | [], _ => []
  | step :: rest, w =>
    step.moments w ++
      if Step.goesOn (step.run.run w).1 then programMoments rest (step.run.run w).2 else []

-- ---------------------------------------------------------------------------
-- Values by name
-- ---------------------------------------------------------------------------

mutual
/-- Whether an item holds no value but by name, as all values of a program come
from its own steps. -/
def Item.byName : Item → Bool
  | .pattern _ | .fragment _ => false
  | .literal _ | .named _ | .malformed _ => true
  | .tree items => Item.byNameAll items
  | .deferred steps result => Step.byNameAll steps && result.byName

def Item.byNameAll : List Item → Bool
  | [] => true
  | item :: rest => item.byName && Item.byNameAll rest

def Step.byName : Step → Bool
  | .action _ => true
  | .assemble _ items _ => Item.byNameAll items
  | .nested _ steps => Step.byNameAll steps

def Step.byNameAll : List Step → Bool
  | [] => true
  | step :: rest => step.byName && Step.byNameAll rest
end

end Splice
