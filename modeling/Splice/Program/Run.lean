import Splice.Program.Action

/-!
# Running programs

An assembly resolves its items, which may run the steps of deferred builders,
which may contain assemblies again. The functions below follow the structure
of the program, so every program ends.
-/

namespace Splice

/-- A part of an assembly, and whether it is tied to a direction. -/
abbrev Part := Fragment × Bool

/-- Resolves `count` items and puts the parts together under the stance that
they leave behind. Where there is more than one, members that alternate are
wrapped in any case. -/
def Work.build (layout : Layout) (count : Nat) (resolve : Bool → Work (List Part)) :
    Work Fragment := do
  let wrap := layout.wrap || 1 < count
  let parts ← resolve wrap
  let w ← get
  onArchive <|
    assemble w.fold w.stance { layout with wrap } (parts.any Prod.snd) (parts.map Prod.fst)

def Work.admitPattern (p : Pattern) : Work Bool := do
  let fold := (← get).fold
  onStance (Stance.admitPattern fold p)

/-- Admits a fragment. A native one is admitted as its pattern. -/
def Work.admitFragment (f : Fragment) : Work Part :=
  match f.origin with
  | .native p => do return (f, ← admitPattern p)
  | .literal => return (f, false)
  | .composite traits _ => do
    let fold := (← get).fold
    let directed ← onStance (Stance.admitComposite fold f.source traits)
    return (f, directed)

/-- Runs an assembly with an empty log of builders, restores the log behind it,
and attaches what was logged to the answer. -/
def Work.logged (act : Work Answer) : Work Answer :=
  ExceptT.mk fun w =>
    let (outcome, after) := act { w with builders := [] }
    let outcome := match outcome with
      | .ok (.made view _) => .ok (.made view after.builders)
      | .ok answer => .ok answer
      | .error failure => .error { failure with builders := after.builders }
    (outcome, { after with builders := w.builders })

/-- The answer of nested steps. A failure among them fails the whole. -/
def Work.nested (answers : List Answer) (failure : Option Failure) : Work Answer :=
  match failure with
  | none => return .nested answers
  | some f => throw { f with steps := some answers }

/-- What a deferred builder leaves behind once its steps have run: its answers,
and the variables from which its result is read. -/
def Work.conclude (result : Item) (answers : List Answer) (failure : Option Failure) :
    StateM Workshop (List Answer × Except Failure Bindings) := do
  match failure with
  | some f => return (answers, .error f)
  | none =>
    let outcome ← (requireAll result.requirements).run
    let seen := (← get).bindings
    return (answers, outcome.map fun _ => seen)

mutual
/-- Resolves an item to a part. Its variables have the values that were `seen`
when they were looked up. -/
def Item.resolve (seen : Bindings) (wrap : Bool) : Item → Work Part
  | .literal t => return (.literal t, false)
  | .pattern p => Work.admitFragment (.native p)
  | .fragment f => Work.admitFragment f
  | .named name =>
    match seen.lookup name with
    | some value => Work.admitFragment value.toFragment
    | none => Work.fail (.undefined name)
  | .tree items => do
    let f ← Work.build ⟨false, wrap, 0⟩ items.length fun wrap => Item.resolveAll seen wrap items
    return (f, false)
  | .deferred steps result => do
    let (answers, outcome) ← ExceptT.lift <| Workshop.reentrant do
      let (answers, failure) ← Step.runAll steps
      Work.conclude result answers failure
    modify (Workshop.logBuilder answers)
    let seen ← ExceptT.mk (pure outcome)
    if result.isDeferred then throw (.ofError .deferredResult)
    else result.resolve seen wrap
  | .malformed field => Work.fail (.malformed field)

def Item.resolveAll (seen : Bindings) (wrap : Bool) : List Item → Work (List Part)
  | [] => return []
  | item :: rest => do
    let part ← item.resolve seen wrap
    let parts ← Item.resolveAll seen wrap rest
    return part :: parts

def Step.run : Step → Work Answer
  | .action a => a.run
  | .assemble result items layout => do
    Work.requireAll (Item.requirementsAll items)
    Work.logged do
      let seen := (← get).bindings
      modify Workshop.beginAssembly
      let f ← Work.build layout items.length fun wrap => Item.resolveAll seen wrap items
      Work.keep result (.fragment f)
  | .nested shield steps => do
    let (answers, failure) ← ExceptT.lift (Workshop.shielded shield (Step.runAll steps))
    Work.nested answers failure

/-- Runs steps up to the first that fails. Answers what each step answered, and
the failure if there is one. -/
def Step.runAll : List Step → StateM Workshop (List Answer × Option Failure)
  | [] => return ([], none)
  | step :: rest => do
    match ← step.run.run with
    | .ok answer =>
      let (answers, failure) ← Step.runAll rest
      return (answer :: answers, failure)
    | .error failure => return ([failure.answer], some failure)
end

/-- Assembles items under a layout, from fresh flags unless work surrounds it. -/
def Work.assemble (layout : Layout) (items : List Item) : Work Fragment := do
  let seen := (← get).bindings
  modify Workshop.beginAssembly
  build layout items.length fun wrap => Item.resolveAll seen wrap items

theorem Step.run_assemble (result : Option Name) (items : List Item) (layout : Layout) :
    (Step.assemble result items layout).run = (do
      Work.requireAll (Item.requirementsAll items)
      Work.logged do
        let f ← Work.assemble layout items
        Work.keep result (.fragment f)) := by
  simp [Step.run, Work.assemble]

def Step.shown : Except Failure Answer → Answer
  | .ok answer => answer
  | .error failure => failure.answer

/-- Whether the steps behind one with some outcome still run. -/
def Step.goesOn : Except Failure Answer → Bool
  | .ok _ => true
  | .error failure => !failure.endsProgram

/-- Runs the steps of a program. A step that fails ends by itself, and the next
one runs, unless a number overflowed. -/
def runProgram : List Step → StateM Workshop (List Answer)
  | [] => return []
  | step :: rest => do
    let outcome ← step.run.run
    if Step.goesOn outcome then
      let answers ← runProgram rest
      return Step.shown outcome :: answers
    else
      return [Step.shown outcome]

theorem runProgram_cons_after (step : Step) (rest : List Step) (w : Workshop) :
    ((runProgram (step :: rest)).run w).2 =
      if Step.goesOn (step.run.run w).1 then ((runProgram rest).run (step.run.run w).2).2
      else (step.run.run w).2 := by
  rw [runProgram, StateT.run_bind]
  show ((if Step.goesOn (step.run.run w).1 then _ else _ :
    StateM Workshop (List Answer)).run (step.run.run w).2).2 = _
  split <;> rfl

end Splice
