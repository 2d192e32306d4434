import Splice.Proofs.Actions
import Splice.Proofs.Moments

/-!
# What steps leave as they find it

A step may change the flags that were agreed on, the variables and the records.
The direction and the stances saved around it are behind the step what they
were before it, whether it succeeds or fails, and steps that are shielded leave
the flags as well.
-/

namespace Splice

variable {α β : Type} {start w after : Workshop}

/-- What every step leaves as it finds it. -/
structure Workshop.Steady (start w : Workshop) : Prop where
  fold : w.fold = start.fold
  saved : w.saved = start.saved
  direction : w.stance.direction = start.stance.direction

namespace Workshop

def remembering (w memory : Workshop) : Workshop :=
  { memory with fold := w.fold, stance := w.stance, saved := w.saved }

namespace Steady

theorem refl (w : Workshop) : w.Steady w := ⟨rfl, rfl, rfl⟩

theorem trans (h : start.Steady w) (h' : w.Steady after) : start.Steady after :=
  ⟨h'.fold.trans h.fold, h'.saved.trans h.saved, h'.direction.trans h.direction⟩

theorem remember (h : start.Steady w) (memory : Workshop) :
    start.Steady (w.remembering memory) := ⟨h.fold, h.saved, h.direction⟩

theorem restance (h : start.Steady w) {stance : Stance}
    (hd : stance.direction = w.stance.direction) :
    start.Steady { w with stance := stance } := ⟨h.fold, h.saved, hd.trans h.direction⟩

theorem reset (h : start.Steady w) : start.Steady w.reset := h.restance rfl

theorem beginAssembly (h : start.Steady w) : start.Steady w.beginAssembly := by
  unfold Workshop.beginAssembly
  split
  · exact h.reset
  · exact h

theorem leave (h : w.enter.Steady after) : after.leave = w.remembering after := by
  obtain ⟨fold, saved, -⟩ := h
  have hfold : w.fold = after.fold := fold.symm
  unfold Workshop.leave
  rw [saved, remembering, hfold]
  rfl

end Steady

end Workshop

-- ---------------------------------------------------------------------------
-- Acts
-- ---------------------------------------------------------------------------

namespace Work

variable {act : Work α}

theorem Reads.steady (h : act.Reads) : Yields start.Steady act fun _ => True := by
  intro w hw
  have hrun : (act.run w).2 = w := h w
  exact ⟨fun _ _ => trivial, hrun.symm ▸ hw⟩

theorem steady_onArchive (act : ExceptT Error (StateM Archive) α) :
    Yields start.Steady (onArchive act) fun _ => True :=
  fun _ hw => ⟨fun _ _ => trivial, hw.fold, hw.saved, hw.direction⟩

theorem steady_filing (act : StateM Archive α) :
    Yields start.Steady (filing act) fun _ => True :=
  fun _ hw => ⟨fun _ _ => trivial, hw.fold, hw.saved, hw.direction⟩

theorem steady_modify {change : Workshop → Workshop}
    (h : ∀ w, start.Steady w → start.Steady (change w)) :
    Yields start.Steady (modify change : Work PUnit) fun _ => True :=
  fun w hw => ⟨fun _ _ => trivial, h w hw⟩

theorem steady_keep (result : Option Name) (value : Value) :
    Yields start.Steady (keep result value) fun _ => True := by
  intro w hw
  cases result with
  | none => exact ⟨fun _ _ => trivial, hw⟩
  | some name => exact ⟨fun _ _ => trivial, hw.remember (w.store name value)⟩

theorem steady_onStance {act : Stance → Except Error α × Stance}
    (h : ∀ s, (act s).2.direction = s.direction) :
    Yields start.Steady (onStance act) fun _ => True :=
  fun w hw => ⟨fun _ _ => trivial, hw.restance (h w.stance)⟩

end Work

theorem Stance.admitPattern_direction (s : Stance) (fold : Bool) (p : Pattern) :
    (s.admitPattern fold p).2.direction = s.direction := by
  unfold admitPattern
  split <;> rfl

theorem Stance.admitComposite_direction (s : Stance) (fold : Bool) (source : Text) (t : Traits) :
    (s.admitComposite fold source t).2.direction = s.direction := by
  unfold admitComposite
  split <;> rfl

namespace Work

theorem steady_admitPattern (p : Pattern) :
    Yields start.Steady (admitPattern p) fun _ => True :=
  reads_get.steady.bind fun _ _ => steady_onStance fun s => s.admitPattern_direction _ p

theorem steady_admitFragment (f : Fragment) :
    Yields start.Steady (admitFragment f) fun _ => True := by
  unfold admitFragment
  split
  · exact (steady_admitPattern _).bind fun _ _ => .pure trivial
  · exact .pure trivial
  · exact reads_get.steady.bind fun _ _ =>
      (steady_onStance fun s => s.admitComposite_direction _ _ _).bind fun _ _ => .pure trivial

theorem steady_find (p : Pattern) (question : Question) :
    Yields start.Steady (p.find question) fun _ => True := by
  cases question with
  | needsWrapping wide => exact .throw _
  | captures | references | alternates | singleGroup =>
    exact (steady_filing _).bind fun _ _ => .pure trivial

theorem steady_force (name : Name) (question : Question) :
    Yields start.Steady (force name question) fun _ => True := by
  refine (reads_lookup name).steady.bind fun v _ => ?_
  cases v with
  | pattern p =>
    exact (steady_find p question).bind fun _ _ =>
      reads_get.steady.bind fun _ _ => .pure trivial
  | fragment f =>
    refine (steady_filing _).bind fun r _ => ?_
    obtain ⟨outcome, g⟩ := r
    refine (steady_modify fun w hw => hw.remember (w.store name (.fragment g))).bind fun _ _ => ?_
    cases outcome with
    | ok finding => exact reads_get.steady.bind fun _ _ => .pure trivial
    | error e => exact .throw _

theorem steady_action (a : Action) : Yields start.Steady a.run fun _ => True := by
  cases a with
  | compile result source letters =>
    exact (steady_onArchive _).bind fun p _ => steady_keep result (.pattern p)
  | raw result source letters =>
    exact (reads_flags? letters).steady.bind fun flags _ => steady_keep result _
  | native result name =>
    exact (reads_lookupPattern name).steady.bind fun p _ => steady_keep result _
  | copy result name => exact (reads_lookup name).steady.bind fun v _ => steady_keep result v
  | decorate result name wrapping =>
    refine (reads_lookup name).steady.bind fun v _ => reads_get.steady.bind fun w _ => ?_
    exact (steady_onArchive _).bind fun f _ => steady_keep result (.fragment f)
  | finish result name add remove direction =>
    refine (reads_lookup name).steady.bind fun v _ => ?_
    refine (reads_flags? add).steady.bind fun add _ => ?_
    refine (reads_flags? remove).steady.bind fun remove _ => reads_get.steady.bind fun w _ => ?_
    exact (steady_onArchive _).bind fun p _ => steady_keep result (.pattern p)
  | stance => exact reads_get.steady.bind fun _ _ => .pure trivial
  | reset => exact (steady_modify fun _ hw => hw.reset).bind fun _ _ => .pure trivial
  | inspect name => exact (reads_lookup name).steady.bind fun v _ => steady_keep none v
  | force name question => exact steady_force name question
  | same first second =>
    refine (reads_lookupPattern first).steady.bind fun p _ => ?_
    exact (reads_lookupPattern second).steady.bind fun q _ => .pure trivial
  | checkDirection name building =>
    refine (reads_lookupPattern name).steady.bind fun p _ => ?_
    split
    · exact .pure trivial
    · exact .throw _
  | malformed before field =>
    exact (reads_requireAll before).steady.bind fun _ _ => .throw _

theorem steady_build {layout : Layout} {count : Nat} {resolve : Bool → Work (List Part)}
    (h : ∀ wrap, Yields start.Steady (resolve wrap) fun _ => True) :
    Yields start.Steady (build layout count resolve) fun _ => True :=
  (h _).bind fun _ _ => reads_get.steady.bind fun _ _ => steady_onArchive _

theorem steady_logged {act : Work Answer}
    (h : Yields start.Steady act fun _ => True) :
    Yields start.Steady (logged act) fun _ => True := by
  intro w hw
  have hact := (h { w with builders := [] } (hw.remember { w with builders := [] })).2
  exact ⟨fun _ _ => trivial, hact.fold, hact.saved, hact.direction⟩

end Work

-- ---------------------------------------------------------------------------
-- Shields
-- ---------------------------------------------------------------------------

/-- Behind a shield that saves the stance only the memory of the workshop may
have changed. Fresh flags under the shield are no different to the outside. -/
theorem Shield.leave_remembers (shield : Shield) (hd : ∀ d, shield ≠ .direction d)
    (h : (shield.enter w).Steady after) : shield.leave w after = w.remembering after := by
  cases shield with
  | reentrant => exact h.leave
  | scope =>
    have hsaved : w.enter.Steady after := (Workshop.Steady.refl w.enter).reset.trans h
    exact hsaved.leave
  | direction d => exact absurd rfl (hd d)

theorem Shield.leave_steady {shield : Shield} (h : (shield.enter w).Steady after) :
    w.Steady (shield.leave w after) := by
  cases shield with
  | reentrant | scope =>
    rw [leave_remembers _ (by simp) h]
    exact (Workshop.Steady.refl w).remember _
  | direction d => exact ⟨h.fold, h.saved, rfl⟩

theorem Workshop.steady_shielded {act : StateM Workshop α} (shield : Shield)
    (h : ∀ start : Workshop, Keeps start.Steady act fun _ => True) :
    Keeps start.Steady (shielded shield act) fun _ => True := by
  intro w hw
  rw [run_shielded]
  exact ⟨trivial, hw.trans (Shield.leave_steady (h _ _ (.refl _)).2)⟩

-- ---------------------------------------------------------------------------
-- Steps
-- ---------------------------------------------------------------------------

theorem Work.steady_conclude (result : Item) (answers : List Answer) (failure : Option Failure) :
    Keeps start.Steady (conclude result answers failure) fun _ => True := by
  intro w hw
  rw [conclude_behind]
  exact ⟨trivial, hw⟩

mutual
theorem Item.steady (item : Item) (seen : Bindings) (wrap : Bool) (start : Workshop) :
    Yields start.Steady (item.resolve seen wrap) fun _ => True := by
  match item with
  | .literal t =>
    rw [Item.resolve]
    exact .pure trivial
  | .pattern p =>
    rw [Item.resolve]
    exact Work.steady_admitFragment _
  | .fragment f =>
    rw [Item.resolve]
    exact Work.steady_admitFragment f
  | .named name =>
    rw [Item.resolve]
    split
    · exact Work.steady_admitFragment _
    · exact .throw _
  | .tree items =>
    rw [Item.resolve]
    exact (Work.steady_build fun wrap => Item.steadyAll items seen wrap start).bind
      fun _ _ => .pure trivial
  | .deferred steps result =>
    rw [Item.resolve_deferred]
    have hbuilder : Yields start.Steady (Work.awaitBuilder steps result) fun _ => True := by
      have hsteps : ∀ start : Workshop, Keeps start.Steady
          (Step.runAll steps >>= fun r => Work.conclude result r.1 r.2) fun _ => True :=
        fun start =>
          (Step.steadyAll steps start).bind fun r _ => Work.steady_conclude result r.1 r.2
      refine (Yields.lift (Workshop.steady_shielded .reentrant hsteps)).bind fun r _ => ?_
      exact (Work.steady_modify fun w hw => hw.remember (w.logBuilder r.1)).bind fun _ _ =>
        Yields.ofExcept fun _ _ => trivial
    refine hbuilder.bind fun seen _ => ?_
    split
    · exact .throw _
    · exact Item.steady result seen wrap start
  | .malformed field =>
    rw [Item.resolve]
    exact .throw _

theorem Item.steadyAll (items : List Item) (seen : Bindings) (wrap : Bool) (start : Workshop) :
    Yields start.Steady (Item.resolveAll seen wrap items) fun _ => True := by
  match items with
  | [] =>
    rw [Item.resolveAll]
    exact .pure trivial
  | item :: rest =>
    rw [Item.resolveAll]
    exact (Item.steady item seen wrap start).bind fun _ _ =>
      (Item.steadyAll rest seen wrap start).bind fun _ _ => .pure trivial

theorem Step.steady (step : Step) (start : Workshop) :
    Yields start.Steady step.run fun _ => True := by
  match step with
  | .action a =>
    rw [Step.run]
    exact Work.steady_action a
  | .assemble result items layout =>
    rw [Step.run]
    refine (Work.reads_requireAll _).steady.bind fun _ _ => Work.steady_logged ?_
    refine Work.reads_get.steady.bind fun w _ => ?_
    refine (Work.steady_modify fun _ hw => hw.beginAssembly).bind fun _ _ => ?_
    exact (Work.steady_build fun wrap => Item.steadyAll items w.bindings wrap start).bind
      fun f _ => Work.steady_keep result (.fragment f)
  | .nested shield steps =>
    rw [Step.run]
    refine (Yields.lift (Workshop.steady_shielded shield (Step.steadyAll steps))).bind
      fun r _ => ?_
    exact (Work.reads_nested r.1 r.2).steady

theorem Step.steadyAll (steps : List Step) (start : Workshop) :
    Keeps start.Steady (Step.runAll steps) fun _ => True := by
  match steps with
  | [] =>
    rw [Step.runAll]
    exact .pure trivial
  | step :: rest =>
    rw [Step.runAll]
    have hstep : Keeps start.Steady step.run.run fun _ => True :=
      Keeps.mono (Step.steady step start) fun _ _ => trivial
    refine hstep.bind fun outcome _ => ?_
    cases outcome with
    | ok answer => exact (Step.steadyAll rest start).bind fun _ _ => .pure trivial
    | error failure => exact .pure trivial
end

theorem runProgram_steady (program : List Step) (w : Workshop) :
    w.Steady ((runProgram program).run w).2 := by
  have h : Keeps w.Steady (runProgram program) fun _ => True := by
    induction program with
    | nil => exact .pure trivial
    | cons step rest ih =>
      have hstep : Keeps w.Steady step.run.run fun _ => True :=
        Keeps.mono (Step.steady step w) fun _ _ => trivial
      refine hstep.bind fun outcome _ => ?_
      split
      · exact ih.bind fun _ _ => .pure trivial
      · exact .pure trivial
  exact (h w (.refl w)).2

end Splice
