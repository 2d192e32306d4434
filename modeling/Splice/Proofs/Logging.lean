import Splice.Proofs.Moments

/-!
# The log of builders

The log collects answers for the caller. No act of a workshop depends on what
is already in it.
-/

namespace Splice

variable {α β : Type}

theorem Work.discard_eq (act : Work α) : discard act = (do let _ ← act; return ()) := by
  rw [Functor.discard, map_const, Function.comp_apply, map_eq_pure_bind]

/-- An act to which the log of builders makes no difference. -/
def Unlogged (act : StateM Workshop α) : Prop :=
  ∀ w log, ∃ later,
    act { w with builders := log } = ((act w).1, { (act w).2 with builders := later })

namespace Unlogged

variable {act : StateM Workshop α} {next : α → StateM Workshop β}

theorem pure (a : α) : Unlogged (pure a) := fun _ log => ⟨log, rfl⟩

theorem bind (h : Unlogged act) (hn : ∀ a, Unlogged (next a)) : Unlogged (act >>= next) := by
  intro w log
  obtain ⟨later, hact⟩ := h w log
  obtain ⟨last, hnext⟩ := hn (act w).1 (act w).2 later
  refine ⟨last, ?_⟩
  have hrun : (act >>= next) { w with builders := log } =
      next (act { w with builders := log }).1 (act { w with builders := log }).2 := rfl
  rw [hrun, hact]
  exact hnext

theorem modify {change : Workshop → Workshop}
    (h : ∀ w log, ∃ later, change { w with builders := log } =
      { change w with builders := later }) : Unlogged (modify change) := by
  intro w log
  obtain ⟨later, hc⟩ := h w log
  exact ⟨later, congrArg (Prod.mk PUnit.unit) hc⟩

theorem reentrant (h : Unlogged act) : Unlogged (Workshop.reentrant act) := by
  refine (modify fun _ log => ⟨log, rfl⟩).bind fun _ => h.bind fun a => ?_
  refine (modify fun w log => ⟨log, ?_⟩).bind fun _ => pure a
  obtain ⟨fold, stance, saved, archive, bindings, builders⟩ := w
  cases saved <;> rfl

theorem facing (h : Unlogged act) (d : Direction) : Unlogged (Workshop.facing d act) := by
  intro w log
  obtain ⟨later, hact⟩ := h { w with stance := { w.stance with direction := d } } log
  refine ⟨later, ?_⟩
  have hrun : ∀ w, Workshop.facing d act w =
      let r := act { w with stance := { w.stance with direction := d } }
      (r.1, { r.2 with stance := { r.2.stance with direction := w.stance.direction } }) :=
    fun _ => rfl
  rw [hrun, hrun]
  simp only [hact]

theorem shielded (h : Unlogged act) (shield : Shield) :
    Unlogged (Workshop.shielded shield act) := by
  cases shield with
  | reentrant => exact h.reentrant
  | scope => exact ((modify fun _ log => ⟨log, rfl⟩).bind fun _ => h).reentrant
  | direction d => exact h.facing d

end Unlogged

namespace Work

variable {act : Work α} {next : α → Work β}

theorem unlogged_throw (failure : Failure) : Unlogged (throw failure : Work α).run :=
  .pure _

theorem unlogged_bind (h : Unlogged act.run) (hn : ∀ a, Unlogged (next a).run) :
    Unlogged (act >>= next).run := by
  have hrun : (act >>= next).run = act.run >>= ExceptT.bindCont next := rfl
  rw [hrun]
  refine h.bind fun outcome => ?_
  cases outcome with
  | ok a => exact hn a
  | error failure => exact .pure _

theorem unlogged_modify {change : Workshop → Workshop}
    (h : ∀ w log, ∃ later, change { w with builders := log } =
      { change w with builders := later }) : Unlogged (modify change : Work PUnit).run := by
  intro w log
  obtain ⟨later, hc⟩ := h w log
  have hrun : ∀ w, (modify change : Work PUnit).run w = (.ok ⟨⟩, change w) := fun _ => rfl
  exact ⟨later, by rw [hrun, hrun, hc]⟩

theorem unlogged_discard (h : Unlogged act.run) : Unlogged (discard act : Work Unit).run := by
  rw [discard_eq]
  exact unlogged_bind h fun _ => .pure _

theorem unlogged_get {next : Workshop → Work α} (h : ∀ w, Unlogged (next w).run)
    (hn : ∀ w log, next { w with builders := log } = next w := by exact fun _ _ => rfl) :
    Unlogged ((get : Work Workshop) >>= next).run := by
  intro w log
  have hrun : ∀ w, ((get : Work Workshop) >>= next).run w = (next w).run w := fun _ => rfl
  obtain ⟨later, hw⟩ := h w w log
  refine ⟨later, ?_⟩
  rw [hrun, hrun, hn]
  exact hw

theorem unlogged_onArchive (act : ExceptT Error (StateM Archive) α) :
    Unlogged (onArchive act).run := fun _ log => ⟨log, rfl⟩

theorem unlogged_filing (act : StateM Archive α) : Unlogged (filing act).run :=
  fun _ log => ⟨log, rfl⟩

theorem unlogged_onStance (act : Stance → Except Error α × Stance) :
    Unlogged (onStance act).run := fun _ log => ⟨log, rfl⟩

theorem unlogged_lookup (name : Name) : Unlogged (lookup name).run := by
  refine unlogged_get fun w => ?_
  split
  · exact .pure _
  · exact unlogged_throw _

theorem unlogged_lookupPattern (name : Name) : Unlogged (lookupPattern name).run := by
  refine unlogged_bind (unlogged_lookup name) fun v => ?_
  cases v with
  | pattern p => exact .pure _
  | fragment f => exact unlogged_throw _

theorem unlogged_flags (letters : Text) : Unlogged (flags letters).run := by
  unfold flags
  split
  · exact .pure _
  · exact unlogged_throw _

theorem unlogged_flags? (letters : Option Text) : Unlogged (flags? letters).run := by
  cases letters with
  | none => exact .pure _
  | some letters => exact unlogged_bind (unlogged_flags letters) fun _ => .pure _

theorem unlogged_require (r : Requirement) : Unlogged (require r).run := by
  cases r with
  | defined name => exact unlogged_discard (unlogged_lookup name)
  | pattern name => exact unlogged_discard (unlogged_lookupPattern name)
  | flags letters => exact unlogged_discard (unlogged_flags letters)
  | malformed field => exact unlogged_throw _

theorem unlogged_requireAll (rs : List Requirement) : Unlogged (requireAll rs).run := by
  induction rs with
  | nil => exact .pure _
  | cons r rs ih => exact unlogged_bind (unlogged_require r) fun _ => ih

theorem unlogged_keep (result : Option Name) (value : Value) :
    Unlogged (keep result value).run := by
  cases result with
  | none => exact fun _ log => ⟨log, rfl⟩
  | some name => exact fun _ log => ⟨log, rfl⟩

theorem unlogged_find (p : Pattern) (question : Question) : Unlogged (p.find question).run := by
  cases question with
  | needsWrapping wide => exact unlogged_throw _
  | captures | references | alternates | singleGroup =>
    exact unlogged_bind (unlogged_filing _) fun _ => .pure _

theorem unlogged_force (name : Name) (question : Question) :
    Unlogged (force name question).run := by
  refine unlogged_bind (unlogged_lookup name) fun v => ?_
  cases v with
  | pattern p =>
    exact unlogged_bind (unlogged_find p question) fun _ => unlogged_get fun _ => .pure _
  | fragment f =>
    refine unlogged_bind (unlogged_filing _) fun r => ?_
    obtain ⟨outcome, g⟩ := r
    refine unlogged_bind (unlogged_modify fun _ log => ⟨log, rfl⟩) fun _ => ?_
    cases outcome with
    | ok finding => exact unlogged_get fun _ => .pure _
    | error e => exact unlogged_throw _

theorem unlogged_action (a : Action) : Unlogged a.run.run := by
  cases a with
  | compile result source letters =>
    exact unlogged_bind (unlogged_onArchive _) fun p => unlogged_keep result (.pattern p)
  | raw result source letters =>
    exact unlogged_bind (unlogged_flags? letters) fun _ => unlogged_keep result _
  | native result name =>
    exact unlogged_bind (unlogged_lookupPattern name) fun _ => unlogged_keep result _
  | copy result name => exact unlogged_bind (unlogged_lookup name) (unlogged_keep result)
  | decorate result name wrapping =>
    refine unlogged_bind (unlogged_lookup name) fun v => unlogged_get fun w => ?_
    exact unlogged_bind (unlogged_onArchive _) fun f => unlogged_keep result (.fragment f)
  | finish result name add remove direction =>
    refine unlogged_bind (unlogged_lookup name) fun v => ?_
    refine unlogged_bind (unlogged_flags? add) fun add => ?_
    refine unlogged_bind (unlogged_flags? remove) fun remove => unlogged_get fun w => ?_
    exact unlogged_bind (unlogged_onArchive _) fun p => unlogged_keep result (.pattern p)
  | stance => exact unlogged_get fun _ => .pure _
  | reset => exact unlogged_bind (unlogged_modify fun _ log => ⟨log, rfl⟩) fun _ => .pure _
  | inspect name => exact unlogged_bind (unlogged_lookup name) (unlogged_keep none)
  | force name question => exact unlogged_force name question
  | same first second =>
    refine unlogged_bind (unlogged_lookupPattern first) fun p => ?_
    exact unlogged_bind (unlogged_lookupPattern second) fun q => .pure _
  | checkDirection name building =>
    refine unlogged_bind (unlogged_lookupPattern name) fun p => ?_
    split
    · exact .pure _
    · exact unlogged_throw _
  | malformed before field =>
    exact unlogged_bind (unlogged_requireAll before) fun _ => unlogged_throw _

theorem unlogged_admitFragment (f : Fragment) : Unlogged (admitFragment f).run := by
  unfold admitFragment
  split
  · exact unlogged_bind (unlogged_get fun _ => unlogged_onStance _) fun _ => .pure _
  · exact .pure _
  · exact unlogged_get fun _ => unlogged_bind (unlogged_onStance _) fun _ => .pure _

theorem unlogged_build {layout : Layout} {count : Nat} {resolve : Bool → Work (List Part)}
    (h : ∀ wrap, Unlogged (resolve wrap).run) : Unlogged (build layout count resolve).run :=
  unlogged_bind (h _) fun _ => unlogged_get fun _ => unlogged_onArchive _

theorem unlogged_logged (act : Work Answer) : Unlogged (logged act).run :=
  fun _ log => ⟨log, rfl⟩

theorem unlogged_nested (answers : List Answer) (failure : Option Failure) :
    Unlogged (nested answers failure).run := by
  cases failure with
  | none => exact .pure _
  | some f => exact unlogged_throw _

theorem unlogged_conclude (result : Item) (answers : List Answer) (failure : Option Failure) :
    Unlogged (conclude result answers failure) := by
  cases failure with
  | some f => exact .pure _
  | none =>
    intro w log
    obtain ⟨later, hr⟩ := unlogged_requireAll result.requirements w log
    have hrun : ∀ w, conclude result answers none w =
        let r := (requireAll result.requirements).run w
        ((answers, r.1.map fun _ => r.2.bindings), r.2) := fun _ => rfl
    refine ⟨later, ?_⟩
    rw [hrun, hrun]
    simp only [hr]

end Work

mutual
theorem Item.unlogged (item : Item) (seen : Bindings) (wrap : Bool) :
    Unlogged (item.resolve seen wrap).run := by
  match item with
  | .literal t =>
    rw [Item.resolve]
    exact .pure _
  | .pattern p =>
    rw [Item.resolve]
    exact Work.unlogged_admitFragment _
  | .fragment f =>
    rw [Item.resolve]
    exact Work.unlogged_admitFragment f
  | .named name =>
    rw [Item.resolve]
    split
    · exact Work.unlogged_admitFragment _
    · exact Work.unlogged_throw _
  | .tree items =>
    rw [Item.resolve]
    refine Work.unlogged_bind ?_ fun _ => .pure _
    exact Work.unlogged_build fun wrap => Item.unloggedAll items seen wrap
  | .deferred steps result =>
    rw [Item.resolve_deferred]
    have hbuilder : Unlogged (Work.awaitBuilder steps result).run := by
      have hsteps : Unlogged (Step.runAll steps >>= fun r => Work.conclude result r.1 r.2) :=
        (Step.unloggedAll steps).bind fun r => Work.unlogged_conclude result r.1 r.2
      refine Work.unlogged_bind (hsteps.reentrant.bind fun _ => .pure _) fun r => ?_
      exact Work.unlogged_bind (Work.unlogged_modify fun w log => ⟨log ++ [r.1], rfl⟩)
        fun _ => .pure _
    refine Work.unlogged_bind hbuilder fun seen => ?_
    split
    · exact Work.unlogged_throw _
    · exact Item.unlogged result seen wrap
  | .malformed field =>
    rw [Item.resolve]
    exact Work.unlogged_throw _

theorem Item.unloggedAll (items : List Item) (seen : Bindings) (wrap : Bool) :
    Unlogged (Item.resolveAll seen wrap items).run := by
  match items with
  | [] =>
    rw [Item.resolveAll]
    exact .pure _
  | item :: rest =>
    rw [Item.resolveAll]
    exact Work.unlogged_bind (Item.unlogged item seen wrap) fun _ =>
      Work.unlogged_bind (Item.unloggedAll rest seen wrap) fun _ => .pure _

theorem Step.unlogged (step : Step) : Unlogged step.run.run := by
  match step with
  | .action a =>
    rw [Step.run]
    exact Work.unlogged_action a
  | .assemble result items layout =>
    rw [Step.run]
    exact Work.unlogged_bind (Work.unlogged_requireAll _) fun _ => Work.unlogged_logged _
  | .nested shield steps =>
    rw [Step.run]
    refine Work.unlogged_bind (((Step.unloggedAll steps).shielded shield).bind fun _ => .pure _) ?_
    exact fun r => Work.unlogged_nested r.1 r.2

theorem Step.unloggedAll (steps : List Step) : Unlogged (Step.runAll steps) := by
  match steps with
  | [] =>
    rw [Step.runAll]
    exact .pure _
  | step :: rest =>
    rw [Step.runAll]
    refine (Step.unlogged step).bind fun outcome => ?_
    cases outcome with
    | ok answer => exact (Step.unloggedAll rest).bind fun _ => .pure _
    | error failure => exact .pure _
end

end Splice
