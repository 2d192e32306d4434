import Splice.Proofs.Coupling

/-!
# Rejected items

A fragment is checked where an item of an assembly is resolved (`Item.Checks`).
Where a check rejects it for its flags, the workshop is what it was before, because
flags come in pairs, and the assembly fails for that reason. Nothing else fails for
flags: such a failure of a step can be traced to a check, in its own assembly or in
that of a step that it runs.
-/

namespace Splice

variable {α : Type} {fold : Bool} {w after : Workshop} {f : Fragment} {failure : Failure}
  {e : Error}

-- ---------------------------------------------------------------------------
-- Checks
-- ---------------------------------------------------------------------------

/-- A fragment that is checked as an item, with the workshop in which this happens. -/
structure Check where
  fragment : Fragment
  before : Workshop

namespace Check

def outcome (c : Check) : Except Failure Part × Workshop :=
  (Work.admitFragment c.fragment).run c.before

def Rejects (c : Check) (e : Error) : Prop := c.outcome.1 = .error (.ofError e)

end Check

mutual
/-- The checks that resolving an item comes to, in trees and behind builders as well. -/
inductive Item.Checks : Bindings → Bool → Item → Workshop → Check → Prop
  | pattern {seen : Bindings} {wrap : Bool} {w : Workshop} (p : Pattern) :
      Item.Checks seen wrap (.pattern p) w ⟨.native p, w⟩
  | fragment {seen : Bindings} {wrap : Bool} {w : Workshop} (f : Fragment) :
      Item.Checks seen wrap (.fragment f) w ⟨f, w⟩
  | named {seen : Bindings} {wrap : Bool} {w : Workshop} {name : Name} {v : Value}
      (hv : seen.lookup name = some v) : Item.Checks seen wrap (.named name) w ⟨v.toFragment, w⟩
  | tree {seen : Bindings} {wrap : Bool} {w : Workshop} {items : List Item} {c : Check}
      (inside : Item.ChecksAll seen (wrap || 1 < items.length) items w c) :
      Item.Checks seen wrap (.tree items) w c
  | deferred {seen later : Bindings} {wrap : Bool} {w after : Workshop} {steps : List Step}
      {result : Item} {c : Check}
      (await : (Work.awaitBuilder steps result).run w = (.ok later, after))
      (resolved : result.isDeferred = false) (behind : Item.Checks later wrap result after c) :
      Item.Checks seen wrap (.deferred steps result) w c

inductive Item.ChecksAll : Bindings → Bool → List Item → Workshop → Check → Prop
  | head {seen : Bindings} {wrap : Bool} {w : Workshop} {item : Item} {rest : List Item} {c : Check}
      (first : Item.Checks seen wrap item w c) : Item.ChecksAll seen wrap (item :: rest) w c
  | tail {seen : Bindings} {wrap : Bool} {w after : Workshop} {item : Item} {rest : List Item}
      {part : Part} {c : Check} (first : (item.resolve seen wrap).run w = (.ok part, after))
      (behind : Item.ChecksAll seen wrap rest after c) :
      Item.ChecksAll seen wrap (item :: rest) w c
end

/-- The checks of an assembly, which begin once all that its items require is there. -/
inductive Moment.Checks : Moment → Check → Prop
  | assemble {result : Option Name} {items : List Item} {layout : Layout} {w : Workshop} {c : Check}
      (ready : (Work.requireAll (Item.requirementsAll items)).run w = (.ok (), w))
      (inside : Item.ChecksAll w.bindings (layout.wrap || 1 < items.length) items
        (Workshop.beginAssembly { w with builders := [] }) c) :
      Moment.Checks ⟨.assemble result items layout, w⟩ c

theorem Work.run_error {β : Type} {act : Work α} {next : α → Work β}
    (h : act.run w = (.error failure, after)) :
    (act >>= next).run w = (.error failure, after) := by
  rw [run_bind, h]

mutual
theorem Item.rejected (item : Item) {seen : Bindings} {wrap : Bool} {w : Workshop} {c : Check}
    (h : item.Checks seen wrap w c) (he : c.Rejects e) :
    (item.resolve seen wrap).run w = (.error (.ofError e), c.outcome.2) := by
  match item with
  | .literal _ | .malformed _ => cases h
  | .pattern p =>
    cases h
    rw [Item.resolve]
    exact Prod.ext he rfl
  | .fragment f =>
    cases h
    rw [Item.resolve]
    exact Prod.ext he rfl
  | .named name =>
    cases h with
    | named hv =>
      rw [Item.resolve, hv]
      exact Prod.ext he rfl
  | .tree items =>
    cases h with
    | tree inside =>
      rw [Item.resolve]
      exact Work.run_error (Work.run_error (Item.rejectedAll items inside he))
  | .deferred steps result =>
    cases h with
    | deferred await resolved behind =>
      rw [Item.resolve_deferred, run_bind, await]
      simp only [resolved]
      exact Item.rejected result behind he

theorem Item.rejectedAll (items : List Item) {seen : Bindings} {wrap : Bool} {w : Workshop}
    {c : Check} (h : Item.ChecksAll seen wrap items w c) (he : c.Rejects e) :
    (Item.resolveAll seen wrap items).run w = (.error (.ofError e), c.outcome.2) := by
  match items with
  | [] => cases h
  | item :: rest =>
    rw [Item.resolveAll]
    cases h with
    | head first => exact Work.run_error (Item.rejected item first he)
    | tail first behind =>
      rw [run_bind, first]
      exact Work.run_error (Item.rejectedAll rest behind he)
end

theorem Moment.Checks.rejected {m : Moment} {c : Check} (h : m.Checks c)
    (he : c.Rejects e) :
    (m.step.run.run m.before).1.mapError Failure.cause = .error (.error e) ∧
      m.after.stance = c.outcome.2.stance := by
  cases h with
  | @assemble result items layout w c ready inside =>
    let act : Work Answer := do
      let f ← Work.assemble layout items
      Work.keep result (.fragment f)
    have hbuild : (Work.build layout items.length fun wrap =>
        Item.resolveAll w.bindings wrap items).run
          (Workshop.beginAssembly { w with builders := [] }) =
            (.error (.ofError e), c.outcome.2) := Work.run_error (Item.rejectedAll items inside he)
    have hassemble : (Work.assemble layout items).run { w with builders := [] } =
        (.error (.ofError e), c.outcome.2) := hbuild
    have hact : act.run { w with builders := [] } = (.error (.ofError e), c.outcome.2) :=
      Work.run_error hassemble
    have hrun : (Step.assemble result items layout).run.run w = (Work.logged act).run w := by
      rw [Step.run_assemble, run_bind, ready]
    have hafter : ((Work.logged act).run w).2 =
        { (act.run { w with builders := [] }).2 with builders := w.builders } := rfl
    unfold Moment.after
    simp only
    rw [hrun, hafter, Work.run_logged, hact]
    exact ⟨rfl, rfl⟩

mutual
theorem Item.coupled_check (item : Item) (hb : item.byName) {seen : Bindings} {wrap : Bool}
    {w : Workshop} {c : Check} (hw : w.Coupled) (hs : seen.Coupled)
    (h : item.Checks seen wrap w c) : c.before.Coupled := by
  match item with
  | .literal _ | .malformed _ => cases h
  | .pattern p =>
    cases h
    exact hw
  | .fragment f =>
    cases h
    exact hw
  | .named name =>
    cases h
    exact hw
  | .tree items =>
    cases h with
    | tree inside => exact Item.coupled_checkAll items hb hw hs inside
  | .deferred steps result =>
    rw [Item.byName, Bool.and_eq_true] at hb
    cases h with
    | deferred await resolved behind =>
      obtain ⟨hlater, hafter⟩ := Work.coupled_of_run
        (Work.coupled_awaitBuilder result (Step.coupledAll steps hb.1)) hw await
      exact Item.coupled_check result hb.2 hafter hlater behind

theorem Item.coupled_checkAll (items : List Item) (hb : Item.byNameAll items) {seen : Bindings}
    {wrap : Bool} {w : Workshop} {c : Check} (hw : w.Coupled) (hs : seen.Coupled)
    (h : Item.ChecksAll seen wrap items w c) : c.before.Coupled := by
  match items with
  | [] => cases h
  | item :: rest =>
    rw [Item.byNameAll, Bool.and_eq_true] at hb
    cases h with
    | head first => exact Item.coupled_check item hb.1 hw hs first
    | tail first behind =>
      have hafter := (Work.coupled_of_run (Item.coupled item hb.1 hs wrap) hw first).2
      exact Item.coupled_checkAll rest hb.2 hafter hs behind
end

theorem Moment.Coupled.check {m : Moment} {c : Check} (h : m.Coupled) (hc : m.Checks c) :
    c.before.Coupled := by
  cases hc with
  | @assemble result items layout w c ready inside =>
    have hempty : Workshop.Coupled { w with builders := [] } := h.before.congr rfl rfl rfl
    exact Item.coupled_checkAll _ h.byName hempty.beginAssembly h.before.values inside

-- ---------------------------------------------------------------------------
-- What a check changes
-- ---------------------------------------------------------------------------

/-- What a stance makes of a fragment. -/
def Fragment.verdict (fold : Bool) (s : Stance) (f : Fragment) : Except Error Bool × Stance :=
  match f.origin with
  | .native p => s.admitPattern fold p
  | .literal => (.ok false, s)
  | .composite traits _ => s.admitComposite fold f.source traits

theorem Work.run_onStance (act : Stance → Except Error α × Stance) (w : Workshop) :
    (onStance act).run w =
      ((act w.stance).1.mapError Failure.ofError, { w with stance := (act w.stance).2 }) := rfl

theorem Work.run_admitFragment (f : Fragment) (w : Workshop) :
    (admitFragment f).run w =
      (((f.verdict w.fold w.stance).1.mapError Failure.ofError).map fun directed => (f, directed),
        { w with stance := (f.verdict w.fold w.stance).2 }) := by
  have directed : ∀ act : Stance → Except Error Bool × Stance,
      (do return (f, ← onStance act) : Work Part).run w =
        (((act w.stance).1.mapError Failure.ofError).map fun directed => (f, directed),
          { w with stance := (act w.stance).2 }) := by
    intro act
    rw [run_bind, run_onStance]
    cases (act w.stance).1 <;> rfl
  unfold admitFragment Fragment.verdict
  cases f.origin with
  | native p => exact directed (Stance.admitPattern w.fold p)
  | literal => rfl
  | composite traits record => exact directed (Stance.admitComposite w.fold f.source traits)

theorem Fragment.verdict_rejected {s : Stance} (hs : s.agreement.Coupled)
    (h : (f.verdict fold s).1 = .error e) (he : e.isFlagMismatch) : (f.verdict fold s).2 = s := by
  unfold Fragment.verdict at h ⊢
  cases ho : f.origin with
  | native p =>
    rw [ho] at h
    exact Stance.admitPattern_rejected hs h he
  | literal => rfl
  | composite traits record =>
    rw [ho] at h
    exact Stance.admitComposite_rejected hs h

theorem Work.admitFragment_error : ((admitFragment f).run w).1 = .error failure ↔
    ∃ e, (f.verdict w.fold w.stance).1 = .error e ∧ failure = .ofError e := by
  rw [run_admitFragment]
  cases (f.verdict w.fold w.stance).1 with
  | ok directed => simp [Except.mapError, Except.map]
  | error e => simp [Except.mapError, Except.map, eq_comm]

theorem Check.Rejects.unchanged {c : Check} (h : c.Rejects e) (hc : c.before.Coupled)
    (he : e.isFlagMismatch) : c.outcome.2 = c.before := by
  obtain ⟨f, w⟩ := c
  obtain ⟨e', hverdict, hfailure⟩ := Work.admitFragment_error.mp h
  obtain rfl : e = e' := Cause.error.inj (congrArg Failure.cause hfailure)
  rw [outcome, Work.run_admitFragment]
  simp only [Fragment.verdict_rejected hc.stance hverdict he]

-- ---------------------------------------------------------------------------
-- Where failures come from
-- ---------------------------------------------------------------------------

/-- A moment at which the check of an item rejects a fragment. -/
def Moment.Rejects (m : Moment) (e : Error) : Prop := ∃ c, m.Checks c ∧ c.Rejects e

theorem Check.rejects_of_run (h : (Work.admitFragment f).run w = (.error failure, after))
    (hm : failure.IsMismatch e) : Check.Rejects ⟨f, w⟩ e := by
  obtain ⟨e', -, rfl⟩ := Work.admitFragment_error.mp (congrArg Prod.fst h)
  obtain rfl : e' = e := Cause.error.inj hm.cause_eq
  exact congrArg Prod.fst h

theorem Work.of_build_error {layout : Layout} {count : Nat} {resolve : Bool → Work (List Part)}
    (hm : failure.IsMismatch e) (h : (build layout count resolve).run w = (.error failure, after)) :
    (resolve (layout.wrap || 1 < count)).run w = (.error failure, after) := by
  refine FailsBy.before (fun parts => ?_) hm.not_other h
  exact failsBy_get.bind fun w => failsBy_onArchive (Fragment.failsBy_assemble _ _ _ _ _)

theorem Work.of_awaitBuilder_error {steps : List Step} {result : Item}
    (hm : failure.IsMismatch e)
    (h : (awaitBuilder steps result).run w = (.error failure, after)) :
    (Step.runAll steps w.enter).1.2 = some failure := by
  have houtcome : (conclude result (Step.runAll steps w.enter).1.1
      (Step.runAll steps w.enter).1.2 (Step.runAll steps w.enter).2).1.2 = .error failure :=
    congrArg Prod.fst h
  cases hsteps : (Step.runAll steps w.enter).1.2 with
  | some other =>
    rw [hsteps] at houtcome
    obtain rfl : other = failure := Except.error.inj houtcome
    rfl
  | none =>
    rw [hsteps] at houtcome
    have hrequire : ((requireAll result.requirements).run (Step.runAll steps w.enter).2).1.map
        (fun _ => ((requireAll result.requirements).run (Step.runAll steps w.enter).2).2.bindings) =
          .error failure := houtcome
    cases hrun : (requireAll result.requirements).run (Step.runAll steps w.enter).2 with
    | mk outcome behind =>
      rw [hrun] at hrequire
      cases outcome with
      | ok u => cases hrequire
      | error other =>
        obtain rfl : other = failure := Except.error.inj hrequire
        exact absurd (failsBy_requireAll _ _ _ _ hrun) hm.not_other

theorem Work.of_logged_error {act : Work Answer} (hm : failure.IsMismatch e)
    (h : (logged act).run w = (.error failure, after)) :
    ∃ cause between, act.run { w with builders := [] } = (.error cause, between) ∧
      cause.IsMismatch e := by
  have houtcome := congrArg Prod.fst h
  rw [Work.run_logged] at houtcome
  cases hact : act.run { w with builders := [] } with
  | mk outcome between =>
    rw [hact] at houtcome
    cases outcome with
    | ok answer => cases houtcome
    | error cause =>
      obtain rfl := Except.error.inj houtcome
      exact ⟨cause, between, rfl, hm.cause_eq, hm.mismatch⟩

theorem Step.failure_of_ok {step : Step} {answer : Answer} (rest : List Step)
    (h : step.run.run w = (.ok answer, after)) :
    (Step.runAll (step :: rest) w).1.2 = (Step.runAll rest after).1.2 := by
  rw [Step.runAll]
  show (StateT.bind step.run.run _ w : (List Answer × Option Failure) × Workshop).1.2 = _
  rw [StateT.bind, h]
  rfl

theorem Step.failure_of_error {step : Step} (rest : List Step)
    (h : step.run.run w = (.error failure, after)) :
    (Step.runAll (step :: rest) w).1.2 = some failure := by
  rw [Step.runAll]
  show (StateT.bind step.run.run _ w : (List Answer × Option Failure) × Workshop).1.2 = _
  rw [StateT.bind, h]
  rfl

mutual
theorem Item.rejection (item : Item) {seen : Bindings} {wrap : Bool} {w after : Workshop}
    {failure : Failure} (hm : failure.IsMismatch e)
    (h : (item.resolve seen wrap).run w = (.error failure, after)) :
    (∃ c, item.Checks seen wrap w c ∧ c.Rejects e) ∨
      ∃ m ∈ item.moments seen wrap w, m.Rejects e := by
  match item with
  | .literal _ =>
    rw [Item.resolve] at h
    cases congrArg Prod.fst h
  | .malformed _ =>
    rw [Item.resolve] at h
    exact absurd (Work.failsBy_fail (by simp) _ _ _ h) hm.not_other
  | .pattern p =>
    rw [Item.resolve] at h
    exact .inl ⟨_, .pattern p, Check.rejects_of_run h hm⟩
  | .fragment f =>
    rw [Item.resolve] at h
    exact .inl ⟨_, .fragment f, Check.rejects_of_run h hm⟩
  | .named name =>
    rw [Item.resolve] at h
    cases hv : seen.lookup name with
    | some v =>
      rw [hv] at h
      exact .inl ⟨_, .named hv, Check.rejects_of_run h hm⟩
    | none =>
      rw [hv] at h
      exact absurd (Work.failsBy_fail (by simp) _ _ _ h) hm.not_other
  | .tree items =>
    rw [Item.resolve] at h
    have hbuild := FailsBy.before (fun _ => .pure _) hm.not_other h
    rw [Item.moments]
    obtain ⟨c, hc, hrejects⟩ | hinside := Item.rejectionAll items hm (Work.of_build_error hm hbuild)
    · exact .inl ⟨c, .tree hc, hrejects⟩
    · exact .inr hinside
  | .deferred steps result =>
    rw [Item.resolve_deferred] at h
    rw [Item.moments]
    obtain hawait | ⟨later, between, hawait, hresult⟩ := run_bind_error h
    · have hsteps := Work.of_awaitBuilder_error hm hawait
      obtain ⟨m, hmem, hrejects⟩ := Step.rejectionAll steps hm hsteps
      exact .inr ⟨m, List.mem_append_left _ hmem, hrejects⟩
    · split at hresult
      · have hother := Failure.isOther_ofError (e := .deferredResult) rfl
        exact absurd (FailsBy.throw hother _ _ _ hresult) hm.not_other
      · rename_i hdeferred
        have hresolved : result.isDeferred = false := by simpa using hdeferred
        obtain ⟨c, hc, hrejects⟩ | ⟨m, hmem, hrejects⟩ := Item.rejection result hm hresult
        · exact .inl ⟨c, .deferred hawait hresolved hc, hrejects⟩
        · refine .inr ⟨m, List.mem_append_right _ ?_, hrejects⟩
          rw [Work.onward_ok hawait, if_neg hdeferred]
          exact hmem

theorem Item.rejectionAll (items : List Item) {seen : Bindings} {wrap : Bool} {w after : Workshop}
    {failure : Failure} (hm : failure.IsMismatch e)
    (h : (Item.resolveAll seen wrap items).run w = (.error failure, after)) :
    (∃ c, Item.ChecksAll seen wrap items w c ∧ c.Rejects e) ∨
      ∃ m ∈ Item.momentsAll seen wrap items w, m.Rejects e := by
  match items with
  | [] =>
    rw [Item.resolveAll] at h
    cases congrArg Prod.fst h
  | item :: rest =>
    rw [Item.resolveAll] at h
    rw [Item.momentsAll]
    obtain hitem | ⟨part, between, hitem, hrest⟩ := run_bind_error h
    · obtain ⟨c, hc, hrejects⟩ | ⟨m, hmem, hrejects⟩ := Item.rejection item hm hitem
      · exact .inl ⟨c, .head hc, hrejects⟩
      · exact .inr ⟨m, List.mem_append_left _ hmem, hrejects⟩
    · have hrest := FailsBy.before (fun _ => .pure _) hm.not_other hrest
      obtain ⟨c, hc, hrejects⟩ | ⟨m, hmem, hrejects⟩ := Item.rejectionAll rest hm hrest
      · exact .inl ⟨c, .tail hitem hc, hrejects⟩
      · refine .inr ⟨m, List.mem_append_right _ ?_, hrejects⟩
        rw [Work.onward_ok hitem]
        exact hmem

theorem Step.rejection (step : Step) {w after : Workshop} {failure : Failure}
    (hm : failure.IsMismatch e) (h : step.run.run w = (.error failure, after)) :
    ∃ m ∈ step.moments w, m.Rejects e := by
  match step with
  | .action a =>
    rw [Step.run] at h
    exact absurd (Work.failsBy_action a _ _ _ h) hm.not_other
  | .assemble result items layout =>
    rw [Step.run_assemble] at h
    obtain ⟨u, start, hrequire, hlogged⟩ := (Work.failsBy_requireAll _).behind hm.not_other h
    obtain rfl : start = w := by
      have hsame := Work.reads_requireAll (Item.requirementsAll items) w
      rw [hrequire] at hsame
      exact hsame
    obtain ⟨cause, between, hact, hcause⟩ := Work.of_logged_error hm hlogged
    have hassemble := FailsBy.before (fun _ => Work.failsBy_keep _ _) hcause.not_other hact
    have hbuild : (Work.build layout items.length fun wrap =>
        Item.resolveAll start.bindings wrap items).run
          (Workshop.beginAssembly { start with builders := [] }) = (.error cause, between) :=
      hassemble
    have hitems := Work.of_build_error hcause hbuild
    rw [Step.moments]
    obtain ⟨c, hc, hrejects⟩ | ⟨m, hmem, hrejects⟩ := Item.rejectionAll items hcause hitems
    · exact ⟨_, List.mem_cons_self, c, .assemble hrequire hc, hrejects⟩
    · refine ⟨m, List.mem_cons_of_mem _ ?_, hrejects⟩
      rw [Work.onward_ok hrequire]
      exact hmem
  | .nested shield steps =>
    rw [Step.run] at h
    obtain ⟨⟨answers, outcome⟩, between, hsteps, hnested⟩ :=
      (FailsBy.lift _).behind hm.not_other h
    have hrun : (Step.runAll steps (shield.enter w)).1 = (answers, outcome) := by
      cases shield <;> exact Except.ok.inj (congrArg Prod.fst hsteps)
    cases outcome with
    | none => cases congrArg Prod.fst hnested
    | some cause =>
      have hcause : cause.IsMismatch e := by
        obtain rfl : { cause with steps := some answers } = failure :=
          Except.error.inj (congrArg Prod.fst hnested)
        exact ⟨hm.cause_eq, hm.mismatch⟩
      rw [Step.moments]
      obtain ⟨m, hmem, hrejects⟩ := Step.rejectionAll steps hcause (congrArg Prod.snd hrun)
      exact ⟨m, List.mem_cons_of_mem _ hmem, hrejects⟩

theorem Step.rejectionAll (steps : List Step) {w : Workshop} {failure : Failure}
    (hm : failure.IsMismatch e) (h : (Step.runAll steps w).1.2 = some failure) :
    ∃ m ∈ Step.momentsAll steps w, m.Rejects e := by
  match steps with
  | [] =>
    rw [Step.runAll] at h
    cases h
  | step :: rest =>
    rw [Step.momentsAll]
    cases hrun : step.run.run w with
    | mk outcome between =>
      cases outcome with
      | ok answer =>
        have hrest := (Step.failure_of_ok rest hrun).symm.trans h
        obtain ⟨m, hmem, hrejects⟩ := Step.rejectionAll rest hm hrest
        refine ⟨m, List.mem_append_right _ ?_, hrejects⟩
        rw [Work.onward_ok hrun]
        exact hmem
      | error other =>
        have hcause := (Step.failure_of_error rest hrun).symm.trans h
        obtain rfl : other = failure := Option.some.inj hcause
        obtain ⟨m, hmem, hrejects⟩ := Step.rejection step hm hrun
        exact ⟨m, List.mem_append_left _ hmem, hrejects⟩
end

-- ---------------------------------------------------------------------------
-- Programs
-- ---------------------------------------------------------------------------

theorem Moment.Coupled.unchanged {m : Moment} {c : Check} (h : m.Coupled) (hc : m.Checks c)
    (he : c.Rejects e) (hmismatch : e.isFlagMismatch) :
    c.outcome.2 = c.before ∧ m.after.stance = c.before.stance := by
  have hunchanged := he.unchanged (h.check hc) hmismatch
  refine ⟨hunchanged, ?_⟩
  rw [(hc.rejected he).2, hunchanged]

/-- Whatever a program does, `i` and `m` are both known or both unknown in every stance
and every value, before and after every step. So an item that is rejected for its flags
changes nothing, and its assembly ends with the stance from just before the check. No
step fails for flags in any other way. -/
theorem runProgram_coupled (fold : Bool) (program : List Step) (hb : Step.byNameAll program) :
    (∀ m ∈ programMoments program (.new fold), m.before.Coupled ∧ m.after.Coupled ∧
      (∀ answer, (m.step.run.run m.before).1 = .ok answer → answer.Coupled) ∧
      (∀ c, m.Checks c → c.before.Coupled ∧ ∀ e, c.Rejects e → e.isFlagMismatch →
        c.outcome.2 = c.before ∧ m.after.stance = c.before.stance) ∧
      ∀ failure after e, m.step.run.run m.before = (.error failure, after) →
        failure.IsMismatch e → ∃ m' ∈ m.step.moments m.before, ∃ c, m'.Checks c ∧ c.Rejects e ∧
          c.outcome.2 = c.before ∧ m'.after.stance = c.before.stance) ∧
      ((runProgram program).run (.new fold)).2.Coupled := by
  obtain ⟨hmoments, hend⟩ := programMoments_coupled hb (Workshop.coupled_new fold)
  refine ⟨fun m hm => ?_, hend⟩
  have hcoupled := hmoments m hm
  refine ⟨hcoupled.before, hcoupled.after, ?_, fun c hc => ⟨hcoupled.check hc, ?_⟩, ?_⟩
  · exact (Step.coupled m.step hcoupled.byName m.before hcoupled.before).1
  · intro e he hmismatch
    exact hcoupled.unchanged hc he hmismatch
  · intro failure after e hrun hfailure
    obtain ⟨m', hm', c, hc, hrejects⟩ := Step.rejection m.step hfailure hrun
    have hinside := Step.coupled_moment m.step hcoupled.byName hcoupled.before hm'
    exact ⟨m', hm', c, hc, hrejects, hinside.unchanged hc hrejects hfailure.mismatch⟩

def clashingItems : List Item :=
  [ .named "lines",
    .tree [.literal ['x'],
      .deferred [.action (.compile (some "plain") ['b'] none)] (.named "plain")] ]

def clashingProgram : List Step :=
  [ .action (.compile (some "lines") "^a".toList (some ['m'])),
    .assemble none clashingItems ⟨false, false, 0⟩ ]

/-- Where `m` needs agreement, the plain pattern is rejected. It has no `i`, which
the other pattern has settled before. -/
theorem runProgram_coupled_clash :
    let w : Workshop := ((Step.action (.compile (some "lines") "^a".toList (some ['m']))).run.run
      (.new false)).2
    let m : Moment := ⟨.assemble none clashingItems ⟨false, false, 0⟩, w⟩
    Step.byNameAll clashingProgram ∧ m ∈ programMoments clashingProgram (.new false) ∧
      ∃ c, m.Checks c ∧ c.Rejects (.multilineMismatch "/b/".toList) ∧ c.outcome.2 = c.before ∧
        m.after.stance = c.before.stance ∧
          c.before.stance = ⟨⟨some false, some true, false⟩, .forward⟩ := by
  intro w m
  have hm : m ∈ programMoments clashingProgram (.new false) := by
    have hgo : Step.goesOn ((Step.action (.compile (some "lines") "^a".toList (some ['m']))).run.run
        (.new false)).1 := by decide +kernel
    rw [clashingProgram, programMoments, if_pos hgo]
    simp [programMoments, Step.moments, m, w]
  let lines : Pattern := ⟨0, "^a".toList, Flags.empty.insert .multiline, .plain⟩
  let plain : Pattern := ⟨1, ['b'], .empty, .plain⟩
  let builder : List Step := [.action (.compile (some "plain") ['b'] none)]
  -- The workshops behind the first pattern, the text of the tree and the builder.
  let start := Workshop.beginAssembly { w with builders := [] }
  let second := (((Item.named "lines").resolve w.bindings true).run start).2
  let third := (((Item.literal ['x']).resolve w.bindings true).run second).2
  let last := ((Work.awaitBuilder builder (.named "plain")).run third).2
  have hlines := Work.run_ok ((Item.named "lines").resolve w.bindings true) start
    (.native lines, false) (by decide +kernel)
  have htext := Work.run_ok ((Item.literal ['x']).resolve w.bindings true) second
    (.literal ['x'], false) (by decide +kernel)
  have hbuilder := Work.run_ok (Work.awaitBuilder builder (.named "plain")) third
    [("plain", .pattern plain), ("lines", .pattern lines)] (by decide +kernel)
  have hready : (Work.requireAll (Item.requirementsAll clashingItems)).run w = (.ok (), w) := by
    have hrun := Work.run_ok (Work.requireAll (Item.requirementsAll clashingItems)) w ()
      (by decide +kernel)
    rwa [Work.reads_requireAll] at hrun
  let c : Check := ⟨.native plain, last⟩
  have hplain : Item.Checks [("plain", .pattern plain), ("lines", .pattern lines)] true
      (.named "plain") last c := .named (v := .pattern plain) rfl
  have hchecks : m.Checks c := .assemble hready
    (.tail hlines (.head (.tree (.tail htext (.head (.deferred hbuilder rfl hplain))))))
  have hrejects : c.Rejects (.multilineMismatch "/b/".toList) := by
    have hverdict : (c.fragment.verdict c.before.fold c.before.stance).1 =
        .error (.multilineMismatch "/b/".toList) := by decide +kernel
    rw [Check.Rejects, Check.outcome, Work.run_admitFragment, hverdict]
    rfl
  obtain ⟨-, -, -, hcheck, -⟩ := (runProgram_coupled false clashingProgram rfl).1 m hm
  obtain ⟨hunchanged, hafter⟩ := (hcheck c hchecks).2 _ hrejects rfl
  exact ⟨rfl, hm, c, hchecks, hrejects, hunchanged, hafter, by decide +kernel⟩

end Splice
