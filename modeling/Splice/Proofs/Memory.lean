import Splice.Proofs.Actions

/-!
# Records stay honest

Whatever a program does, and wherever it fails, every record agrees with the
source of the value that it is shown with. All that this asks for is that the
sources that come in from outside, and those that wrappings make, can be
composed.
-/

namespace Splice

open Source

variable {α : Type} {known : Catalogue} {f : Fragment} {w : Workshop} {seen : Bindings}

theorem Workshop.Files.beginAssembly (h : w.Files known) : w.beginAssembly.Files known :=
  h.congr w.beginAssembly_archive w.beginAssembly_bindings

-- ---------------------------------------------------------------------------
-- Parts of a run
-- ---------------------------------------------------------------------------

namespace Advances

variable {act : StateM Workshop α} {Q : Catalogue → α → Prop}

theorem shielded (shield : Shield) (h : Advances known (shield.enter w) act Q) :
    Advances known w (Workshop.shielded shield act) Q := by
  obtain ⟨later, hk, hf, hq⟩ := h
  rw [Advances, Workshop.run_shielded]
  exact ⟨later, hk, hf.congr (shield.leave_archive w _) (shield.leave_bindings w _), hq⟩

theorem conclude (hw : w.Files known) (result : Item) (answers : List Answer)
    (failure : Option Failure) :
    Advances known w (Work.conclude result answers failure) fun later r =>
      ∀ seen, r.2 = .ok seen → seen.Filed later := by
  rw [Advances, Work.conclude_behind]
  refine ⟨known, known.extends_refl, hw, fun seen h => ?_⟩
  obtain ⟨rfl, -⟩ := Work.conclude_ok h
  exact hw.values

end Advances

namespace Achieves

variable {act : Work α} {Q : Catalogue → α → Prop}

theorem ofYields (hw : w.Files known) (h : Yields (Workshop.Files known) act (Q known)) :
    Achieves known w act Q := ⟨known, known.extends_refl, (h w hw).2, (h w hw).1⟩

theorem admitFragment (hw : w.Files known) (hf : f.Filed known) :
    Achieves known w (Work.admitFragment f) fun later part => part.1.Filed later := by
  refine ofYields hw ((Work.admitFragment_yields (fun _ _ h => h.congr rfl rfl) f).mono ?_)
  rintro part rfl
  exact hf

theorem awaitBuilder {steps : List Step} {result : Item}
    (h : Advances known w.enter (Step.runAll steps) fun _ _ => True) :
    Achieves known w (Work.awaitBuilder steps result) fun later seen => seen.Filed later := by
  have hbuilder : Advances known w.enter
      (Step.runAll steps >>= fun r => Work.conclude result r.1 r.2)
      fun later r => ∀ seen, r.2 = .ok seen → seen.Filed later :=
    h.bind fun _ _ hf _ => .conclude hf result _ _
  refine (Achieves.lift (hbuilder.shielded .reentrant)).bind fun later r after _ _ hf hr => ?_
  obtain ⟨answers, outcome⟩ := r
  have hlogged : (after.logBuilder answers).Files later := hf.congr rfl rfl
  exact modify (Advances.pure hlogged hr)

theorem build {layout : Layout} {count : Nat} {resolve : Bool → Work (List Part)}
    (h : Achieves known w (resolve (layout.wrap || 1 < count)) fun later parts =>
      ∀ part ∈ parts, part.1.Filed later) :
    Achieves known w (Work.build layout count resolve) fun later f => f.Filed later := by
  refine h.bind fun later parts after _ _ hf hp => ?_
  refine read hf Work.reads_get fun w _ => ?_
  have hsound : ∀ f ∈ parts.map Prod.fst, f.Sound true later :=
    List.forall_mem_map.mpr fun part hpart => (hp part hpart).sound hf.valid
  exact (onArchive hf (assemble_yields hsound _ _ _)).mono fun _ f ha =>
    Fragment.filed_of_assembled ha

theorem logged {act : Work Answer}
    (h : Achieves known { w with builders := [] } act fun _ _ => True) :
    Achieves known w (Work.logged act) fun _ _ => True := by
  obtain ⟨later, hk, hf, -⟩ := h
  exact ⟨later, hk, hf.congr rfl rfl, fun _ _ => trivial⟩

end Achieves

-- ---------------------------------------------------------------------------
-- Every moment
-- ---------------------------------------------------------------------------

structure Moment.Filed (m : Moment) : Prop where
  before : ∃ known, m.before.Files known
  after : ∃ known, m.after.Files known

/-- Moments at which only sources come in that can be composed. -/
def BringComposable (moments : List Moment) : Prop :=
  ∀ m ∈ moments, ∀ s ∈ m.sources, Composable s

/-- An act that achieves something and leaves values filed at all its moments. -/
structure Traced (known : Catalogue) (w : Workshop) (act : Work α) (moments : List Moment)
    (Q : Catalogue → α → Prop) : Prop where
  achieves : Achieves known w act Q
  filed : ∀ m ∈ moments, m.Filed

namespace Traced

variable {β : Type} {act : Work α} {next : α → Work β} {moments : List Moment}
  {Q : Catalogue → α → Prop} {R : Catalogue → β → Prop}

theorem andThen (h : Traced known w act moments Q)
    (hn : ∀ later a after, later.Extends known → after.Files later → Q later a →
      Achieves later after (next a) R) : Traced known w (act >>= next) moments R :=
  ⟨h.achieves.bind fun later a after _ hk hf hq => hn later a after hk hf hq, h.filed⟩

theorem bind {behind : α → Workshop → List Moment} (h : Traced known w act moments Q)
    (hn : ∀ later a after, act.run w = (.ok a, after) → later.Extends known →
      after.Files later → Q later a → Traced later after (next a) (behind a after) R) :
    Traced known w (act >>= next) (moments ++ Work.onward act behind w) R := by
  refine ⟨h.achieves.bind fun later a after hrun hk hf hq =>
    (hn later a after hrun hk hf hq).achieves, List.forall_mem_append.mpr ⟨h.filed, ?_⟩⟩
  intro m hm
  obtain ⟨a, after, hrun, hm⟩ := Work.mem_onward hm
  obtain ⟨later, hk, hf, hq⟩ := h.achieves
  rw [hrun] at hf hq
  exact (hn later a after hrun hk hf (hq a rfl)).filed m hm

theorem step {step : Step} {Q : Catalogue → Answer → Prop} (hw : w.Files known)
    (h : Traced known w step.run moments Q) :
    Traced known w step.run (⟨step, w⟩ :: moments) Q := by
  obtain ⟨later, -, hf, -⟩ := h.achieves
  exact ⟨h.achieves, List.forall_mem_cons.mpr ⟨⟨⟨known, hw⟩, later, hf⟩, h.filed⟩⟩

end Traced

mutual
theorem Item.traced (item : Item) (hb : item.byName) {known : Catalogue} {w : Workshop}
    {seen : Bindings} {wrap : Bool} (hw : w.Files known) (hseen : seen.Filed known)
    (hs : BringComposable (item.moments seen wrap w)) :
    Traced known w (item.resolve seen wrap) (item.moments seen wrap w)
      fun later part => part.1.Filed later := by
  match item with
  | .literal t =>
    rw [Item.resolve]
    exact ⟨.pure hw ⟨t, rfl⟩, by simp [Item.moments]⟩
  | .named name =>
    rw [Item.resolve]
    cases hv : seen.lookup name with
    | none => exact ⟨.throw hw, by simp [Item.moments]⟩
    | some v => exact ⟨.admitFragment hw (hseen.lookup hv), by simp [Item.moments]⟩
  | .malformed field =>
    rw [Item.resolve]
    exact ⟨.throw hw, by simp [Item.moments]⟩
  | .pattern p => simp [Item.byName] at hb
  | .fragment f => simp [Item.byName] at hb
  | .tree items =>
    rw [Item.moments] at hs ⊢
    rw [Item.resolve]
    have h := Item.tracedAll items hb hw hseen hs
    exact ⟨(Achieves.build h.achieves).bind fun _ f _ _ _ hf hq => .pure hf hq, h.filed⟩
  | .deferred steps result =>
    rw [Item.byName, Bool.and_eq_true] at hb
    rw [Item.moments, BringComposable, List.forall_mem_append] at hs
    rw [Item.moments, Item.resolve_deferred]
    have henter : w.enter.Files known := hw.congr rfl rfl
    obtain ⟨hsteps, hbuilder⟩ := Step.tracedAll steps hb.1 henter hs.1
    refine Traced.bind ⟨.awaitBuilder hsteps, hbuilder⟩ fun later seen after hrun _ hf hseen => ?_
    have hresult := hs.2
    rw [Work.onward_ok hrun] at hresult
    cases hd : result.isDeferred with
    | true => exact ⟨.throw hf, by simp⟩
    | false =>
      rw [hd] at hresult
      exact Item.traced result hb.2 hf hseen hresult

theorem Item.tracedAll (items : List Item) (hb : Item.byNameAll items) {known : Catalogue}
    {w : Workshop} {seen : Bindings} {wrap : Bool} (hw : w.Files known)
    (hseen : seen.Filed known) (hs : BringComposable (Item.momentsAll seen wrap items w)) :
    Traced known w (Item.resolveAll seen wrap items) (Item.momentsAll seen wrap items w)
      fun later parts => ∀ part ∈ parts, part.1.Filed later := by
  match items with
  | [] =>
    rw [Item.resolveAll]
    exact ⟨.pure hw (by simp), by simp [Item.momentsAll]⟩
  | item :: rest =>
    rw [Item.byNameAll, Bool.and_eq_true] at hb
    rw [Item.momentsAll, BringComposable, List.forall_mem_append] at hs
    rw [Item.resolveAll, Item.momentsAll]
    refine (Item.traced item hb.1 hw hseen hs.1).bind fun later part after hrun hk hf hp => ?_
    have hrest := hs.2
    rw [Work.onward_ok hrun] at hrest
    have h := Item.tracedAll rest hb.2 hf (hseen.mono hk) hrest
    exact h.andThen fun last parts _ hk hf hps =>
      .pure hf (List.forall_mem_cons.mpr ⟨hp.mono hk, hps⟩)

theorem Step.traced (step : Step) (hb : step.byName) {known : Catalogue} {w : Workshop}
    (hw : w.Files known) (hs : BringComposable (step.moments w)) :
    Traced known w step.run (step.moments w) fun _ _ => True := by
  match step with
  | .action a =>
    rw [Step.moments] at hs ⊢
    refine Traced.step hw ⟨?_, by simp⟩
    rw [Step.run]
    exact .action hw a (hs _ (List.mem_singleton_self _))
  | .assemble result items layout =>
    rw [Step.moments, BringComposable, List.forall_mem_cons] at hs
    rw [Step.moments]
    refine Traced.step hw ?_
    rw [Step.run]
    have hrequire : Traced known w (Work.requireAll (Item.requirementsAll items)) []
        fun _ _ => True := by
      refine ⟨⟨known, known.extends_refl, ?_, fun _ _ => trivial⟩, by simp⟩
      rw [Work.reads_requireAll]
      exact hw
    refine Traced.bind hrequire fun later _ after hrun hk hf _ => ?_
    have hassembly := hs.2
    rw [Work.onward_ok hrun] at hassembly
    obtain rfl : after = w := by
      have hreads := Work.reads_requireAll (Item.requirementsAll items) w
      rwa [hrun] at hreads
    have hempty : Workshop.Files later { after with builders := [] } := hf.congr rfl rfl
    have h := Item.tracedAll items hb hempty.beginAssembly hf.values hassembly
    refine ⟨.logged (.read hempty Work.reads_get fun start hstart => .modify ?_), h.filed⟩
    obtain rfl := Except.ok.inj hstart
    exact (Achieves.build h.achieves).bind fun _ _ _ _ _ hf hq => .keep hf hq
  | .nested shield steps =>
    rw [Step.moments, BringComposable, List.forall_mem_cons] at hs
    rw [Step.moments]
    have hshield : (shield.enter w).Files known := by
      cases shield <;> exact hw.congr rfl rfl
    obtain ⟨hsteps, hm⟩ := Step.tracedAll steps hb hshield hs.2
    refine Traced.step hw ⟨?_, hm⟩
    rw [Step.run]
    refine (Achieves.lift (hsteps.shielded shield)).bind fun _ r _ _ _ hf _ => ?_
    obtain ⟨answers, failure⟩ := r
    cases failure with
    | none => exact .pure hf trivial
    | some f => exact .throw hf

theorem Step.tracedAll (steps : List Step) (hb : Step.byNameAll steps) {known : Catalogue}
    {w : Workshop} (hw : w.Files known) (hs : BringComposable (Step.momentsAll steps w)) :
    Advances known w (Step.runAll steps) (fun _ _ => True) ∧
      ∀ m ∈ Step.momentsAll steps w, m.Filed := by
  match steps with
  | [] =>
    rw [Step.runAll]
    exact ⟨.pure hw trivial, by simp [Step.momentsAll]⟩
  | step :: rest =>
    rw [Step.byNameAll, Bool.and_eq_true] at hb
    rw [Step.momentsAll, BringComposable, List.forall_mem_append] at hs
    rw [Step.runAll, Step.momentsAll]
    obtain ⟨hstep, hm⟩ := Step.traced step hb.1 hw hs.1
    constructor
    · refine Advances.bind hstep fun later _ hf _ => ?_
      cases hrun : step.run.run w with
      | mk outcome after =>
        rw [hrun] at hf
        cases outcome with
        | error failure => exact .pure hf trivial
        | ok answer =>
          have hrest := hs.2
          rw [Work.onward_ok hrun] at hrest
          exact (Step.tracedAll rest hb.2 hf hrest).1.bind fun _ _ hf _ => .pure hf trivial
    · refine List.forall_mem_append.mpr ⟨hm, fun m hm => ?_⟩
      obtain ⟨answer, after, hrun, hm⟩ := Work.mem_onward hm
      obtain ⟨later, -, hf, -⟩ := hstep
      rw [hrun] at hf
      have hrest := hs.2
      rw [Work.onward_ok hrun] at hrest
      exact (Step.tracedAll rest hb.2 hf hrest).2 m hm
end

-- ---------------------------------------------------------------------------
-- Programs
-- ---------------------------------------------------------------------------

def Workshop.Honest (w : Workshop) : Prop :=
  ∀ b ∈ w.bindings, (b.2.view w.archive).analysis.Honest (b.2.view w.archive).source

theorem Workshop.Files.honest (h : w.Files known) : w.Honest := by
  rintro ⟨name, v⟩ hb
  have hv : v.Filed known := h.values _ hb
  have hreports := (Fragment.Filed.reports hv h.archive).honest
  cases v with
  | pattern p => exact hreports
  | fragment f => exact hreports

theorem Workshop.files_new (fold : Bool) : (new fold).Files ⟨fun _ => none, 0⟩ := by
  refine ⟨⟨?_, ?_, ?_⟩, ⟨Nat.le_refl _, ?_⟩, ?_⟩ <;> simp [new, Bindings.Filed]

theorem runProgram_filed {program : List Step} (hb : Step.byNameAll program)
    (hw : w.Files known) (hs : BringComposable (programMoments program w)) :
    (∃ later, ((runProgram program).run w).2.Files later) ∧
      ∀ m ∈ programMoments program w, m.Filed := by
  induction program generalizing w known with
  | nil => exact ⟨⟨known, hw⟩, by simp [programMoments]⟩
  | cons step rest ih =>
    rw [Step.byNameAll, Bool.and_eq_true] at hb
    rw [programMoments, BringComposable, List.forall_mem_append] at hs
    have hstep := Step.traced step hb.1 hw hs.1
    obtain ⟨later, -, hf, -⟩ := hstep.achieves
    rw [programMoments, runProgram_cons_after, List.forall_mem_append]
    split
    · rename_i hgo
      rw [if_pos hgo] at hs
      obtain ⟨hrest, hm⟩ := ih hb.2 hf hs.2
      exact ⟨hrest, hstep.filed, hm⟩
    · exact ⟨⟨later, hf⟩, hstep.filed, by simp⟩

/-- Whatever a program does, every value shows an honest record before and after
every step, also in the builders of an assembly and behind a failure. -/
theorem runProgram_honest (fold : Bool) (program : List Step) (hb : Step.byNameAll program)
    (hs : ∀ m ∈ programMoments program (.new fold), ∀ s ∈ m.sources, Closed s ∧ Clear s) :
    (∀ m ∈ programMoments program (.new fold), m.before.Honest ∧ m.after.Honest) ∧
      ((runProgram program).run (.new fold)).2.Honest := by
  obtain ⟨⟨later, hf⟩, hm⟩ := runProgram_filed hb (Workshop.files_new fold) hs
  refine ⟨fun m hmem => ?_, hf.honest⟩
  obtain ⟨⟨known, hbefore⟩, known', hafter⟩ := hm m hmem
  exact ⟨hbefore.honest, hafter.honest⟩

def builderProgram : List Step :=
  [ .action (.compile (some "pair") "(a)\\1|b".toList none),
    .assemble (some "both")
      [.named "pair", .deferred [.action (.raw (some "tail") ['0'] none)] (.named "tail")]
      ⟨false, false, 1⟩,
    .action (.decorate (some "many") "both" ⟨.quantifier, "(?:".toList, [')'], some ['*']⟩),
    .action (.finish (some "whole") "many" (some ['u']) none none),
    .action (.force "whole" .references) ]

theorem runProgram_honest_builder :
    (∀ m ∈ programMoments builderProgram (.new false), m.before.Honest ∧ m.after.Honest) ∧
      ((runProgram builderProgram).run (.new false)).2.bindings.map Prod.fst =
        ["whole", "many", "both", "tail", "pair"] := by
  have hs : ∀ m ∈ programMoments builderProgram (.new false), ∀ s ∈ m.sources,
      Closed s ∧ Clear s := by decide +kernel
  exact ⟨(runProgram_honest false builderProgram rfl hs).1, by decide +kernel⟩

end Splice
