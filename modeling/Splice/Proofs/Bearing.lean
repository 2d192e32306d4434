import Splice.Proofs.Keeping

/-!
# Steps keep values straight

A step leaves straight values behind if it finds them, as long as it turns to no
other direction than forward or backward and its trees are put together from
closed leaves. The parts of an assembly show the lineage behind them, so that
what is put together from them records the direction it runs in.
-/

namespace Splice

open Source

variable {α β : Type} {wrap : Bool} {layout : Layout} {seen : Bindings} {behind d : Descent}
  {w after : Workshop} {f : Fragment} {part : Part} {parts : List Part}
  {direction : Direction} {lineage : List Direction}

-- ---------------------------------------------------------------------------
-- Parts and their lineage
-- ---------------------------------------------------------------------------

theorem Direction.eq_of_unopposed {a b : Direction} (h : a.opposes b = false) (ha : a ≠ .neutral)
    (hb : b ≠ .neutral) : a = b := by
  cases a <;> cases b <;> simp_all [opposes]

/-- Parts whose lineage runs in one direction, and which show that it is there. -/
structure Part.Bear (wrap : Bool) (direction : Direction) (lineage : List Direction)
    (parts : List Part) : Prop where
  along : ∀ x ∈ lineage, x = direction
  shown : lineage ≠ [] → ∃ part ∈ parts, part.2 ∨ part.1.Referring wrap

namespace Part

theorem Bear.append {others : List Part} {more : List Direction}
    (h : Bear wrap direction lineage parts) (h' : Bear wrap direction more others) :
    Bear wrap direction (lineage ++ more) (parts ++ others) := by
  refine ⟨List.forall_mem_append.mpr ⟨h.along, h'.along⟩, fun hne => ?_⟩
  by_cases hl : lineage = []
  · obtain ⟨part, hpart, hshown⟩ := h'.shown (by simpa [hl] using hne)
    exact ⟨part, List.mem_append_right _ hpart, hshown⟩
  · obtain ⟨part, hpart, hshown⟩ := h.shown hl
    exact ⟨part, List.mem_append_left _ hpart, hshown⟩

theorem bear_leaf (h : f.Straight lineage) (ho : f.direction.opposes direction = false)
    (hd : direction ≠ .neutral) : Bear wrap direction lineage [(f, f.tied)] := by
  have htied : lineage ≠ [] → f.direction ≠ .neutral := fun hne => hne ∘ h.neutral.mpr
  refine ⟨fun x hx => ?_, fun hne => ⟨_, List.mem_singleton_self _, .inl ?_⟩⟩
  · exact (h.along x hx).trans (Direction.eq_of_unopposed ho (htied (List.ne_nil_of_mem hx)) hd)
  · simpa [Fragment.tied] using htied hne

theorem Bear.hasReferences {fold : Bool} {stance : Stance} {archive archive' : Archive}
    (h : Bear layout.wrap direction lineage parts)
    (hf : (assemble fold stance layout (parts.any Prod.snd) (parts.map Prod.fst)).run archive =
      (.ok f, archive')) (hne : lineage ≠ []) : f.hasReferences := by
  obtain ⟨part, hpart, hdirected | hreferring⟩ := h.shown hne
  · exact assemble_directed hf (List.any_eq_true.mpr ⟨part, hpart, hdirected⟩)
  · refine assemble_referring hf (List.mem_map_of_mem hpart) ?_
    exact ⟨hreferring.hasReferences, hreferring.unasked, fun hw => hreferring.flat
      (by simp only [Bool.and_eq_true] at hw; exact hw.2)⟩

end Part

structure Fragment.MadeIn (direction : Direction) (lineage : List Direction) (f : Fragment) :
    Prop where
  records : f.direction = if f.hasReferences then direction else .neutral
  along : ∀ x ∈ lineage, x = direction
  shown : lineage ≠ [] → f.hasReferences

theorem Fragment.MadeIn.straight (h : f.MadeIn direction lineage) (hd : direction ≠ .neutral) :
    f.Straight (f.credit direction ++ lineage) := by
  have hf := h.records
  unfold credit
  cases hr : f.hasReferences with
  | true =>
    rw [hr, if_pos rfl] at hf
    refine ⟨fun x hx => ?_, by simp [hf, hd]⟩
    rw [hf]
    simp only [if_true, List.singleton_append, List.mem_cons] at hx
    exact hx.elim id (h.along x)
  | false =>
    have hnil : lineage = [] := by
      by_contra hne
      simp [h.shown hne] at hr
    simp only [hr, Bool.false_eq_true, if_false] at hf
    simp only [hnil, Bool.false_eq_true, if_false, List.append_nil]
    exact straight_plain hf

theorem Fragment.MadeIn.bear (h : f.MadeIn direction lineage) (hj : f.Joint wrap) :
    Part.Bear wrap direction (f.credit direction ++ lineage) [(f, false)] := by
  have hcredit : f.credit direction ++ lineage ≠ [] → f.hasReferences := by
    intro hne
    by_cases hl : lineage = []
    · rw [hl, List.append_nil, credit] at hne
      by_contra hr
      simp [hr] at hne
    · exact h.shown hl
  refine ⟨fun x hx => ?_, fun hne => ⟨_, List.mem_singleton_self _, .inr ?_⟩⟩
  · obtain hx | hx := List.mem_append.mp hx
    · unfold credit at hx
      split at hx
      · exact List.mem_singleton.mp hx
      · cases hx
    · exact h.along x hx
  · exact hj.referring (hcredit hne)

-- ---------------------------------------------------------------------------
-- Steps
-- ---------------------------------------------------------------------------

/-- An act that leaves a straight workshop behind and passes through no other. -/
structure Straightens (w : Workshop) (act : Work α) (t : Trail) (Q : α → Prop) : Prop where
  past : ∀ x ∈ t.past, x.1.Straight x.2
  behind : (act.run w).2.Straight t.descent
  answers : ∀ a, (act.run w).1 = .ok a → Q a

def Bindings.Straight (behind : Descent) (seen : Bindings) : Prop :=
  ∀ name v, seen.lookup name = some v → v.toFragment.Straight (behind name)

namespace Straightens

variable {act : Work α} {next : α → Work β} {t : Trail} {Q : α → Prop} {R : β → Prop}

theorem still {a : α} (hw : w.Straight d) (h : Q a) : Straightens w (pure a) (.still d) Q :=
  ⟨by simp [Trail.still], hw, fun b hb => by
    obtain rfl := Except.ok.inj hb
    exact h⟩

theorem throw {failure : Failure} (hw : w.Straight d) :
    Straightens w (throw failure : Work α) (.still d) Q :=
  ⟨by simp [Trail.still], hw, fun _ hb => by cases hb⟩

theorem reads (hw : w.Straight d) (h : act.Reads) :
    Straightens w act (.still d) fun _ => True :=
  ⟨by simp [Trail.still], (h w).symm ▸ hw, fun _ _ => trivial⟩

theorem bind {u : α → Workshop → Descent → Trail} (h : Straightens w act t Q)
    (hn : ∀ a after, act.run w = (.ok a, after) → after.Straight t.descent → Q a →
      Straightens after (next a) (u a after t.descent) R) :
    Straightens w (act >>= next)
      (t.andThen fun d => Work.trailing act (fun a after => u a after d) w d) R := by
  obtain ⟨past, behind, answers⟩ := h
  unfold Work.trailing
  cases hrun : act.run w with
  | mk outcome after =>
    rw [hrun] at behind answers
    cases outcome with
    | error e =>
      refine ⟨by simpa [Trail.andThen, Trail.still] using past, ?_, fun b hb => ?_⟩
      · rw [run_bind, hrun]
        exact behind
      · rw [run_bind, hrun] at hb
        cases hb
    | ok a =>
      obtain ⟨past', behind', answers'⟩ := hn a after hrun behind (answers a rfl)
      refine ⟨List.forall_mem_append.mpr ⟨past, past'⟩, ?_, fun b hb => ?_⟩
      · rw [run_bind, hrun]
        exact behind'
      · rw [run_bind, hrun] at hb
        exact answers' b hb

theorem map {g : α → β} (h : Straightens w act t Q) (hg : ∀ a, Q a → R (g a)) :
    Straightens w (act >>= fun a => pure (g a)) t R := by
  obtain ⟨past, behind, answers⟩ := h
  cases hrun : act.run w with
  | mk outcome after =>
    rw [hrun] at behind answers
    cases outcome with
    | error e =>
      refine ⟨past, ?_, fun b hb => ?_⟩
      · rw [run_bind, hrun]
        exact behind
      · rw [run_bind, hrun] at hb
        cases hb
    | ok a =>
      refine ⟨past, ?_, fun b hb => ?_⟩
      · rw [run_bind, hrun]
        exact behind
      · rw [run_bind, hrun] at hb
        obtain rfl := Except.ok.inj hb
        exact hg a (answers a rfl)

theorem and {P : α → Prop} (h : Straightens w act t Q) (hp : ∀ a, (act.run w).1 = .ok a → P a) :
    Straightens w act t fun a => Q a ∧ P a :=
  ⟨h.past, h.behind, fun a ha => ⟨h.answers a ha, hp a ha⟩⟩

theorem meeting (h : Straightens w act t Q) (resolve : Work β) :
    Straightens w act (t.meeting resolve w) Q := by
  obtain ⟨sites, hsites⟩ := t.meeting_eq resolve w
  rw [hsites]
  exact ⟨h.past, h.behind, h.answers⟩

theorem credited {act : Work Part} (h : Straightens w act t fun part =>
      part.1.MadeIn w.stance.direction t.lineage ∧ part.2 = false ∧ part.1.Joint wrap) :
    Straightens w act (t.credited act w) fun part =>
      Part.Bear wrap w.stance.direction (t.credited act w).lineage [part] := by
  obtain ⟨lineage, hlineage⟩ := t.credited_eq act w
  rw [hlineage]
  refine ⟨h.past, h.behind, fun part hpart => ?_⟩
  rw [← hlineage, Trail.credited_ok (Prod.ext hpart rfl)]
  obtain ⟨f, directed⟩ := part
  obtain ⟨hmade, rfl, hjoint⟩ := h.answers _ hpart
  exact hmade.bear hjoint

theorem around {step : Step} {Q : Answer → Prop} (hw : w.Straight d)
    (h : Straightens w step.run t Q) : Straightens w step.run (t.around step w d) Q := by
  refine ⟨fun x hx => ?_, h.behind, h.answers⟩
  obtain rfl | hx := List.mem_cons.mp hx
  · exact hw
  · obtain hx | hx := List.mem_append.mp hx
    · exact h.past x hx
    · obtain rfl := List.mem_singleton.mp hx
      exact h.behind

theorem leaf (hw : w.Straight d) (hf : f.Straight lineage) :
    Straightens w (Work.admitFragment f) (.leaf f lineage d) fun part =>
      Part.Bear wrap w.stance.direction lineage [part] := by
  refine ⟨by simp [Trail.leaf], ?_, fun part hpart => ?_⟩
  · exact hw.bindings (Work.steady_admitFragment f w (.refl w)).2.direction
      (Work.quiet_admitFragment f w)
  · obtain ⟨rfl, ho⟩ := Work.admitFragment_ok (Prod.ext hpart rfl)
    exact Part.bear_leaf hf ho hw.facing

end Straightens

theorem Workshop.Straight.reset (h : w.Straight d) : w.reset.Straight d := h.bindings rfl rfl

theorem Workshop.Straight.beginAssembly (h : w.Straight d) : w.beginAssembly.Straight d := by
  unfold Workshop.beginAssembly
  split
  · exact h.reset
  · exact h

theorem Workshop.beginAssembly_direction (w : Workshop) :
    w.beginAssembly.stance.direction = w.stance.direction := by
  unfold Workshop.beginAssembly
  split <;> rfl

theorem Work.build_behind (layout : Layout) (count : Nat) (resolve : Bool → Work (List Part))
    (w : Workshop) :
    ∃ archive, ((build layout count resolve).run w).2 =
      { ((resolve (layout.wrap || 1 < count)).run w).2 with archive := archive } := by
  rw [build, run_bind]
  generalize (resolve (layout.wrap || 1 < count)).run w = r
  obtain ⟨outcome, after⟩ := r
  cases outcome with
  | error e => exact ⟨after.archive, rfl⟩
  | ok parts => exact ⟨_, rfl⟩

theorem Straightens.build (layout : Layout) {count : Nat} (resolve : Bool → Work (List Part))
    {t : Trail}
    (h : Straightens w (resolve (layout.wrap || 1 < count)) t
      (Part.Bear (layout.wrap || 1 < count) w.stance.direction t.lineage))
    (hsteady : Yields w.Steady (resolve (layout.wrap || 1 < count)) fun _ => True) :
    Straightens w (Work.build layout count resolve) t
      (Fragment.MadeIn w.stance.direction t.lineage) := by
  refine ⟨h.past, ?_, fun f hf => ?_⟩
  · obtain ⟨archive, hbehind⟩ := Work.build_behind layout count resolve w
    rw [hbehind]
    exact h.behind.bindings rfl rfl
  · obtain ⟨parts, after, archive, hparts, hassemble, -⟩ := Work.build_ok (Prod.ext hf rfl)
    have hbear := h.answers parts (congrArg Prod.fst hparts)
    refine ⟨?_, hbear.along, hbear.hasReferences hassemble⟩
    rw [assemble_direction hassemble, (Work.steady_of_run hsteady hparts).direction]

theorem Straightens.assemble {items : List Item} {t : Trail}
    (h : Straightens w.beginAssembly
      (Item.resolveAll w.bindings (layout.wrap || 1 < items.length) items) t
      (Part.Bear (layout.wrap || 1 < items.length) w.beginAssembly.stance.direction t.lineage)) :
    Straightens w (Work.assemble layout items) t
      (Fragment.MadeIn w.stance.direction t.lineage) := by
  have hbuild := h.build layout (fun wrap => Item.resolveAll w.bindings wrap items)
    (Item.steadyAll items w.bindings _ w.beginAssembly)
  rw [w.beginAssembly_direction] at hbuild
  exact ⟨hbuild.past, hbuild.behind, hbuild.answers⟩

theorem Straightens.keeping {act : Work Fragment} {t : Trail} (result : Option Name)
    (h : Straightens w act t (Fragment.MadeIn w.stance.direction t.lineage))
    (hd : w.stance.direction ≠ .neutral) :
    Straightens w (act >>= fun f => Work.keep result (.fragment f))
      (t.keeping act result w) fun _ => True := by
  obtain ⟨past, behind, answers⟩ := h
  unfold Trail.keeping
  cases hrun : act.run w with
  | mk outcome after =>
    rw [hrun] at behind answers
    cases outcome with
    | error e =>
      refine ⟨past, ?_, fun _ _ => trivial⟩
      rw [run_bind, hrun]
      exact behind
    | ok f =>
      refine ⟨past, ?_, fun _ _ => trivial⟩
      rw [run_bind, hrun]
      have hvalue :
          (Value.fragment f).toFragment.Straight (f.credit w.stance.direction ++ t.lineage) :=
        (answers f rfl).straight hd
      show Workshop.Straight (t.descent.record result _) _
      refine behind.record hvalue ?_ ?_ <;> cases result <;> rfl

theorem Straightens.awaitBuilder {steps : List Step} (result : Item) (hw : w.Straight d)
    (h : (∀ x ∈ (Step.trailAll steps w.enter d).past, x.1.Straight x.2) ∧
      (Step.runAll steps w.enter).2.Straight (Step.trailAll steps w.enter d).descent) :
    Straightens w (Work.awaitBuilder steps result) (Step.trailAll steps w.enter d).inward
      (Bindings.Straight (Step.trailAll steps w.enter d).descent) := by
  obtain ⟨builders, hleft⟩ := Work.awaitBuilder_behind steps result w
  have hstraight : ((Work.awaitBuilder steps result).run w).2.Straight
      (Step.trailAll steps w.enter d).descent := by
    rw [hleft]
    exact ⟨hw.facing, h.2.values⟩
  refine ⟨h.1, hstraight, fun seen hseen => ?_⟩
  rw [(Work.awaitBuilder_ok (Prod.ext hseen rfl)).2.1]
  exact hstraight.values

theorem Straightens.logged {act : Work Answer} {t : Trail}
    (h : Straightens { w with builders := [] } act t fun _ => True) :
    Straightens w (Work.logged act) t fun _ => True :=
  ⟨h.past, h.behind.bindings rfl rfl, fun _ _ => trivial⟩

theorem Step.runAll_ok {step : Step} {answer : Answer} (rest : List Step)
    (h : step.run.run w = (.ok answer, after)) :
    (Step.runAll (step :: rest) w).2 = (Step.runAll rest after).2 := by
  rw [Step.runAll]
  show (StateT.bind step.run.run _ w).2 = _
  rw [StateT.bind, h]
  rfl

theorem Step.runAll_error {step : Step} {failure : Failure} (rest : List Step)
    (h : step.run.run w = (.error failure, after)) :
    (Step.runAll (step :: rest) w).2 = after := by
  rw [Step.runAll]
  show (StateT.bind step.run.run _ w).2 = _
  rw [StateT.bind, h]
  rfl

mutual
theorem Item.straight (item : Item) (ho : item.oriented) {w : Workshop} {seen : Bindings}
    {behind d : Descent} {wrap : Bool} (hw : w.Straight d) (hseen : Bindings.Straight behind seen)
    (hs : (item.trail seen behind wrap w d).Closed) :
    Straightens w (item.resolve seen wrap) (item.trail seen behind wrap w d) fun part =>
      Part.Bear wrap w.stance.direction (item.trail seen behind wrap w d).lineage [part] := by
  match item with
  | .pattern p | .fragment f => simp [Item.oriented] at ho
  | .literal t =>
    rw [Item.resolve, Item.trail]
    exact ⟨by simp [Trail.leaf], hw, fun part hpart => by
      obtain rfl := Except.ok.inj hpart
      exact ⟨by simp [Trail.leaf], by simp [Trail.leaf]⟩⟩
  | .named name =>
    rw [Item.resolve, Item.trail]
    cases hv : seen.lookup name with
    | none => exact .throw hw
    | some value => exact .leaf hw (hseen name value hv)
  | .malformed field =>
    rw [Item.resolve, Item.trail]
    exact .throw hw
  | .tree items =>
    rw [Item.trail] at hs ⊢
    replace hs := Trail.closed_credited.mp hs
    have hbelow := hs.of_meeting
    have hbuild := (Item.straightAll items ho hw hseen hbelow).build ⟨false, wrap, 0⟩
      (fun wrap => Item.resolveAll seen wrap items) (Item.steadyAll items seen _ w)
    have hjoint : ∀ f, ((Work.build ⟨false, wrap, 0⟩ items.length fun wrap =>
        Item.resolveAll seen wrap items).run w).1 = .ok f → f.Joint wrap := by
      intro f hf
      refine Work.build_joint (Prod.ext hf rfl) fun parts between hparts => ?_
      rw [Trail.meeting_ok hparts] at hs
      refine ⟨_, hs.sites _ (List.mem_append_right _ (List.mem_singleton_self _)), ?_⟩
      exact fun part hpart =>
        (Item.jointAll items hparts hbelow.sites part hpart).imp_right fun hj => ⟨_, hj⟩
    refine .credited ?_
    rw [Trail.meeting_lineage, Item.resolve]
    exact ((hbuild.and hjoint).map fun f hf => ⟨hf.1, rfl, hf.2⟩).meeting _
  | .deferred steps result =>
    rw [Item.oriented, Bool.and_eq_true] at ho
    rw [Item.trail] at hs ⊢
    rw [Item.resolve_deferred]
    have henter : w.enter.Straight d := hw.bindings rfl rfl
    obtain ⟨hsteps, hs⟩ := Trail.closed_andThen.mp hs
    have hbuilder := Straightens.awaitBuilder result hw
      (Step.straightAll steps ho.1 henter (Trail.closed_inward.mp hsteps))
    refine hbuilder.bind fun seen after hrun hafter hseen => ?_
    rw [Trail.andThen, Work.trailing_ok hrun] at *
    cases hd : result.isDeferred with
    | true => exact .throw hafter
    | false =>
      rw [hd] at hs
      have hresult := Item.straight result ho.2 hafter hseen hs
      rw [Work.awaitBuilder_stance hrun] at hresult
      exact hresult

theorem Item.straightAll (items : List Item) (ho : Item.orientedAll items) {w : Workshop}
    {seen : Bindings} {behind d : Descent} {wrap : Bool} (hw : w.Straight d)
    (hseen : Bindings.Straight behind seen)
    (hs : (Item.trailAll seen behind wrap items w d).Closed) :
    Straightens w (Item.resolveAll seen wrap items) (Item.trailAll seen behind wrap items w d)
      (Part.Bear wrap w.stance.direction (Item.trailAll seen behind wrap items w d).lineage) := by
  match items with
  | [] =>
    rw [Item.resolveAll, Item.trailAll]
    exact .still hw ⟨by simp [Trail.still], by simp [Trail.still]⟩
  | item :: rest =>
    rw [Item.orientedAll, Bool.and_eq_true] at ho
    rw [Item.trailAll] at hs ⊢
    rw [Item.resolveAll]
    obtain ⟨hfirst, hs⟩ := Trail.closed_andThen.mp hs
    refine (Item.straight item ho.1 hw hseen hfirst).bind fun part after hpart hafter hbear => ?_
    rw [Trail.andThen, Work.trailing_ok hpart] at *
    have hrest := Item.straightAll rest ho.2 hafter hseen hs
    rw [Item.resolve_direction hpart] at hrest
    exact hrest.map fun parts hparts => hbear.append hparts

theorem Step.straight (step : Step) (ho : step.oriented) {w : Workshop} {d : Descent}
    (hw : w.Straight d) (hs : (step.trail w d).Closed) :
    Straightens w step.run (step.trail w d) fun _ => True := by
  match step with
  | .action a =>
    rw [Step.run, Step.trail]
    exact ⟨by simp [Trail.still], Action.straight ho hw, fun _ _ => trivial⟩
  | .assemble result items layout =>
    rw [Step.run_assemble]
    rw [Step.trail] at hs ⊢
    rw [← Trail.still_andThen d (Work.trailing _ _ w)] at hs ⊢
    have hrequire := Straightens.reads hw (Work.reads_requireAll (Item.requirementsAll items))
    refine hrequire.bind fun _ after hrequire hafter _ => ?_
    rw [Trail.still_andThen, Work.trailing_ok hrequire] at hs
    obtain rfl : w = after := (Work.reads_requireAll _ w).symm.trans (congrArg Prod.snd hrequire)
    have hstart : Workshop.Straight d { w with builders := [] } := hw.bindings rfl rfl
    have hitems := Item.straightAll items ho hstart.beginAssembly hw.values
      (Trail.closed_keeping.mp hs)
    exact .logged (.keeping result (.assemble hitems) hw.facing)
  | .nested shield steps =>
    rw [Step.oriented, Bool.and_eq_true] at ho
    rw [Step.trail] at hs ⊢
    have henter : (shield.enter w).Straight d := by
      refine ⟨?_, ?_⟩
      · cases shield with
        | reentrant | scope => exact hw.facing
        | direction facing =>
          show facing ≠ .neutral
          simpa using ho.1
      · cases shield <;> exact hw.values
    obtain ⟨hpast, hbehind⟩ := Step.straightAll steps ho.2 henter (Trail.closed_inward.mp hs)
    refine ⟨hpast, ⟨?_, fun name value hvalue => hbehind.values name value ?_⟩, fun _ _ => trivial⟩
    · rw [((Step.nested shield steps).steady w w (.refl w)).2.direction]
      exact hw.facing
    · rwa [Step.nested_behind, Shield.leave_bindings] at hvalue

theorem Step.straightAll (steps : List Step) (ho : Step.orientedAll steps) {w : Workshop}
    {d : Descent} (hw : w.Straight d)
    (hs : (Step.trailAll steps w d).Closed) :
    (∀ x ∈ (Step.trailAll steps w d).past, x.1.Straight x.2) ∧
      (Step.runAll steps w).2.Straight (Step.trailAll steps w d).descent := by
  match steps with
  | [] =>
    rw [Step.runAll, Step.trailAll]
    exact ⟨by simp [Trail.still], hw⟩
  | step :: rest =>
    rw [Step.orientedAll, Bool.and_eq_true] at ho
    rw [Step.trailAll] at hs ⊢
    obtain ⟨hfirst, hs⟩ := Trail.closed_andThen.mp hs
    have hstep := (Step.straight step ho.1 hw hfirst).around hw
    cases hrun : step.run.run w with
    | mk outcome after =>
      have hbehind := hstep.behind
      rw [hrun] at hbehind
      cases outcome with
      | error failure =>
        rw [Step.runAll_error rest hrun, Trail.andThen, Work.trailing, hrun]
        exact ⟨by simpa [Trail.still] using hstep.past, hbehind⟩
      | ok answer =>
        rw [Work.trailing_ok hrun] at hs
        rw [Step.runAll_ok rest hrun, Trail.andThen, Work.trailing_ok hrun]
        obtain ⟨hpast, hrest⟩ := Step.straightAll rest ho.2 hbehind hs
        exact ⟨List.forall_mem_append.mpr ⟨hstep.past, hpast⟩, hrest⟩
end

end Splice
