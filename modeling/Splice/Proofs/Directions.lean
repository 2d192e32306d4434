import Splice.Proofs.Bearing

/-!
# Directions do not mix

As long as nothing turns to another direction than forward or backward, every
value that a program makes records the one direction of all the assemblies with
references behind it. An assembly admits no leaf of the opposite direction, and
what it makes from closed leaves records its own if there is a reference in it.

The leaves of trees within an assembly have to be closed for this. Otherwise
the pieces of a tree may come together to a source whose reference is inside of
a class, or which alternates where none of the pieces does. The tree then is
wrapped, and what is recorded about it is lost.
-/

namespace Splice

open Source

variable {α : Type} {seen : Bindings} {wrap : Bool} {w after : Workshop} {d : Descent}
  {t : Trail} {m : Moment}

-- ---------------------------------------------------------------------------
-- What a trail notes
-- ---------------------------------------------------------------------------

/-- The workshops before and behind a moment are part of a trail. -/
def Trail.Notes (t : Trail) (m : Moment) : Prop :=
  (∃ d, (m.before, d) ∈ t.past) ∧ ∃ d, (m.after, d) ∈ t.past

namespace Trail.Notes

theorem mono {u : Trail} (h : t.Notes m) (hp : t.past ⊆ u.past) : u.Notes m :=
  ⟨h.1.imp fun _ hd => hp hd, h.2.imp fun _ hd => hp hd⟩

theorem left (h : t.Notes m) (next : Descent → Trail) : (t.andThen next).Notes m :=
  h.mono (List.subset_append_left _ _)

theorem right {next : Descent → Trail} (h : (next t.descent).Notes m) : (t.andThen next).Notes m :=
  h.mono (List.subset_append_right _ _)

theorem keeping (h : t.Notes m) (act : Work Fragment) (result : Option Name) (w : Workshop) :
    (t.keeping act result w).Notes m := by
  refine h.mono ?_
  unfold Trail.keeping
  split <;> exact List.Subset.refl _

theorem inside (h : t.Notes m) (step : Step) (w : Workshop) (d : Descent) :
    (t.around step w d).Notes m :=
  h.mono (List.subset_cons_of_subset _ (List.subset_append_left _ _))

theorem around (t : Trail) (step : Step) (w : Workshop) (d : Descent) :
    (t.around step w d).Notes ⟨step, w⟩ :=
  ⟨⟨d, List.mem_cons_self⟩, ⟨t.descent, by simp [Trail.around, Moment.after]⟩⟩

end Trail.Notes

mutual
theorem Item.noted (item : Item) {seen : Bindings} {wrap : Bool} {w : Workshop} {m : Moment}
    (hm : m ∈ item.moments seen wrap w) (behind d : Descent) :
    (item.trail seen behind wrap w d).Notes m := by
  match item with
  | .literal _ | .pattern _ | .fragment _ | .named _ | .malformed _ => simp [Item.moments] at hm
  | .tree items =>
    rw [Item.moments] at hm
    refine (Item.notedAll items hm behind d).mono ?_
    obtain ⟨sites, hmeeting⟩ := Trail.meeting_eq
      (Item.trailAll seen behind (wrap || 1 < items.length) items w d)
      (Item.resolveAll seen (wrap || 1 < items.length) items) w
    obtain ⟨lineage, hcredited⟩ := Trail.credited_eq
      ((Item.trailAll seen behind (wrap || 1 < items.length) items w d).meeting
        (Item.resolveAll seen (wrap || 1 < items.length) items) w)
      ((Item.tree items).resolve seen wrap) w
    rw [Item.trail, hcredited, hmeeting]
    exact List.Subset.refl _
  | .deferred steps result =>
    rw [Item.moments, List.mem_append] at hm
    rw [Item.trail]
    obtain hm | hm := hm
    · exact .left ((Step.notedAll steps hm d).mono (List.Subset.refl _)) _
    · obtain ⟨seen, after, hbuilder, hm⟩ := Work.mem_onward hm
      refine .right ?_
      rw [Work.trailing_ok hbuilder]
      split at hm
      · simp at hm
      · rw [if_neg ‹_›]
        exact Item.noted result hm _ _

theorem Item.notedAll (items : List Item) {seen : Bindings} {wrap : Bool} {w : Workshop}
    {m : Moment} (hm : m ∈ Item.momentsAll seen wrap items w) (behind d : Descent) :
    (Item.trailAll seen behind wrap items w d).Notes m := by
  match items with
  | [] => simp [Item.momentsAll] at hm
  | item :: rest =>
    rw [Item.momentsAll, List.mem_append] at hm
    rw [Item.trailAll]
    obtain hm | hm := hm
    · exact (Item.noted item hm behind d).left _
    · obtain ⟨part, after, hpart, hm⟩ := Work.mem_onward hm
      refine .right ?_
      rw [Work.trailing_ok hpart]
      exact Item.notedAll rest hm behind _

theorem Step.noted (step : Step) {w : Workshop} {m : Moment} (hm : m ∈ step.moments w)
    (d : Descent) : ((step.trail w d).around step w d).Notes m := by
  match step with
  | .action a =>
    rw [Step.moments, List.mem_singleton] at hm
    subst hm
    exact .around _ _ w d
  | .assemble result items layout =>
    rw [Step.moments, List.mem_cons] at hm
    obtain rfl | hm := hm
    · exact .around _ _ w d
    · obtain ⟨u, after, hrequire, hm⟩ := Work.mem_onward hm
      rw [Step.trail, Work.trailing_ok hrequire]
      exact ((Item.notedAll items hm d d).keeping _ result _).inside _ w d
  | .nested shield steps =>
    rw [Step.moments, List.mem_cons] at hm
    obtain rfl | hm := hm
    · exact .around _ _ w d
    · rw [Step.trail]
      exact ((Step.notedAll steps hm d).mono (List.Subset.refl _)).inside _ w d

theorem Step.notedAll (steps : List Step) {w : Workshop} {m : Moment}
    (hm : m ∈ Step.momentsAll steps w) (d : Descent) : (Step.trailAll steps w d).Notes m := by
  match steps with
  | [] => simp [Step.momentsAll] at hm
  | step :: rest =>
    rw [Step.momentsAll, List.mem_append] at hm
    rw [Step.trailAll]
    obtain hm | hm := hm
    · exact (Step.noted step hm d).left _
    · obtain ⟨answer, after, hrun, hm⟩ := Work.mem_onward hm
      refine .right ?_
      rw [Work.trailing_ok hrun]
      exact Step.notedAll rest hm _
end

-- ---------------------------------------------------------------------------
-- Programs
-- ---------------------------------------------------------------------------

theorem programTrail_notes (program : List Step) {w : Workshop} (hm : m ∈ programMoments program w)
    (d : Descent) : (programTrail program w d).Notes m := by
  induction program generalizing w d with
  | nil => simp [programMoments] at hm
  | cons step rest ih =>
    rw [programMoments, List.mem_append] at hm
    obtain hm | hm := hm
    · exact (Step.noted step hm d).left _
    · refine .right ?_
      split at hm
      · rename_i hgo
        rw [if_pos hgo]
        exact ih hm _
      · simp at hm

theorem programTrail_straight {program : List Step} (ho : Step.orientedAll program)
    (hw : w.Straight d) (hs : (programTrail program w d).Closed) :
    ∀ x ∈ (programTrail program w d).past, x.1.Straight x.2 := by
  induction program generalizing w d with
  | nil => simp [programTrail, Trail.still]
  | cons step rest ih =>
    rw [Step.orientedAll, Bool.and_eq_true] at ho
    obtain ⟨hfirst, hs⟩ := Trail.closed_andThen.mp hs
    have hstep := (Step.straight step ho.1 hw hfirst).around hw
    refine List.forall_mem_append.mpr ⟨hstep.past, ?_⟩
    split
    · rename_i hgo
      rw [if_pos hgo] at hs
      exact ih ho.2 hstep.behind hs
    · simp [Trail.still]

theorem Workshop.straight_new (fold : Bool) : (Workshop.new fold).Straight fun _ => [] :=
  ⟨by simp [new, Stance.initial], by simp [new]⟩

-- ---------------------------------------------------------------------------
-- One assembly
-- ---------------------------------------------------------------------------

variable {layout : Layout} {items : List Item} {f : Fragment}

theorem Work.assemble_run (layout : Layout) (items : List Item) (w : Workshop) :
    (assemble layout items).run w =
      (build layout items.length fun wrap => Item.resolveAll w.bindings wrap items).run
        w.beginAssembly := rfl

theorem Work.assemble_unopposed (h : (assemble layout items).run w = (.ok f, after)) (d : Descent) :
    ∀ leaf ∈ (assemblyTrail layout items w d).leaves,
      leaf.direction.opposes w.stance.direction = false := by
  rw [assemble_run] at h
  obtain ⟨parts, between, archive, hparts, -, -⟩ := build_ok h
  have hunopposed := Item.unopposedAll items hparts d d
  rw [w.beginAssembly_direction] at hunopposed
  rw [assemblyTrail, Trail.meeting_ok hparts]
  exact hunopposed

theorem Work.assemble_records (h : (assemble layout items).run w = (.ok f, after))
    (hs : ∀ site ∈ (assemblyTrail layout items w d).sites, site.Closed)
    (hr : (references f.source).present) : f.direction = w.stance.direction := by
  rw [assemble_run] at h
  obtain ⟨parts, between, archive, hparts, hassemble, -⟩ := build_ok h
  rw [assemblyTrail, Trail.meeting_ok hparts, List.forall_mem_append] at hs
  have hjoint := Item.jointAll items hparts hs.1
  obtain ⟨-, hpresent⟩ := (hs.2 _ (List.mem_singleton_self _)).assembled
    (List.forall_mem_map.mpr fun part hpart => (hjoint part hpart).imp_right fun hj => ⟨_, hj⟩)
    hassemble
  have hdirection := (Work.steady_of_run (Item.steadyAll items w.bindings _ _) hparts).direction
  rw [assemble_direction hassemble, hpresent hr, if_pos rfl, hdirection,
    w.beginAssembly_direction]

-- ---------------------------------------------------------------------------
-- Directions
-- ---------------------------------------------------------------------------

/-- A program that turns to no other direction than forward or backward, and
puts trees together from closed leaves, has straight values before and behind
every step that runs. No assembly that succeeds has a leaf of the opposite
direction, and from closed leaves with a reference it makes a fragment that
records its own. -/
theorem directions_apart :
    (∀ program fold, Step.orientedAll program →
      let t := programTrail program (.new fold) fun _ => []
      t.Closed → (∀ m ∈ programMoments program (.new fold), t.Notes m) ∧
        ∀ x ∈ t.past, x.1.Straight x.2) ∧
      ∀ layout items w d f after, (Work.assemble layout items).run w = (.ok f, after) →
        let t := Work.assemblyTrail layout items w d
        (∀ leaf ∈ t.leaves, leaf.direction.opposes w.stance.direction = false) ∧
          ((∀ site ∈ t.sites, site.Closed) → (references f.source).present →
            f.direction = w.stance.direction) := by
  constructor
  · intro program fold ho t hs
    exact ⟨fun m hm => programTrail_notes program hm _,
      programTrail_straight ho (Workshop.straight_new fold) hs⟩
  · intro layout items w d f after h t
    exact ⟨Work.assemble_unopposed h d, Work.assemble_records h⟩

def mirroredItems : List Item :=
  [ .tree [.named "pair", .named "pair"],
    .deferred [.assemble (some "tail") [.literal ['0']] ⟨false, false, 0⟩] (.named "tail") ]

def mirroredProgram : List Step :=
  [ .action (.compile (some "pair") "(a)\\1|b".toList none),
    .nested (.direction .backward) [.assemble (some "both") mirroredItems ⟨false, false, 1⟩],
    .action (.decorate (some "many") "both" ⟨.quantifier, "(?:".toList, [')'], some ['*']⟩),
    .action (.copy (some "again") "many"),
    .action (.finish (some "whole") "again" none none none) ]

def Workshop.turnedBack : Workshop :=
  { Workshop.new false with
    stance := ⟨.fresh, .backward⟩
    archive := #[.empty]
    bindings := [("pair", .pattern ⟨0, "(a)\\1|b".toList, .empty, .plain⟩)] }

theorem directions_apart_mirrored :
    (∀ x ∈ (programTrail mirroredProgram (.new false) fun _ => []).past, x.1.Straight x.2) ∧
      (programTrail mirroredProgram (.new false) fun _ => []).descent "whole" =
        [.backward, .backward] ∧
      ∃ f after, (Work.assemble ⟨false, false, 1⟩ mirroredItems).run .turnedBack = (.ok f, after) ∧
        f.source = "(?:(a)\\2|b)(?:(a)\\3|b)0".toList ∧ f.direction = .backward := by
  have closed : ∀ {sites : List Site},
      (∀ site ∈ sites, (∀ f ∈ site.leaves, f.isLiteral = false ∧ Closed f.source ∧
        (f.analysis site.archive).Honest f.source) ∧ Fragment.Sharing site.leaves) →
      ∀ site ∈ sites, site.Closed :=
    fun h site hsite => Site.closed_of_honest (h site hsite).1 (h site hsite).2
  refine ⟨?_, by decide +kernel, ?_⟩
  · exact (directions_apart.1 mirroredProgram false rfl (closed (by decide +kernel))).2
  · let f : Fragment := .composite "(?:(a)\\2|b)(?:(a)\\3|b)0".toList
      ⟨.backward, false, some false, some false⟩ ⟨some 2, some ⟨true, false⟩, none, none⟩
    have hrun := Work.run_ok (Work.assemble ⟨false, false, 1⟩ mirroredItems) .turnedBack f
      (by decide +kernel)
    have hsites : ∀ site ∈ (Work.assemblyTrail ⟨false, false, 1⟩ mirroredItems .turnedBack
        fun _ => []).sites, site.Closed := closed (by decide +kernel)
    refine ⟨f, _, hrun, rfl, ?_⟩
    exact (directions_apart.2 _ _ _ _ _ _ hrun).2 hsites (by decide +kernel)

def classProgram : List Step :=
  [ .action (.raw (some "open") "x[".toList none),
    .action (.raw (some "echo") "\\1".toList none),
    .action (.raw (some "close") "]|a".toList none),
    .assemble (some "some") [.named "echo"] ⟨false, false, 0⟩,
    .assemble (some "all") [.tree [.named "open", .named "some", .named "close"], .literal ['y']]
      ⟨false, false, 0⟩ ]

/-- Two assemblies forward are behind a value that records no direction. -/
theorem directions_not_apart_class :
    Step.orientedAll classProgram ∧
      ¬ ∀ x ∈ (programTrail classProgram (.new false) fun _ => []).past, x.1.Straight x.2 := by
  refine ⟨rfl, fun h => ?_⟩
  let last := (programTrail classProgram (.new false) fun _ => []).past.getLast (by decide +kernel)
  obtain ⟨-, hvalues⟩ := h last (List.getLast_mem _)
  have hdirection : (last.1.bindings.lookup "all").map (fun value => value.toFragment.direction) =
      some .neutral := by decide +kernel
  have hlineage : last.2 "all" = [.forward, .forward] := by decide +kernel
  obtain ⟨value, hvalue, hneutral⟩ := Option.map_eq_some_iff.mp hdirection
  have hstraight := hvalues "all" value hvalue
  rw [hlineage] at hstraight
  cases hstraight.neutral.mpr hneutral

end Splice
