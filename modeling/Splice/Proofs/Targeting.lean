import Splice.Proofs.Resolving

/-!
# References find their groups

However an assembly nests its leaves, the captures and references of its result
are those of the leaves from left to right. Every reference is raised by the
groups that now stand before its own leaf: those that the caller places before
the whole, and the captures of all earlier leaves.
-/

namespace Splice

open Source

variable {layout : Layout} {items : List Item} {w w' : Workshop} {f : Fragment}
  {leaves : List Fragment}

/-- A successful assembly of leaves without markers shows the events of its
leaves, each behind the offset and the captures of the leaves before it. Its
record is honest, and holds the number of captures. -/
theorem Work.assemble_targets
    (hl : (Item.tree items).leaves w.bindings = some leaves)
    (hp : ∀ g ∈ leaves, g.Proper (fun s => Closed s ∧ MarkerFree s) w.archive)
    (hs : Fragment.Sharing leaves)
    (h : (Work.assemble layout items).run w = (.ok f, w')) :
    events f.source = Event.place layout.offset.toNat (leaves.map fun g => events g.source) ∧
      (f.analysis w'.archive).captures = some (captureCount f.source) ∧
      (f.analysis w'.archive).Honest f.source ∧ Closed f.source ∧ MarkerFree f.source := by
  obtain ⟨groups, hgroups, rfl⟩ := Option.map_eq_some_iff.mp hl
  obtain ⟨harchive, hsound⟩ : w.archive.Reports true _ ∧ ∀ g ∈ groups.flatten, g.Sound true _ :=
    Fragment.sound_of_proper hp (fun s hs => ⟨hs.1, fun _ => hs.2.clear⟩) hs
  obtain ⟨fs, hfs, hf⟩ := Work.assemble_ok hgroups hsound harchive h
  have hsignals : (groups.flatten.map fun g => signals true g.source) =
      groups.flatten.map fun g => events g.source :=
    List.map_congr_left fun g hg => (hsound g hg).closed.events
  have hfree : ∀ g ∈ groups.flatten, ∀ e ∈ signals true g.source, e.isDeferred = false := by
    intro g hg
    rw [(hsound g hg).closed.events]
    exact markerFree_iff.mp ((hp g hg).markerFree fun s hs => hs.2)
  have hparts : (fs.map Fragment.source).map (signals true) =
      groups.map fun ls => Event.place 0 (ls.map fun g => signals true g.source) := by
    rw [← Item.signals_of_resolvesTo hfs hgroups hfree, List.map_map]
    rfl
  have hevents : events f.source =
      Event.place layout.offset.toNat (groups.flatten.map fun g => events g.source) := by
    rw [← hf.closed.events, hf.signals, hparts, Event.place_leaves hfree, hsignals]
  obtain ⟨traits, a, ho, ha, hcaptures⟩ := hf.recorded
  have hanalysis : f.analysis w'.archive = a := by rw [Fragment.analysis, ho]
  rw [hanalysis]
  refine ⟨hevents, hcaptures, ha.honest, hf.closed, ?_⟩
  rw [markerFree_iff, hevents]
  refine Event.isDeferred_place (List.forall_mem_map.mpr fun g hg => ?_)
  exact markerFree_iff.mp ((hp g hg).markerFree fun s hs => hs.2)

def Pattern.pair : Pattern := ⟨0, "(a)\\1".toList, .empty, .plain⟩

def Workshop.withPair : Workshop :=
  { Workshop.new false with archive := #[.empty], bindings := [("pair", .pattern .pair)] }

theorem Workshop.withPair_proper : ∀ f ∈ [Fragment.native .pair, .literal ['7'], .native .pair],
    f.Proper (fun s => Closed s ∧ MarkerFree s) Workshop.withPair.archive := by
  have hclosed : Closed Pattern.pair.source := by decide +kernel
  have hfree : MarkerFree Pattern.pair.source := by decide +kernel
  have hpair : (Fragment.native .pair).Proper (fun s => Closed s ∧ MarkerFree s)
      Workshop.withPair.archive := ⟨⟨hclosed, hfree⟩, (Analysis.reports_empty _).honest⟩
  exact List.forall_mem_cons.mpr ⟨hpair, List.forall_mem_cons.mpr ⟨⟨_, rfl⟩, by simpa using hpair⟩⟩

theorem Work.assemble_targets_pairs :
    ∃ f w', (Work.assemble ⟨false, false, 1⟩
        [.named "pair", .tree [.literal ['7'], .named "pair"]]).run .withPair = (.ok f, w') ∧
      f.source = "(a)\\2(?:)7(a)\\3".toList ∧
      events f.source = [.capture, .reference 2, .capture, .reference 3] ∧
      (f.analysis w'.archive).captures = some 2 := by
  have hrun := Work.run_ok
    (Work.assemble ⟨false, false, 1⟩ [.named "pair", .tree [.literal ['7'], .named "pair"]])
    .withPair (.composite "(a)\\2(?:)7(a)\\3".toList ⟨.forward, false, some false, some false⟩
      ⟨some 2, some ⟨true, true⟩, none, none⟩) (by decide +kernel)
  obtain ⟨hevents, hcaptures, -⟩ :=
    Work.assemble_targets rfl Workshop.withPair_proper (by decide) hrun
  refine ⟨_, _, hrun, rfl, hevents.trans ?_, hcaptures.trans ?_⟩ <;> decide +kernel

end Splice
