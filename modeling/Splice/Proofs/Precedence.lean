import Splice.Proofs.Resolving

/-!
# Alternatives keep to themselves

The members of a sequence do not alternate, whatever their leaves hold and
however deep they are nested. The members of an alternation keep their own
alternatives, and nothing but the bars between them is added. Markers that run
into digits do no harm here.
-/

namespace Splice

open Source

variable {layout : Layout} {items : List Item} {w w' : Workshop} {f : Fragment}
  {leaves : List Fragment}

theorem Item.leaves_of_resolvesTo {fine : Bool} {known : Catalogue} {seen : Bindings}
    {items : List Item} {fs : List Fragment}
    (h : List.Forall₂ (Item.ResolvesTo fine known seen) items fs)
    (ht : ∀ item ∈ items, item.isTree = false) :
    Item.leavesOf seen items = some (fs.map fun f => [f]) := by
  induction h with
  | nil => rfl
  | cons hf _ ih =>
    rw [List.forall_mem_cons] at ht
    rw [Item.leavesOf, hf.single ht.1, ih ht.2]
    rfl

/-- In a successful sequence that wraps, or that has several members, no bar
stands outside all groups. A successful alternation of items that are no trees
has the bars of its leaves there, and one between any two items. -/
theorem Work.assemble_bars
    (hl : (Item.tree items).leaves w.bindings = some leaves)
    (hp : ∀ g ∈ leaves, g.Proper Closed w.archive) (hs : Fragment.Sharing leaves)
    (h : (Work.assemble layout items).run w = (.ok f, w')) :
    (layout.alternation = false → layout.wrap ∨ 1 < items.length →
      alternates f.source = false) ∧
    (layout.alternation → items ≠ [] → (∀ item ∈ items, item.isTree = false) →
      topBars f.source = items.length - 1 + (leaves.map fun g => topBars g.source).sum) := by
  obtain ⟨groups, hgroups, rfl⟩ := Option.map_eq_some_iff.mp hl
  obtain ⟨harchive, hsound⟩ : w.archive.Reports false _ ∧ ∀ g ∈ groups.flatten, g.Sound false _ :=
    Fragment.sound_of_proper hp (fun s hs => ⟨hs, by simp⟩) hs
  obtain ⟨fs, hfs, hf⟩ := Work.assemble_ok hgroups hsound harchive h
  constructor
  · intro ha hw
    have hwrap : layout.wrap || 1 < items.length := by simpa using hw
    rw [alternates_eq, hf.sequence ha hwrap]
    rfl
  · intro ha hne ht
    have hleaves : groups.flatten = fs := by
      have := hgroups.symm.trans (Item.leaves_of_resolvesTo hfs ht)
      rw [Option.some.inj this, ← List.flatMap_def, List.flatMap_singleton']
    have hlength : items.length = fs.length := hfs.length_eq
    have hpos : 0 < items.length := List.length_pos_iff.mpr hne
    have hbars := hf.alternatives ha (List.ne_nil_of_length_pos (by simp [← hlength, hpos]))
    rw [List.length_map, List.map_map, ← hlength] at hbars
    have hsum : (fs.map (topBars ∘ Fragment.source)).sum =
      (groups.flatten.map fun g => topBars g.source).sum := by rw [hleaves]; rfl
    omega

def Pattern.choice : Pattern :=
  ⟨0, "^a|b".toList, { Flags.empty with multiline := true }, .plain⟩

def Workshop.withChoice : Workshop :=
  { Workshop.new true with archive := #[.empty], bindings := [("choice", .pattern .choice)] }

/-- Around a literal bar, in a tree and as alternatives. The folded anchor has a
bar of its own, which counts nowhere. -/
theorem Work.assemble_bars_choice :
    (∃ f w', (Work.assemble ⟨false, false, 0⟩
        [.named "choice", .tree [.literal ['|'], .named "choice"]]).run .withChoice =
          (.ok f, w') ∧
      alternates f.source = false) ∧
    ∃ f w', (Work.assemble ⟨true, false, 0⟩
        [.named "choice", .literal ['|'], .named "choice"]).run .withChoice = (.ok f, w') ∧
      topBars f.source = 4 := by
  have hclosed : Closed Pattern.choice.source := by decide +kernel
  have hchoice : (Fragment.native .choice).Proper Closed Workshop.withChoice.archive :=
    ⟨hclosed, (Analysis.reports_empty _).honest⟩
  have hproper : ∀ f ∈ [Fragment.native .choice, .literal ['|'], .native .choice],
      f.Proper Closed Workshop.withChoice.archive :=
    List.forall_mem_cons.mpr ⟨hchoice, List.forall_mem_cons.mpr ⟨⟨_, rfl⟩, by simpa using hchoice⟩⟩
  constructor
  · have hrun := Work.run_ok (Work.assemble ⟨false, false, 0⟩
      [.named "choice", .tree [.literal ['|'], .named "choice"]]) .withChoice
      (.composite
        ("(?:(?:^|(?<=[\\n\\r\\u2028\\u2029]))a|b)\\|" ++
          "(?:(?:^|(?<=[\\n\\r\\u2028\\u2029]))a|b)").toList
        ⟨.neutral, false, some false, some true⟩ ⟨some 0, some .none, none, none⟩)
      (by decide +kernel)
    have h := Work.assemble_bars rfl hproper (by decide) hrun
    exact ⟨_, _, hrun, h.1 rfl (by decide)⟩
  · have hrun := Work.run_ok (Work.assemble ⟨true, false, 0⟩
      [.named "choice", .literal ['|'], .named "choice"]) .withChoice
      (.composite
        ("(?:^|(?<=[\\n\\r\\u2028\\u2029]))a|b|\\||" ++
          "(?:^|(?<=[\\n\\r\\u2028\\u2029]))a|b").toList
        ⟨.neutral, false, some false, some true⟩ ⟨some 0, some .none, some true, none⟩)
      (by decide +kernel)
    have h := Work.assemble_bars rfl hproper (by decide) hrun
    refine ⟨_, _, hrun, (h.2 rfl (by simp) (by simp [Item.isTree])).trans ?_⟩
    decide +kernel

end Splice
