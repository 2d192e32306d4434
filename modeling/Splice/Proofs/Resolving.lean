import Splice.Proofs.Answers
import Splice.Program.Run
import Splice.Proofs.Leaves

/-!
# Assemblies of items

An assembly whose leaves are sound keeps the archive honest, and its result is
what assembling says of the parts that the items resolve to.
-/

namespace Splice

open Source

variable {α : Type} {fine : Bool} {known : Catalogue}

-- ---------------------------------------------------------------------------
-- Acts of the workshop
-- ---------------------------------------------------------------------------

def Workshop.Reports (fine : Bool) (known : Catalogue) (w : Workshop) : Prop :=
  w.archive.Reports fine known

namespace Work

theorem onArchive_yields {act : ExceptT Error (StateM Archive) α} {Q : α → Prop}
    (h : Yields (Archive.Reports fine known) act Q) :
    Yields (Workshop.Reports fine known) (onArchive act) Q := by
  intro w hw
  obtain ⟨hq, hkeep⟩ := h w.archive hw
  exact ⟨fun a ha => hq a (mapError_ok.mp ha), hkeep⟩

section Stances

variable {I : Workshop → Prop}

theorem onStance_yields (hI : ∀ w stance, I w → I { w with stance := stance })
    (act : Stance → Except Error α × Stance) : Yields I (onStance act) fun _ => True :=
  fun _ hw => ⟨fun _ _ => trivial, hI _ _ hw⟩

theorem get_yields : Yields I (get : Work Workshop) fun _ => True :=
  fun _ hw => ⟨fun _ _ => trivial, hw⟩

theorem admitPattern_yields (hI : ∀ w stance, I w → I { w with stance := stance })
    (p : Pattern) : Yields I (admitPattern p) fun _ => True :=
  get_yields.bind fun _ _ => onStance_yields hI _

theorem admitFragment_yields (hI : ∀ w stance, I w → I { w with stance := stance })
    (f : Fragment) : Yields I (admitFragment f) fun part => part.1 = f := by
  unfold admitFragment
  split
  · exact (admitPattern_yields hI _).bind fun _ _ => .pure rfl
  · exact .pure rfl
  · exact get_yields.bind fun _ _ => (onStance_yields hI _).bind fun _ _ => .pure rfl

end Stances

theorem build_yields {layout : Layout} {count : Nat} {resolve : Bool → Work (List Part)}
    {P : List Fragment → Prop}
    (h : ∀ wrap, Yields (Workshop.Reports fine known) (resolve wrap)
      fun parts => P (parts.map Prod.fst))
    (hs : ∀ fs, P fs → ∀ f ∈ fs, f.Sound fine known) :
    Yields (Workshop.Reports fine known) (build layout count resolve) fun f =>
      ∃ fs, P fs ∧ Assembled fine { layout with wrap := layout.wrap || 1 < count }
        (fs.map Fragment.source) f := by
  refine (h _).bind fun parts hp => get_yields.bind fun w _ => ?_
  exact (onArchive_yields (assemble_yields (hs _ hp) _ _ _)).mono fun f hf => ⟨_, hp, hf⟩

end Work

-- ---------------------------------------------------------------------------
-- Resolving
-- ---------------------------------------------------------------------------

/-- What an item resolves to. Leaves by themselves stay as they are; a tree
without markers shows what its leaves show, one behind the other. -/
structure Item.ResolvesTo (fine : Bool) (known : Catalogue) (seen : Bindings)
    (item : Item) (f : Fragment) : Prop where
  sound : f.Sound fine known
  single : item.isTree = false → item.leaves seen = some [f]
  signals : ∀ leaves, item.leaves seen = some leaves →
    (∀ g ∈ leaves, ∀ e ∈ signals fine g.source, e.isDeferred = false) →
      signals fine f.source = Event.place 0 (leaves.map fun g => signals fine g.source)

theorem Item.resolvesTo_leaf {seen : Bindings} {item : Item} {f : Fragment}
    (hl : item.leaves seen = some [f]) (h : f.Sound fine known) :
    item.ResolvesTo fine known seen f := by
  refine ⟨h, fun _ => hl, fun leaves hleaves hd => ?_⟩
  obtain rfl : [f] = leaves := Option.some.inj (hl.symm.trans hleaves)
  exact (Event.place_singleton (hd f (by simp))).symm

theorem Item.leavesOf_cons {seen : Bindings} {item : Item} {rest : List Item}
    {groups : List (List Fragment)} (h : Item.leavesOf seen (item :: rest) = some groups) :
    ∃ leaves others, item.leaves seen = some leaves ∧ Item.leavesOf seen rest = some others ∧
      groups = leaves :: others := by
  simp only [Item.leavesOf, Option.bind_eq_some_iff, Option.map_eq_some_iff] at h
  obtain ⟨leaves, hl, others, ho, rfl⟩ := h
  exact ⟨leaves, others, hl, ho, rfl⟩

theorem Item.leavesOf_append {seen : Bindings} {first second : List Item}
    {groups others : List (List Fragment)} (hf : Item.leavesOf seen first = some groups)
    (hs : Item.leavesOf seen second = some others) :
    Item.leavesOf seen (first ++ second) = some (groups ++ others) := by
  induction first generalizing groups with
  | nil =>
    obtain rfl := Option.some.inj hf
    exact hs
  | cons item rest ih =>
    obtain ⟨leaves, behind, hl, hb, rfl⟩ := Item.leavesOf_cons hf
    rw [List.cons_append, Item.leavesOf, hl, ih hb]
    rfl

theorem Item.signals_of_resolvesTo {seen : Bindings} {items : List Item} {fs : List Fragment}
    (h : List.Forall₂ (Item.ResolvesTo fine known seen) items fs)
    {groups : List (List Fragment)} (hl : Item.leavesOf seen items = some groups)
    (hd : ∀ g ∈ groups.flatten, ∀ e ∈ Source.signals fine g.source, e.isDeferred = false) :
    fs.map (fun f => Source.signals fine f.source) =
      groups.map fun ls => Event.place 0 (ls.map fun g => Source.signals fine g.source) := by
  induction h generalizing groups with
  | nil =>
    obtain rfl := Option.some.inj hl
    rfl
  | @cons item f rest fs hf _ ih =>
    obtain ⟨leaves, others, hleaves, hothers, rfl⟩ := Item.leavesOf_cons hl
    rw [List.flatten_cons, List.forall_mem_append] at hd
    rw [List.map_cons, hf.signals leaves hleaves hd.1, ih hothers hd.2]
    rfl

theorem Event.place_leaves {count : Nat} {groups : List (List Fragment)}
    (hd : ∀ g ∈ groups.flatten, ∀ e ∈ Source.signals fine g.source, e.isDeferred = false) :
    Event.place count
        (groups.map fun ls => Event.place 0 (ls.map fun g => Source.signals fine g.source)) =
      Event.place count (groups.flatten.map fun g => Source.signals fine g.source) := by
  have hgroups : (groups.map fun ls => ls.map fun g => Source.signals fine g.source).flatten =
      groups.flatten.map fun g => Source.signals fine g.source := by
    rw [List.map_flatten]
  rw [← hgroups, ← Event.place_place, List.map_map]
  · rfl
  · intro g hg es hes
    obtain ⟨ls, hls, rfl⟩ := List.mem_map.mp hg
    obtain ⟨f, hf, rfl⟩ := List.mem_map.mp hes
    exact hd f (List.mem_flatten.mpr ⟨ls, hls, hf⟩)

theorem Item.resolvesTo_tree {seen : Bindings} {items : List Item} {fs : List Fragment}
    {layout : Layout} {f : Fragment} (hl : layout.offset = 0)
    (h : List.Forall₂ (Item.ResolvesTo fine known seen) items fs)
    (hf : Assembled fine layout (fs.map Fragment.source) f) :
    (Item.tree items).ResolvesTo fine known seen f := by
  refine ⟨hf.sound, fun ht => by simp [Item.isTree] at ht, fun leaves hleaves hd => ?_⟩
  simp only [Item.leaves, Option.map_eq_some_iff] at hleaves
  obtain ⟨groups, hgroups, rfl⟩ := hleaves
  have hfs : (fs.map Fragment.source).map (Source.signals fine) =
      fs.map fun f => Source.signals fine f.source := by simp [Function.comp_def]
  rw [hf.signals, hl, hfs, Item.signals_of_resolvesTo h hgroups hd, Event.place_leaves hd]
  rfl

theorem Item.resolve_leaf {seen : Bindings} {item : Item} {leaves : List Fragment}
    (ht : item.isTree = false) (hl : item.leaves seen = some leaves) (wrap : Bool) :
    ∃ f, leaves = [f] ∧ item.resolve seen wrap = Work.admitFragment f := by
  cases item with
  | literal t => exact ⟨_, (Option.some.inj hl).symm, by rw [Item.resolve]; rfl⟩
  | pattern p => exact ⟨_, (Option.some.inj hl).symm, by rw [Item.resolve]⟩
  | fragment f => exact ⟨_, (Option.some.inj hl).symm, by rw [Item.resolve]⟩
  | named name =>
    cases hv : seen.lookup name with
    | none => simp [Item.leaves, hv] at hl
    | some value =>
      refine ⟨value.toFragment, by simpa [Item.leaves, hv] using hl.symm, ?_⟩
      rw [Item.resolve, hv]
  | tree items => simp [Item.isTree] at ht
  | deferred steps result => simp [Item.leaves] at hl
  | malformed field => simp [Item.leaves] at hl

theorem Item.resolveAll_leaves {I : Workshop → Prop}
    (hI : ∀ w stance, I w → I { w with stance := stance }) {seen : Bindings} {items : List Item}
    {groups : List (List Fragment)} (ht : ∀ item ∈ items, item.isTree = false)
    (hl : Item.leavesOf seen items = some groups) (wrap : Bool) :
    Yields I (Item.resolveAll seen wrap items) fun parts =>
      groups.flatten = parts.map Prod.fst := by
  induction items generalizing groups with
  | nil =>
    rw [Item.resolveAll]
    obtain rfl := Option.some.inj hl
    exact .pure rfl
  | cons item rest ih =>
    rw [List.forall_mem_cons] at ht
    obtain ⟨leaves, others, hleaves, hothers, rfl⟩ := Item.leavesOf_cons hl
    obtain ⟨f, rfl, hresolve⟩ := Item.resolve_leaf ht.1 hleaves wrap
    rw [Item.resolveAll, hresolve]
    refine (Work.admitFragment_yields hI f).bind fun part hp => ?_
    refine (ih ht.2 hothers).bind fun parts hps => .pure ?_
    rw [List.flatten_cons, hps, List.map_cons, hp]
    rfl

mutual
theorem Item.resolve_yields {seen : Bindings} (item : Item) {leaves : List Fragment}
    (hl : item.leaves seen = some leaves) (hs : ∀ f ∈ leaves, f.Sound fine known) (wrap : Bool) :
    Yields (Workshop.Reports fine known) (item.resolve seen wrap)
      fun part => item.ResolvesTo fine known seen part.1 := by
  have leaf : item.isTree = false → Yields (Workshop.Reports fine known) (item.resolve seen wrap)
      fun part => item.ResolvesTo fine known seen part.1 := by
    intro ht
    obtain ⟨f, rfl, hresolve⟩ := Item.resolve_leaf ht hl wrap
    rw [hresolve]
    refine (Work.admitFragment_yields (fun _ _ h => h) f).mono ?_
    rintro part rfl
    exact Item.resolvesTo_leaf hl (hs _ (by simp))
  match item with
  | .tree items =>
    rw [Item.resolve]
    simp only [Item.leaves, Option.map_eq_some_iff] at hl
    obtain ⟨groups, hgroups, rfl⟩ := hl
    refine (Work.build_yields (fun wrap => Item.resolveAll_yields items hgroups hs wrap)
      fun fs hfs => forall_mem_of_forall₂ (hfs.imp fun _ _ h => h.sound)).bind fun f hf => .pure ?_
    obtain ⟨fs, hfs, hf⟩ := hf
    exact Item.resolvesTo_tree rfl hfs hf
  | .literal _ | .pattern _ | .fragment _ | .named _ | .deferred .. | .malformed _ =>
    exact leaf rfl

theorem Item.resolveAll_yields {seen : Bindings} (items : List Item)
    {groups : List (List Fragment)} (hl : Item.leavesOf seen items = some groups)
    (hs : ∀ f ∈ groups.flatten, f.Sound fine known) (wrap : Bool) :
    Yields (Workshop.Reports fine known) (Item.resolveAll seen wrap items) fun parts =>
      List.Forall₂ (Item.ResolvesTo fine known seen) items (parts.map Prod.fst) := by
  match items with
  | [] =>
    rw [Item.resolveAll]
    exact .pure .nil
  | item :: rest =>
    obtain ⟨leaves, others, hleaves, hothers, rfl⟩ := Item.leavesOf_cons hl
    rw [List.flatten_cons, List.forall_mem_append] at hs
    rw [Item.resolveAll]
    refine (Item.resolve_yields item hleaves hs.1 wrap).bind fun part hp => ?_
    exact (Item.resolveAll_yields rest hothers hs.2 wrap).bind fun parts hps =>
      .pure (.cons hp hps)
end

theorem Workshop.beginAssembly_archive (w : Workshop) : w.beginAssembly.archive = w.archive := by
  unfold beginAssembly
  split <;> rfl

theorem Workshop.beginAssembly_bindings (w : Workshop) :
    w.beginAssembly.bindings = w.bindings := by
  unfold beginAssembly
  split <;> rfl

theorem Work.assemble_ok {layout : Layout} {items : List Item} {w w' : Workshop} {f : Fragment}
    {groups : List (List Fragment)} (hl : Item.leavesOf w.bindings items = some groups)
    (hs : ∀ f ∈ groups.flatten, f.Sound fine known) (hw : w.archive.Reports fine known)
    (h : (Work.assemble layout items).run w = (.ok f, w')) :
    ∃ fs, List.Forall₂ (Item.ResolvesTo fine known w.bindings) items fs ∧
      Assembled fine { layout with wrap := layout.wrap || 1 < items.length }
        (fs.map Fragment.source) f := by
  have hrun : (Work.assemble layout items).run w =
      (Work.build layout items.length fun wrap => Item.resolveAll w.bindings wrap items).run
        w.beginAssembly := rfl
  have hbegin : w.beginAssembly.Reports fine known := by
    rw [Workshop.Reports, w.beginAssembly_archive]
    exact hw
  have hbuild : Yields (Workshop.Reports fine known)
      (Work.build layout items.length fun wrap => Item.resolveAll w.bindings wrap items) _ :=
    Work.build_yields (fun wrap => Item.resolveAll_yields items hl hs wrap) fun fs hfs =>
      forall_mem_of_forall₂ (hfs.imp fun _ _ h => h.sound)
  exact (hbuild _ hbegin).1 f (by rw [← hrun, h])

end Splice
