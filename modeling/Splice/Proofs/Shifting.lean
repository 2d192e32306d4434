import Splice.Proofs.Drafting
import Splice.Proofs.Targeting

/-!
# Assemblies behind groups

Assembling behind some groups is assembling behind none and moving what comes of
it, as long as a word counts the groups. The flags, the record and the outcome of
every tree are the same, since only the outermost assembly looks at the groups
before it.
-/

namespace Splice

open Source

variable {ledger : Ledger} {fold directed : Bool} {stance : Stance} {layout : Layout}
  {offset : Word} {u : Text} {ms : List Member}

-- ---------------------------------------------------------------------------
-- Alternatives
-- ---------------------------------------------------------------------------

namespace Piece

variable {pieces : List Piece}

end Piece

-- ---------------------------------------------------------------------------
-- Numbered pieces
-- ---------------------------------------------------------------------------

def Fragment.moved (offset : Word) (f : Fragment) : Option Fragment :=
  (renumber f.source offset).toOption.map fun source => { f with source := source }

namespace Entry

variable {es : List Entry} {n : Numbered}

end Entry

-- ---------------------------------------------------------------------------
-- Members
-- ---------------------------------------------------------------------------

structure Member.Apt (ledger : Ledger) (m : Member) : Prop extends m.Sure ledger where
  markerFree : MarkerFree m.fragment.source

def Fragment.Apt (ledger : Ledger) (f : Fragment) : Prop := ∃ r, Member.Apt ledger ⟨f, r⟩

theorem Fragment.exists_members {fs : List Fragment} (h : ∀ f ∈ fs, f.Apt ledger) :
    ∃ ms : List Member, ms.map Member.fragment = fs ∧ ∀ m ∈ ms, m.Apt ledger := by
  induction fs with
  | nil => exact ⟨[], rfl, by simp⟩
  | cons f fs ih =>
    rw [List.forall_mem_cons] at h
    obtain ⟨⟨r, hr⟩, hfs⟩ := h
    obtain ⟨ms, rfl, hms⟩ := ih hfs
    exact ⟨⟨f, r⟩ :: ms, rfl, List.forall_mem_cons.mpr ⟨hr, hms⟩⟩

namespace Member

theorem Apt.entry {m : Member} (h : m.Apt ledger) : m.entry.Movable :=
  ⟨h.closed, h.markerFree, h.covers⟩

theorem Apt.adapted {wide : Bool} {m m' : Member} (h : m.Apt ledger)
    (hm : m.adapt fold wide = .ok m') : m'.Apt ledger := by
  refine ⟨h.toSure.adapted hm, ?_⟩
  obtain ⟨g, hg, rfl⟩ := adapt_ok.mp hm
  exact h.markerFree.padded h.closed ((Fragment.respelled_adapt hg).padded true)

theorem movable_entries {es : List Entry} (h : ∀ m ∈ ms, m.Apt ledger)
    (he : entries fold stance layout ms = .ok es) : ∀ e ∈ es, e.Movable :=
  forall_entries he (fun m hm _ hadapt => ((h m hm).adapted hadapt).entry)
    fun _ he => he.protect.1

end Member

-- ---------------------------------------------------------------------------
-- Plans
-- ---------------------------------------------------------------------------

theorem plan_numbered {f : Fragment} (h : ∀ m ∈ ms, m.Apt ledger)
    (hf : plan fold stance layout directed ms = .ok f) :
    ∃ es, Member.entries fold stance layout ms = .ok es ∧ (∀ e ∈ es, e.Movable) ∧
      ∃ n, Entry.numberAll layout.offset es = .ok n ∧ Entry.Fits n ∧
        n.toFragment layout stance directed = f ∧ captureCount f.source = n.captures := by
  obtain ⟨es, hes, n, hn, rfl⟩ := plan_ok.mp hf
  have hmovable := Member.movable_entries h hes
  have hfits := Entry.fits_of_numberAll hmovable hn
  exact ⟨es, hes, hmovable, n, hn, hfits, rfl, Entry.captureCount_join hfits layout.alternation⟩

theorem apt_of_plan {f : Fragment} (ha : layout.alternation = false)
    (h : ∀ m ∈ ms, m.Apt ledger) (hf : plan fold stance layout directed ms = .ok f) :
    f.Apt ledger := by
  obtain ⟨-, -, -, n, -, hfits, rfl, -⟩ := plan_numbered h hf
  have hdrawn : Part.Drawn fold ledger (n.toFragment layout stance directed, false) _ :=
    Part.drawn_joined hfits ha directed
  refine ⟨_, hdrawn.sure, ?_⟩
  rw [show (n.toFragment layout stance directed).source = _ from hdrawn.source]
  exact (hfits.entry directed).markerFree

-- ---------------------------------------------------------------------------
-- Items
-- ---------------------------------------------------------------------------

def Workshop.Attests (ledger : Ledger) (w : Workshop) : Prop := w.archive.Attests ledger

theorem Work.build_apt {count : Nat} {resolve : Bool → Work (List Part)}
    (ha : layout.alternation = false)
    (h : Yields (Workshop.Attests ledger) (resolve (layout.wrap || 1 < count))
      fun parts => ∀ part ∈ parts, part.1.Apt ledger) :
    Yields (Workshop.Attests ledger) (build layout count resolve) (Fragment.Apt ledger) := by
  refine h.bind fun parts hparts => get_yields.bind fun w _ => ?_
  obtain ⟨ms, hms, hapt⟩ := Fragment.exists_members (List.forall_mem_map.mpr hparts)
  have hsettles := assemble_settles (fun m hm => (hapt m hm).toReady) w.fold w.stance
    { layout with wrap := layout.wrap || 1 < count } (parts.any Prod.snd)
  rw [hms] at hsettles
  have hassemble : Yields (Archive.Attests ledger) _ (Fragment.Apt ledger) :=
    Keeps.mono hsettles fun outcome ho f hf => apt_of_plan (by exact ha) hapt (ho.eq.symm.trans hf)
  exact fun after hafter => ⟨fun f hf => (hassemble _ hafter).1 f (mapError_ok.mp hf),
    (hassemble _ hafter).2⟩

mutual
theorem Item.resolve_apt {seen : Bindings} (item : Item) {leaves : List Fragment}
    (hl : item.leaves seen = some leaves) (hf : ∀ f ∈ leaves, f.Apt ledger) (wrap : Bool) :
    Yields (Workshop.Attests ledger) (item.resolve seen wrap) fun part => part.1.Apt ledger := by
  have leaf : item.isTree = false → Yields (Workshop.Attests ledger) (item.resolve seen wrap)
      fun part => part.1.Apt ledger := by
    intro ht
    obtain ⟨f, rfl, hresolve⟩ := Item.resolve_leaf ht hl wrap
    rw [hresolve]
    refine (Work.admitFragment_yields (fun _ _ h => h) f).mono ?_
    rintro part rfl
    exact hf _ (by simp)
  match item with
  | .tree items =>
    obtain ⟨groups, hgroups, rfl⟩ := Option.map_eq_some_iff.mp hl
    rw [Item.resolve]
    exact (Work.build_apt rfl (Item.resolveAll_apt items hgroups hf _)).bind fun _ hf => .pure hf
  | .literal _ | .pattern _ | .fragment _ | .named _ | .deferred .. | .malformed _ =>
    exact leaf rfl

theorem Item.resolveAll_apt {seen : Bindings} (items : List Item) {groups : List (List Fragment)}
    (hl : Item.leavesOf seen items = some groups) (hf : ∀ f ∈ groups.flatten, f.Apt ledger)
    (wrap : Bool) : Yields (Workshop.Attests ledger) (Item.resolveAll seen wrap items)
      fun parts => ∀ part ∈ parts, part.1.Apt ledger := by
  match items with
  | [] =>
    rw [Item.resolveAll]
    exact .pure (by simp)
  | item :: rest =>
    obtain ⟨leaves, others, hleaves, hothers, rfl⟩ := Item.leavesOf_cons hl
    rw [List.flatten_cons, List.forall_mem_append] at hf
    rw [Item.resolveAll]
    refine (Item.resolve_apt item hleaves hf.1 wrap).bind fun part hp => ?_
    exact (Item.resolveAll_apt rest hothers hf.2 wrap).bind fun parts hps =>
      .pure (List.forall_mem_cons.mpr ⟨hp, hps⟩)
end

-- ---------------------------------------------------------------------------
-- Assemblies
-- ---------------------------------------------------------------------------

namespace Work

variable {w : Workshop} {items : List Item} {leaves : List Fragment}

end Work

end Splice
