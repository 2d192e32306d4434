import Splice.Proofs.Carrying
import Splice.Proofs.Transparency

/-!
# The parts of a run

No leaf that an assembly admits opposes its direction. A part is one of the
leaves, or it was put together from them; where they are closed and have honest
records, so is what was put together, and a reference in it is recorded.
-/

namespace Splice

open Source

variable {α : Type} {fold wrap directed : Bool} {layout : Layout} {stance : Stance}
  {seen : Bindings} {d : Descent} {w after : Workshop} {f : Fragment} {fs : List Fragment}
  {part : Part}

-- ---------------------------------------------------------------------------
-- Sites
-- ---------------------------------------------------------------------------

/-- A fragment that was put together from closed leaves in a tree whose members
are wrapped if they are to be. -/
structure Fragment.Joint (wrap : Bool) (f : Fragment) : Prop where
  assembled : ∃ layout sources, layout.alternation = false ∧ (wrap → layout.wrap) ∧
    Assembled false layout sources f
  unasked : ∀ traits a, f.origin = .composite traits a → a.alternates = none
  present : (references f.source).present → f.hasReferences

namespace Fragment

theorem Joint.sound {known : Catalogue} (h : f.Joint wrap) : f.Sound false known := by
  obtain ⟨_, _, -, -, h⟩ := h.assembled
  exact h.sound

theorem Joint.referring (h : f.Joint wrap) (hf : f.hasReferences) : f.Referring wrap := by
  refine ⟨hf, h.unasked, fun hw => ?_⟩
  obtain ⟨layout, _, ha, hl, h⟩ := h.assembled
  exact ⟨h.closed, h.sequence ha (hl hw)⟩

theorem Joint.ready (h : f.Joint wrap) (ledger : Ledger) (archive : Archive) :
    (f.member archive).Ready ledger := by
  obtain ⟨layout, sources, -, -, hassembled⟩ := h.assembled
  obtain ⟨traits, a, ho, ha, hcaptures⟩ := hassembled.recorded
  have hmember : (f.member archive).references =
      a.references.getD (Source.references f.source) := by
    rw [member, analysis, ho]
  have hattests : ∀ {α : Type} (p : Property α),
      a.Attests p f.source (a.references.getD (Source.references f.source)) →
        f.Attests ledger p (f.member archive).references := by
    intro α p hp
    rw [hmember]
    unfold Fragment.Attests
    rw [ho]
    exact hp
  refine ⟨hassembled.closed, fun hpresent => ?_, hattests _ ?_, hattests _ rfl, hattests _ ?_⟩
  · have hrecorded := h.present hpresent
    rw [hmember]
    rw [hasReferences, ho] at hrecorded
    cases hr : a.references with
    | none => exact hpresent
    | some r => simpa [hr] using hrecorded
  · show (a.captures).getD _ = _
    rw [hcaptures]
    rfl
  · show (a.alternates).getD _ = _
    cases hb : a.alternates with
    | none => rfl
    | some b => exact ha _ .alternates b hb

end Fragment

theorem Site.Closed.assembled {site : Site} {archive' : Archive} (hs : site.Closed)
    (hfs : ∀ f ∈ fs, f ∈ site.leaves ∨ ∃ wrap, f.Joint wrap)
    (h : (assemble fold stance layout directed fs).run site.archive = (.ok f, archive')) :
    Assembled false layout (fs.map Fragment.source) f ∧
      ((references f.source).present → f.hasReferences) := by
  constructor
  · have hsound : ∀ f ∈ fs, f.Sound false (Fragment.catalogue site.leaves) := by
      intro f hf
      obtain hf | ⟨wrap, hf⟩ := hfs f hf
      · exact (hs.proper f hf).sound (fun _ hc => ⟨hc, by simp⟩) hs.sharing hf
      · exact hf.sound
    exact (assemble_yields hsound fold stance directed _ (Fragment.catalogue_reports hs.proper)).1
      f (congrArg Prod.fst h)
  · let ledger := Fragment.accounts site.archive site.leaves
    have hready : ∀ m ∈ fs.map (Fragment.member site.archive), m.Ready ledger := by
      refine List.forall_mem_map.mpr fun f hf => ?_
      obtain hf | ⟨wrap, hf⟩ := hfs f hf
      · exact ((hs.proper f hf).sure hs.sharing hf).toReady
      · exact hf.ready ledger site.archive
    have hmembers : (fs.map (Fragment.member site.archive)).map Member.fragment = fs := by
      rw [List.map_map]
      exact List.map_id fs
    have hsettles := (assemble_settles hready fold stance layout directed _
      (Fragment.attests_of_proper hs.proper)).1
    rw [hmembers] at hsettles
    have hrun : assemble fold stance layout directed fs site.archive = (.ok f, archive') := h
    rw [show (assemble fold stance layout directed fs).run site.archive = _ from hrun] at hsettles
    cases hplan : plan fold stance layout directed (fs.map (Fragment.member site.archive)) with
    | error e =>
      rw [hplan] at hsettles
      cases hsettles
    | ok g =>
      rw [hplan] at hsettles
      cases hsettles with
      | ok heq =>
        subst heq
        exact plan_present hready hplan

-- ---------------------------------------------------------------------------
-- Leaves
-- ---------------------------------------------------------------------------

theorem Work.onStance_ok {act : Stance → Except Error α × Stance} {a : α}
    (h : (onStance act).run w = (.ok a, after)) : (act w.stance).1 = .ok a :=
  mapError_ok.mp (congrArg Prod.fst h)

theorem Work.admitFragment_ok (h : (admitFragment f).run w = (.ok part, after)) :
    part = (f, f.tied) ∧ f.direction.opposes w.stance.direction = false := by
  have unopposed : ∀ {t}, f.heard w.fold w.stance = some t →
      f.direction.opposes w.stance.direction = false := by
    intro t ht
    by_contra hopposes
    rw [Fragment.heard, if_pos (by simpa using hopposes)] at ht
    cases ht
  obtain ⟨source, origin⟩ := f
  cases origin with
  | native p =>
    have h : (do return (_, ← onStance (Stance.admitPattern w.fold p)) : Work Part).run w =
        (.ok part, after) := h
    obtain ⟨directed, _, hadmit, h⟩ := run_bind_ok h
    obtain rfl := Except.ok.inj (congrArg Prod.fst h)
    have hadmitted := onStance_ok hadmit
    obtain ⟨t, ht, hok⟩ | ⟨-, e, t, herror⟩ := @Fragment.admitPattern_cases w.fold p w.stance
    · rw [hok] at hadmitted
      exact ⟨congrArg _ (Except.ok.inj hadmitted).symm, unopposed ht⟩
    · rw [herror] at hadmitted
      cases hadmitted
  | literal =>
    obtain rfl := Except.ok.inj (congrArg Prod.fst h)
    exact ⟨rfl, rfl⟩
  | composite traits a =>
    have h : (do return (_, ← onStance (Stance.admitComposite w.fold source traits)) :
        Work Part).run w = (.ok part, after) := h
    obtain ⟨directed, _, hadmit, h⟩ := run_bind_ok h
    obtain rfl := Except.ok.inj (congrArg Prod.fst h)
    have hadmitted := onStance_ok hadmit
    obtain ⟨t, ht, hok⟩ | ⟨-, e, t, herror⟩ :=
      @Fragment.admitComposite_cases w.fold source traits a w.stance
    · rw [hok] at hadmitted
      exact ⟨congrArg _ (Except.ok.inj hadmitted).symm, unopposed ht⟩
    · rw [herror] at hadmitted
      cases hadmitted

theorem Work.awaitBuilder_stance {steps : List Step} {result : Item}
    (h : (awaitBuilder steps result).run w = (.ok seen, after)) : after.stance = w.stance := by
  rw [(awaitBuilder_ok h).1]
  rfl

theorem Work.steady_of_run {act : Work α} {outcome : Except Failure α}
    (h : Yields w.Steady act fun _ => True) (hrun : act.run w = (outcome, after)) :
    w.Steady after := by
  have hsteady := (h w (.refl w)).2
  rwa [hrun] at hsteady

theorem Item.resolve_direction {item : Item}
    (h : (item.resolve seen wrap).run w = (.ok part, after)) :
    after.stance.direction = w.stance.direction :=
  (Work.steady_of_run (item.steady seen wrap w) h).direction

mutual
theorem Item.unopposed (item : Item) {seen : Bindings} {wrap : Bool} {w after : Workshop}
    {part : Part} (h : (item.resolve seen wrap).run w = (.ok part, after)) (behind d : Descent) :
    ∀ f ∈ (item.trail seen behind wrap w d).leaves,
      f.direction.opposes w.stance.direction = false := by
  have leaf : ∀ {f lineage}, (Work.admitFragment f).run w = (.ok part, after) →
      ∀ g ∈ (Trail.leaf f lineage d).leaves, g.direction.opposes w.stance.direction = false := by
    intro f lineage h g hg
    obtain rfl := List.mem_singleton.mp hg
    exact (Work.admitFragment_ok h).2
  match item with
  | .literal t =>
    rw [Item.trail]
    intro f hf
    obtain rfl := List.mem_singleton.mp hf
    rfl
  | .pattern p =>
    rw [Item.trail]
    rw [Item.resolve] at h
    exact leaf h
  | .fragment f =>
    rw [Item.trail]
    rw [Item.resolve] at h
    exact leaf h
  | .named name =>
    rw [Item.trail]
    rw [Item.resolve] at h
    cases hv : seen.lookup name with
    | none => simp [Trail.still]
    | some value =>
      rw [hv] at h
      exact leaf h
  | .malformed field =>
    rw [Item.trail]
    simp [Trail.still]
  | .tree items =>
    have hrun := h
    rw [Item.resolve] at h
    obtain ⟨f, _, hbuild, -⟩ := run_bind_ok h
    obtain ⟨parts, _, _, hparts, -⟩ := Work.build_ok hbuild
    have hall := Item.unopposedAll items hparts behind d
    rw [Item.trail, Trail.credited_ok hrun, Trail.meeting_ok hparts]
    exact hall
  | .deferred steps result =>
    rw [Item.resolve_deferred] at h
    obtain ⟨seen, between, hbuilder, h⟩ := run_bind_ok h
    rw [Item.trail, Trail.andThen, Work.trailing_ok hbuilder]
    rw [← Work.awaitBuilder_stance hbuilder]
    cases hd : result.isDeferred with
    | true => simp [Trail.inward, Trail.still]
    | false =>
      rw [hd] at h
      exact Item.unopposed result h _ _

theorem Item.unopposedAll (items : List Item) {seen : Bindings} {wrap : Bool}
    {w after : Workshop} {parts : List Part}
    (h : (Item.resolveAll seen wrap items).run w = (.ok parts, after)) (behind d : Descent) :
    ∀ f ∈ (Item.trailAll seen behind wrap items w d).leaves,
      f.direction.opposes w.stance.direction = false := by
  match items with
  | [] =>
    rw [Item.trailAll]
    simp [Trail.still]
  | item :: rest =>
    rw [Item.resolveAll] at h
    obtain ⟨part, between, hpart, h⟩ := run_bind_ok h
    obtain ⟨others, _, hothers, -⟩ := run_bind_ok h
    rw [Item.trailAll, Trail.andThen, Work.trailing_ok hpart]
    refine List.forall_mem_append.mpr ⟨Item.unopposed item hpart behind d, ?_⟩
    rw [← Item.resolve_direction hpart]
    exact Item.unopposedAll rest hothers behind _
end

-- ---------------------------------------------------------------------------
-- Parts from closed leaves
-- ---------------------------------------------------------------------------

theorem Work.build_joint {count : Nat} {resolve : Bool → Work (List Part)}
    (h : (build ⟨false, wrap, 0⟩ count resolve).run w = (.ok f, after))
    (hparts : ∀ parts between, (resolve (wrap || 1 < count)).run w = (.ok parts, between) →
      ∃ leaves, Site.Closed ⟨between.archive, leaves⟩ ∧
        ∀ part ∈ parts, part.1 ∈ leaves ∨ ∃ wrap, part.1.Joint wrap) :
    f.Joint wrap := by
  obtain ⟨parts, between, archive, hresolve, hassemble, -⟩ := build_ok h
  obtain ⟨leaves, hsite, hall⟩ := hparts parts between hresolve
  obtain ⟨hassembled, hpresent⟩ := hsite.assembled (List.forall_mem_map.mpr hall) hassemble
  obtain ⟨n, rfl, -⟩ := assemble_toFragment hassemble
  refine ⟨⟨_, _, rfl, fun hw => by simp [hw], hassembled⟩, fun traits a ho => ?_, hpresent⟩
  obtain ⟨-, rfl⟩ := Origin.composite.inj ho
  rfl

mutual
theorem Item.joint (item : Item) {seen : Bindings} {wrap : Bool} {w after : Workshop}
    {part : Part} (h : (item.resolve seen wrap).run w = (.ok part, after)) {behind d : Descent}
    (hs : ∀ site ∈ (item.trail seen behind wrap w d).sites, site.Closed) :
    part.1 ∈ (item.trail seen behind wrap w d).leaves ∨ part.1.Joint wrap := by
  have leaf : ∀ {f lineage}, (Work.admitFragment f).run w = (.ok part, after) →
      part.1 ∈ (Trail.leaf f lineage d).leaves ∨ part.1.Joint wrap := by
    intro f lineage h
    rw [(Work.admitFragment_ok h).1]
    exact .inl (List.mem_singleton_self f)
  match item with
  | .literal t =>
    rw [Item.resolve] at h
    obtain rfl := Except.ok.inj (congrArg Prod.fst h)
    rw [Item.trail]
    exact .inl (List.mem_singleton_self _)
  | .pattern p =>
    rw [Item.trail]
    rw [Item.resolve] at h
    exact leaf h
  | .fragment f =>
    rw [Item.trail]
    rw [Item.resolve] at h
    exact leaf h
  | .named name =>
    rw [Item.trail]
    rw [Item.resolve] at h
    cases hv : seen.lookup name with
    | none =>
      rw [hv] at h
      cases congrArg Prod.fst h
    | some value =>
      rw [hv] at h
      exact leaf h
  | .malformed field =>
    rw [Item.resolve] at h
    cases congrArg Prod.fst h
  | .tree items =>
    have hrun := h
    rw [Item.resolve] at h
    obtain ⟨f, _, hbuild, h⟩ := run_bind_ok h
    obtain rfl := Except.ok.inj (congrArg Prod.fst h)
    refine .inr (Work.build_joint hbuild fun parts between hparts => ?_)
    rw [Item.trail, Trail.credited_ok hrun, Trail.meeting_ok hparts] at hs
    rw [List.forall_mem_append] at hs
    refine ⟨_, hs.2 _ (List.mem_singleton_self _), fun part hpart => ?_⟩
    exact (Item.jointAll items hparts hs.1 part hpart).imp_right fun hj => ⟨_, hj⟩
  | .deferred steps result =>
    rw [Item.resolve_deferred] at h
    obtain ⟨seen, between, hbuilder, h⟩ := run_bind_ok h
    rw [Item.trail, Trail.andThen, Work.trailing_ok hbuilder] at hs ⊢
    cases hd : result.isDeferred with
    | true =>
      rw [hd] at h
      cases congrArg Prod.fst h
    | false =>
      rw [hd] at h hs
      exact Item.joint result h (List.forall_mem_append.mp hs).2

theorem Item.jointAll (items : List Item) {seen : Bindings} {wrap : Bool} {w after : Workshop}
    {parts : List Part} (h : (Item.resolveAll seen wrap items).run w = (.ok parts, after))
    {behind d : Descent}
    (hs : ∀ site ∈ (Item.trailAll seen behind wrap items w d).sites, site.Closed) :
    ∀ part ∈ parts,
      part.1 ∈ (Item.trailAll seen behind wrap items w d).leaves ∨ part.1.Joint wrap := by
  match items with
  | [] =>
    rw [Item.resolveAll] at h
    obtain rfl := Except.ok.inj (congrArg Prod.fst h)
    simp
  | item :: rest =>
    rw [Item.resolveAll] at h
    obtain ⟨part, between, hpart, h⟩ := run_bind_ok h
    obtain ⟨others, _, hothers, h⟩ := run_bind_ok h
    obtain rfl := Except.ok.inj (congrArg Prod.fst h)
    rw [Item.trailAll, Trail.andThen, Work.trailing_ok hpart] at hs ⊢
    rw [List.forall_mem_append] at hs
    refine List.forall_mem_cons.mpr ⟨?_, fun other hother => ?_⟩
    · exact (Item.joint item hpart hs.1).imp_left (List.mem_append_left _)
    · exact (Item.jointAll rest hothers hs.2 other hother).imp_left (List.mem_append_right _)
end

end Splice
