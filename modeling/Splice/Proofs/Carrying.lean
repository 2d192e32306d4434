import Splice.Proofs.Answers
import Splice.Proofs.Descent
import Splice.Proofs.Plans

/-!
# References carried into an assembly

An assembly records references if a part is tied to a direction, or if a member
that was itself assembled records references and needs no group around it. For
members with closed sources and honest records it also records them if there is
one in its source.
-/

namespace Splice

open Source

variable {α : Type} {fold wide wrap directed : Bool} {layout : Layout} {stance : Stance}
  {archive archive' : Archive} {f g : Fragment} {fs : List Fragment}

-- ---------------------------------------------------------------------------
-- What an assembly records
-- ---------------------------------------------------------------------------

theorem Numbered.hasReferences_toFragment (n : Numbered) :
    (n.toFragment layout stance directed).hasReferences = (directed || n.hasReferences) := rfl

theorem assemble_direction
    (h : (assemble fold stance layout directed fs).run archive = (.ok f, archive')) :
    f.direction = if f.hasReferences then stance.direction else .neutral := by
  obtain ⟨n, rfl, -⟩ := assemble_toFragment h
  rfl

theorem assemble_directed
    (h : (assemble fold stance layout directed fs).run archive = (.ok f, archive'))
    (hd : directed) : f.hasReferences := by
  obtain ⟨n, rfl, -⟩ := assemble_toFragment h
  rw [n.hasReferences_toFragment, hd, Bool.true_or]

-- ---------------------------------------------------------------------------
-- Members that were assembled
-- ---------------------------------------------------------------------------

/-- A composite that records references, and does not alternate where members
are wrapped. -/
structure Fragment.Referring (wrap : Bool) (f : Fragment) : Prop where
  hasReferences : f.hasReferences
  unasked : ∀ traits a, f.origin = .composite traits a → a.alternates = none
  flat : wrap → Closed f.source ∧ topBars f.source = 0

namespace Fragment

theorem origin_of_hasReferences (h : f.hasReferences) :
    ∃ traits a r, f.origin = .composite traits a ∧ a.references = some r ∧ r.present := by
  unfold hasReferences at h
  split at h
  · rename_i traits a ho
    obtain ⟨r, hr, hp⟩ := (Option.any_eq_true _ _).mp h
    exact ⟨traits, a, r, ho, hr, hp⟩
  · simp at h

theorem hasReferences_congr (h : g.origin = f.origin) : g.hasReferences = f.hasReferences := by
  rw [hasReferences, hasReferences, h]

theorem adapt_origin (h : f.adapt fold wide = .ok g) : g.origin = f.origin := by
  have he : (f.emulate fold).origin = f.origin := by
    unfold emulate
    split
    · simp only
      split <;> rfl
    · rfl
  unfold adapt at h
  simp only at h
  split at h
  · obtain ⟨-, rfl⟩ := promote_ok.mp h
    exact he
  · obtain rfl := Except.ok.inj h
    exact he

theorem Referring.adapt (h : f.Referring wrap) (hg : f.adapt fold wide = .ok g) :
    g.Referring wrap := by
  have ho := adapt_origin hg
  refine ⟨hasReferences_congr ho ▸ h.hasReferences, ho ▸ h.unasked, fun hw => ?_⟩
  obtain ⟨hclosed, hbars⟩ := h.flat hw
  have hpadded := (respelled_adapt hg).padded true
  have hg := hclosed.padded hpadded
  exact ⟨hg, by rw [← hg.bars true, hpadded.bars, hclosed.bars true, hbars]⟩

theorem Referring.protect (h : f.Referring true) (archive : Archive) :
    (f.protect archive).1.hasReferences := by
  obtain ⟨traits, a, r, ho, hr, hp⟩ := origin_of_hasReferences h.hasReferences
  have halternates : Source.alternates f.source = false := by
    rw [alternates_eq, (h.flat rfl).2]
    rfl
  have hget : a.get? .alternates = none := h.unasked traits a ho
  have hask : f.ask .alternates =
      pure (false, { f with origin := .composite traits (a.set .alternates false) }) := by
    simp only [ask, ho, Analysis.ask, hget, Property.compute, halternates]
  rw [Fragment.protect, hask]
  simp only [Analysis.set, pure_bind, Bool.false_eq_true, if_false]
  show a.references.any References.present
  simp [hr, hp]

theorem number_present {count : Word} {x : Piece × Nat × Bool}
    (h : (f.number count).run archive = (.ok x, archive')) (hf : f.hasReferences) : x.2.2 := by
  obtain ⟨traits, a, r, ho, hr, hp⟩ := origin_of_hasReferences hf
  have hask : f.ask .references = pure (r, f) := by
    have hget : a.get? .references = some r := hr
    have hsame : ({ f with origin := .composite traits a } : Fragment) = f := by
      rw [← ho]
    simp only [ask, ho, Analysis.ask, hget]
    rw [hsame]
  unfold number at h
  obtain ⟨⟨r', f'⟩, _, hasked, h⟩ := run_bind_ok h
  rw [hask] at hasked
  obtain ⟨rfl, rfl⟩ := Prod.mk.inj (Except.ok.inj (congrArg Prod.fst hasked))
  simp only [hp, if_true] at h
  obtain ⟨_, _, -, h⟩ := run_bind_ok h
  obtain ⟨_, _, -, h⟩ := run_bind_ok h
  rw [← Except.ok.inj (congrArg Prod.fst h)]

theorem numberAll_present {count : Word} {n : Numbered}
    (h : (numberAll count fs).run archive = (.ok n, archive')) (hg : g ∈ fs)
    (hr : g.hasReferences) : n.hasReferences := by
  induction fs generalizing count archive archive' n with
  | nil => simp at hg
  | cons f fs ih =>
    obtain ⟨x, _, hx, h⟩ := run_bind_ok h
    obtain ⟨behind, _, -, h⟩ := run_bind_ok h
    obtain ⟨others, _, hothers, h⟩ := run_bind_ok h
    rw [← Except.ok.inj (congrArg Prod.fst h)]
    obtain rfl | hg := List.mem_cons.mp hg
    · simp [number_present hx hr]
    · simp [ih hothers hg]

end Fragment

theorem exists_of_forall₂ {β : Type} {R : α → β → Prop} {l : List α} {r : List β}
    (h : List.Forall₂ R l r) {a : α} (ha : a ∈ l) : ∃ b ∈ r, R a b := by
  induction h with
  | nil => simp at ha
  | cons hab _ ih =>
    obtain rfl | ha := List.mem_cons.mp ha
    · exact ⟨_, List.mem_cons_self, hab⟩
    · obtain ⟨b, hb, hr⟩ := ih ha
      exact ⟨b, List.mem_cons_of_mem _ hb, hr⟩

theorem assemble_referring
    (h : (assemble fold stance layout directed fs).run archive = (.ok f, archive')) (hg : g ∈ fs)
    (hr : g.Referring (!layout.alternation && layout.wrap)) : f.hasReferences := by
  obtain ⟨gs, _, hadapt, h⟩ := run_bind_ok h
  obtain ⟨g, hg, hadapted⟩ := exists_of_forall₂ (mapM_ok (congrArg Prod.fst hadapt)) hg
  replace hr := hr.adapt hadapted
  simp only at h
  have numbered : ∀ {hs archive archive'}, (do
      let numbered ← Fragment.numberAll layout.offset hs
      return numbered.toFragment layout stance directed :
        ExceptT Error (StateM Archive) Fragment).run archive = (.ok f, archive') →
      ∀ g ∈ hs, g.hasReferences → f.hasReferences := by
    intro hs _ _ h g hg hr
    obtain ⟨n, _, hn, h⟩ := run_bind_ok h
    rw [← Except.ok.inj (congrArg Prod.fst h), n.hasReferences_toFragment,
      Fragment.numberAll_present hn hg hr, Bool.or_true]
  split at h
  · rename_i hw
    rw [hw] at hr
    obtain ⟨hs, _, hprotect, h⟩ := run_bind_ok h
    have hprotects : Yields (fun _ => True)
        (gs.mapM fun g => (g.protect : ExceptT Error (StateM Archive) Fragment))
        (List.Forall₂ (fun g h => g.Referring true → h.hasReferences) gs) :=
      .mapM fun g _ => .lift fun archive _ => ⟨fun hr => hr.protect archive, trivial⟩
    obtain ⟨g', hg', hkept⟩ := exists_of_forall₂
      ((hprotects _ trivial).1 hs (congrArg Prod.fst hprotect)) hg
    exact numbered h g' hg' (hkept hr)
  · obtain ⟨hs, _, hsame, h⟩ := run_bind_ok h
    obtain rfl : gs = hs := Except.ok.inj (congrArg Prod.fst hsame)
    exact numbered h g hg hr.hasReferences

-- ---------------------------------------------------------------------------
-- Members with honest records
-- ---------------------------------------------------------------------------

theorem references_final {s : Text} (h : (references s).present = false) :
    (references s).final = false := by
  rw [references, List.any_eq_false] at h
  rw [references, Option.any_eq_false_iff_get]
  exact fun hlast => by simpa using h _ (List.mem_of_getLast? (Option.some_get hlast).symm)

namespace Entry

theorem pieces_of_absent {es : List Entry} {count : Word} {n : Numbered}
    (h : ∀ e ∈ es, Closed e.source ∧ ((Source.references e.source).present → e.references.present))
    (hn : numberAll count es = .ok n) (hf : n.hasReferences = false) :
    ∀ p ∈ n.pieces, p.Fit true ∧ (Source.references p.source).present = false := by
  induction es generalizing count n with
  | nil =>
    obtain rfl := Except.ok.inj hn
    simp
  | cons e es ih =>
    rw [List.forall_mem_cons] at h
    obtain ⟨⟨hclosed, hpresent⟩, hes⟩ := h
    obtain ⟨source, behind, others, hsource, -, hothers, rfl⟩ := numberAll_cons_ok.mp hn
    rw [Bool.or_eq_false_iff] at hf
    have habsent : (Source.references e.source).present = false := by
      by_contra hactual
      have := hpresent (by simpa using hactual)
      simp [hf.1] at this
    rw [renumber_of_absent habsent] at hsource
    obtain rfl := Except.ok.inj hsource
    refine List.forall_mem_cons.mpr ⟨⟨⟨hclosed, fun _ => ?_, fun _ hfinal => ?_⟩, habsent⟩,
      ih hes hothers hf.2⟩
    · refine MarkerFree.clear (markerFree_iff.mpr fun x hx => ?_)
      rw [references_present, List.any_eq_false] at habsent
      have := habsent x hx
      cases x <;> simp_all [Event.isReference, Event.isDeferred]
    · simp [references_final habsent] at hfinal

end Entry

theorem plan_present {ledger : Ledger} {ms : List Member} (h : ∀ m ∈ ms, m.Ready ledger)
    (hf : plan fold stance layout directed ms = .ok f) (hr : (references f.source).present) :
    f.hasReferences := by
  obtain ⟨es, hes, n, hn, rfl⟩ := plan_ok.mp hf
  have hentries : ∀ e ∈ es, Closed e.source ∧
      ((Source.references e.source).present → e.references.present) := by
    refine Member.forall_entries hes (fun m hm m' hadapt => ?_) fun e he => ?_
    · exact ⟨((h m hm).adapted hadapt).closed, ((h m hm).adapted hadapt).present⟩
    · unfold Entry.protect
      split
      · rename_i ha
        exact ⟨he.1.grouped ha, id⟩
      · exact he
  by_contra hnone
  rw [n.hasReferences_toFragment, Bool.not_eq_true, Bool.or_eq_false_iff] at hnone
  have hpieces := Entry.pieces_of_absent hentries hn hnone.2
  have hfit : ∀ p ∈ n.pieces, p.Fit true := fun p hp => (hpieces p hp).1
  obtain ⟨p, hp, hpresent⟩ := (Piece.joined_join hfit layout.alternation).present hfit hr
  simp [(hpieces p hp).2] at hpresent

end Splice
