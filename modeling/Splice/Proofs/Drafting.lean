import Splice.Proofs.Plans
import Splice.Proofs.Strands

/-!
# What an assembly comes to in a whole that is not wide

An assembly of items succeeds if its leaves are heard one behind the other and
the strands of its items can be joined, and its result says no more than that.
-/

namespace Splice

open Source

variable {α β γ δ : Type} {fold : Bool} {ledger : Ledger} {report : Fragment → References}
  {seen : Bindings}

-- ---------------------------------------------------------------------------
-- Acts with a draft
-- ---------------------------------------------------------------------------

namespace Work

/-- A run that fails where its draft is empty. Otherwise it answers what is
drafted, up to `R`, and changes nothing but the stance and the archive, whose
known records still answer as expected. -/
inductive Comes (ledger : Ledger) (R : α → β → Prop) (w : Workshop) :
    Except Failure α × Workshop → Option (β × Stance) → Prop
  | fails (e : Failure) (after : Workshop) : Comes ledger R w (.error e, after) none
  | ends {a : α} {b : β} {s : Stance} {archive : Archive} (answer : R a b)
      (narrow : s.agreement.wide = false) (attests : archive.Attests ledger) :
      Comes ledger R w (.ok a, { w with stance := s, archive := archive }) (some (b, s))

theorem Comes.elsewhere {R : α → β → Prop} {w : Workshop} {stance : Stance} {archive : Archive}
    {r : Except Failure α × Workshop} {draft : Option (β × Stance)}
    (h : Comes ledger R { w with stance := stance, archive := archive } r draft) :
    Comes ledger R w r draft := by
  cases h with
  | fails e after => exact .fails e after
  | ends answer narrow attests => exact .ends answer narrow attests

/-- An act that comes to a draft, which depends on the stance only, in a whole
that is not wide. -/
def Drafts (fold : Bool) (ledger : Ledger) (act : Work α) (R : α → β → Prop)
    (draft : Stance → Option (β × Stance)) : Prop :=
  ∀ w : Workshop, w.fold = fold → w.stance.agreement.wide = false → w.archive.Attests ledger →
    Comes ledger R w (act.run w) (draft w.stance)

namespace Drafts

variable {act : Work α} {next : α → Work γ} {R : α → β → Prop} {T : γ → δ → Prop}
  {draft draft' : Stance → Option (β × Stance)}

theorem pure {a : α} {b : β} (h : R a b) :
    Drafts fold ledger (pure a) R fun s => some (b, s) := fun _ _ hn hw => .ends h hn hw

theorem bind {k : β → Stance → Option (δ × Stance)} (h : Drafts fold ledger act R draft)
    (hn : ∀ a b, R a b → Drafts fold ledger (next a) T (k b)) :
    Drafts fold ledger (act >>= next) T fun s => (draft s).bind fun x => k x.1 x.2 := by
  intro w hfold hnarrow hw
  have hact := h w hfold hnarrow hw
  rw [run_bind]
  show Comes ledger T w _ ((draft w.stance).bind fun x => k x.1 x.2)
  revert hact
  generalize act.run w = r, draft w.stance = d
  rintro (⟨e, after⟩ | @⟨a, b, s, archive, hab, hnarrow, hw⟩)
  · exact .fails e after
  · exact (hn a b hab { w with stance := s, archive := archive } hfold hnarrow hw).elsewhere

theorem mono {S : α → δ → Prop} {g : β → δ} (h : Drafts fold ledger act R draft)
    (hs : ∀ a b, R a b → S a (g b)) :
    Drafts fold ledger act S fun s => (draft s).map fun x => (g x.1, x.2) := by
  intro w hfold hnarrow hw
  have hact := h w hfold hnarrow hw
  show Comes ledger S w _ ((draft w.stance).map _)
  revert hact
  generalize act.run w = r, draft w.stance = d
  rintro (⟨e, after⟩ | ⟨hab, hnarrow, hw⟩)
  · exact .fails e after
  · exact .ends (hs _ _ hab) hnarrow hw

theorem congr (h : Drafts fold ledger act R draft) (hd : ∀ s, draft s = draft' s) :
    Drafts fold ledger act R draft' := (funext hd : draft = draft') ▸ h

end Drafts

end Work

-- ---------------------------------------------------------------------------
-- Admission
-- ---------------------------------------------------------------------------

theorem Fragment.heard_origin (fold : Bool) {f g : Fragment} (h : f.origin = g.origin) :
    (∀ s, f.heard fold s = g.heard fold s) ∧ f.tied = g.tied := by
  obtain ⟨source, origin⟩ := f
  obtain ⟨source', origin'⟩ := g
  obtain rfl : origin = origin' := h
  exact ⟨fun _ => rfl, rfl⟩

theorem Fragment.heard_literal (fold : Bool) {f : Fragment} (h : f.origin = .literal) (s : Stance) :
    f.heard fold s = some s ∧ f.tied = false := by
  have hdirection : f.direction = .neutral := by simp [direction, traits?, h]
  have hdemand : f.demand = ⟨none, none, false⟩ := by simp [demand, h]
  simp [heard, tied, hdirection, hdemand, Direction.opposes, Agreement.heard_nothing]

theorem Work.onStance_comes {f g : Fragment} {act : Stance → Except Error Bool × Stance}
    {w : Workshop} (ho : g.origin = f.origin) (hf : f.demand.wide = false)
    (hnarrow : w.stance.agreement.wide = false) (hw : w.archive.Attests ledger)
    (h : (∃ t, g.heard fold w.stance = some t ∧ act w.stance = (.ok g.tied, t)) ∨
      g.heard fold w.stance = none ∧ ∃ e t, act w.stance = (.error e, t)) :
    Comes ledger Eq w ((onStance act).run w) ((f.heard fold w.stance).map (f.tied, ·)) := by
  obtain ⟨hheard, htied⟩ := Fragment.heard_origin fold ho
  have hrun : (onStance act).run w =
      ((act w.stance).1.mapError Failure.ofError, { w with stance := (act w.stance).2 }) := rfl
  rw [hheard, htied] at h
  rw [hrun]
  obtain ⟨t, ht, hact⟩ | ⟨hnone, e, t, hact⟩ := h
  · rw [ht, hact]
    exact .ends rfl (Fragment.heard_narrow ht hf hnarrow) hw
  · rw [hnone, hact]
    exact .fails _ _

theorem Work.admitFragment_drafts (f : Fragment) (hf : f.demand.wide = false) :
    Drafts fold ledger (admitFragment f) (fun part _ => part = (f, f.tied)) fun s =>
      (f.heard fold s).map ((), ·) := by
  rintro w rfl hnarrow hw
  have answered : ∀ act : Work Bool,
      Comes ledger Eq w (act.run w) ((f.heard w.fold w.stance).map (f.tied, ·)) →
      Comes ledger (fun part _ => part = (f, f.tied)) w
        ((act >>= fun directed => Pure.pure (f, directed) : Work Part).run w)
        ((f.heard w.fold w.stance).map ((), ·)) := by
    intro act
    rw [run_bind]
    generalize act.run w = r
    cases f.heard w.fold w.stance with
    | none =>
      rintro ⟨e, after⟩
      exact .fails e after
    | some t =>
      rintro (_ | ⟨rfl, hnarrow, hw⟩)
      exact .ends rfl hnarrow hw
  show Comes ledger _ w _ ((f.heard w.fold w.stance).map ((), ·))
  unfold admitFragment
  cases ho : f.origin with
  | native p =>
    exact answered _ (onStance_comes ho.symm hf hnarrow hw (Fragment.admitPattern_cases p _))
  | literal =>
    obtain ⟨hheard, htied⟩ := Fragment.heard_literal w.fold ho w.stance
    rw [hheard, htied]
    exact .ends rfl hnarrow hw
  | composite traits a =>
    exact answered _ (onStance_comes ho.symm hf hnarrow hw
      (Fragment.admitComposite_cases f.source traits a _))

-- ---------------------------------------------------------------------------
-- Parts and what they are drawn as
-- ---------------------------------------------------------------------------

structure Part.Drawn (fold : Bool) (ledger : Ledger) (part : Part) (x : Strand) : Prop where
  directed : part.2 = x.directed
  source : (part.1.emulate fold).source = x.entry.source
  sure : Member.Sure ledger ⟨part.1, x.entry.references⟩

variable {parts : List Part} {xs : List Strand} {n : Numbered} {layout : Layout} {stance : Stance}

theorem Part.members (h : List.Forall₂ (Drawn fold ledger) parts xs) :
    ∃ ms ms' : List Member, ms.map Member.fragment = parts.map Prod.fst ∧
      (∀ m ∈ ms, m.Sure ledger) ∧ ms.mapM (Member.adapt fold false) = .ok ms' ∧
      ms'.map Member.entry = xs.map Strand.entry := by
  induction h with
  | nil => exact ⟨[], [], rfl, by simp, rfl, rfl⟩
  | @cons part x parts xs hx _ ih =>
    obtain ⟨ms, ms', hfragments, hsure, hadapt, hentries⟩ := ih
    have hfirst : Member.adapt fold false ⟨part.1, x.entry.references⟩ =
        .ok ⟨part.1.emulate fold, x.entry.references⟩ := rfl
    refine ⟨⟨part.1, x.entry.references⟩ :: ms, ⟨part.1.emulate fold, x.entry.references⟩ :: ms',
      congrArg _ hfragments, List.forall_mem_cons.mpr ⟨hx.sure, hsure⟩, ?_, ?_⟩
    · rw [List.mapM_cons, hfirst, hadapt]
      rfl
    · rw [List.map_cons, List.map_cons, hentries, Member.entry, hx.source]

theorem Part.any_directed (h : List.Forall₂ (Drawn fold ledger) parts xs) :
    parts.any Prod.snd = xs.any Strand.directed := by
  induction h with
  | nil => rfl
  | cons hx _ ih => rw [List.any_cons, List.any_cons, ih, hx.directed]

theorem Part.assemble_settles (layout : Layout) (h : List.Forall₂ (Drawn fold ledger) parts xs)
    (ha : layout.alternation = false) (hn : stance.agreement.wide = false) :
    ∃ plan, Settles (Archive.Attests ledger)
      (assemble fold stance layout (parts.any Prod.snd) (parts.map Prod.fst)) Eq plan ∧
      plan.toOption = (Strand.numbered layout.wrap layout.offset xs).map
        (·.toFragment layout stance (xs.any Strand.directed)) := by
  obtain ⟨ms, ms', hfragments, hsure, hadapt, hentries⟩ := members h
  have hready : ∀ m ∈ ms, m.Ready ledger := fun m hm => (hsure m hm).toReady
  refine
    ⟨_, hfragments ▸ Splice.assemble_settles hready fold stance layout (parts.any Prod.snd), ?_⟩
  have hshown : (if layout.wrap then (ms'.map Member.entry).map Entry.protect
      else ms'.map Member.entry) = xs.map fun x => x.entry.shown layout.wrap := by
    rw [hentries]
    cases layout.wrap <;> simp [Entry.shown]
  rw [plan, hn, hadapt, any_directed h, Strand.numbered, ← hshown]
  simp only [ha, Bool.not_false, Bool.true_and, bind, Except.bind, pure, Except.pure]
  cases Entry.numberAll layout.offset (if layout.wrap then (ms'.map Member.entry).map Entry.protect
    else ms'.map Member.entry) <;> rfl

theorem Part.drawn_joined (h : Entry.Fits n) (ha : layout.alternation = false) (directed : Bool) :
    Drawn fold ledger (n.toFragment layout stance directed, false) ⟨n.entry directed, false⟩ := by
  have hmovable := h.entry directed
  have hsource : (n.toFragment layout stance directed).source = Piece.sequence n.pieces := by
    simp [Numbered.toFragment, Fragment.composite, Piece.join, ha]
  have hcovers : (n.entry directed).references.Covers
      (Source.references (n.toFragment layout stance directed).source) := by
    rw [hsource]
    exact hmovable.covers
  refine ⟨rfl, hsource, ⟨?_, hcovers.1, ?_, ?_, ?_⟩, hcovers.2⟩
  · show Closed (n.toFragment layout stance directed).source
    rw [hsource]
    exact hmovable.closed
  · show n.captures = captureCount (Piece.join layout.alternation n.pieces)
    rw [ha]
    exact (Entry.captureCount_join h false).symm
  · exact rfl
  · have hnone : (if layout.alternation && 1 < n.pieces.length then some true else none) =
        (none : Option Bool) := by simp [ha]
    show Option.getD (if layout.alternation && 1 < n.pieces.length then some true else none) _ = _
    rw [hnone]
    rfl

-- ---------------------------------------------------------------------------
-- Assemblies
-- ---------------------------------------------------------------------------

def Strand.built (layout : Layout) (stance : Stance) (xs : List Strand) :
    Option (Fragment × Strand) :=
  (numbered layout.wrap layout.offset xs).map fun n =>
    (n.toFragment layout stance (xs.any directed), ⟨n.entry (xs.any directed), false⟩)

theorem Work.build_drafts {layout : Layout} {count : Nat} {resolve : Bool → Work (List Part)}
    {heard : Stance → Option Stance} {xs? : Option (List Strand)}
    (ha : layout.alternation = false) (hfirm : ∀ xs, xs? = some xs → ∀ x ∈ xs, x.entry.Firm)
    (h : Drafts fold ledger (resolve (layout.wrap || 1 < count))
      (List.Forall₂ (Part.Drawn fold ledger))
      fun s => (heard s).bind fun t => xs?.map (·, t)) :
    Drafts fold ledger (build layout count resolve)
      (fun f x => f = x.1 ∧ Part.Drawn fold ledger (f, false) x.2)
      fun s => (heard s).bind fun t => (xs?.bind
        (Strand.built { layout with wrap := layout.wrap || 1 < count } t)).map (·, t) := by
  intro w hfold hnarrow hw
  have hparts : Comes ledger _ w _ ((heard w.stance).bind fun t => xs?.map (·, t)) :=
    h w hfold hnarrow hw
  rw [build, run_bind]
  show Comes ledger _ w _ ((heard w.stance).bind _)
  revert hparts
  generalize (resolve (layout.wrap || 1 < count)).run w = r
  cases hheard : heard w.stance with
  | none =>
    rintro ⟨e, after⟩
    exact .fails e after
  | some t =>
    cases hxs : xs? with
    | none =>
      rintro ⟨e, after⟩
      exact .fails e after
    | some xs =>
      rintro (_ | @⟨parts, _, _, archive, hdrawn, hnarrow, hw⟩)
      obtain ⟨plan, hsettles, hplan⟩ := Part.assemble_settles
        { layout with wrap := layout.wrap || 1 < count } hdrawn ha hnarrow
      obtain ⟨houtcome, harchive⟩ := hsettles archive hw
      subst hfold
      show Comes ledger _ w (((Splice.assemble w.fold t
        { layout with wrap := layout.wrap || 1 < count } (parts.any Prod.snd)
        (parts.map Prod.fst)).run archive).1.mapError Failure.ofError, _)
        ((Strand.built _ t xs).map (·, t))
      rw [houtcome.eq, Strand.built]
      cases plan with
      | error e =>
        rw [Option.map_eq_none_iff.mp hplan.symm]
        exact .fails _ _
      | ok f =>
        obtain ⟨n, hn, rfl⟩ := Option.map_eq_some_iff.mp hplan.symm
        rw [hn]
        exact .ends
          ⟨rfl, Part.drawn_joined (Strand.firms_of_numbered (hfirm xs hxs) hn).toFits ha _⟩
          hnarrow harchive

-- ---------------------------------------------------------------------------
-- Items
-- ---------------------------------------------------------------------------

/-- A leaf that can be moved and joined, in a whole that is not wide. -/
structure Fragment.Ready (fold : Bool) (ledger : Ledger) (report : Fragment → References)
    (f : Fragment) : Prop where
  narrow : f.demand.wide = false
  sure : Member.Sure ledger ⟨f, report f⟩
  firm : (f.strand fold report).entry.Firm

namespace Item

mutual
theorem resolve_drafts {leaves : List Fragment} (item : Item) (hl : item.leaves seen = some leaves)
    (hf : ∀ f ∈ leaves, f.Ready fold ledger report) (wrap : Bool) :
    Work.Drafts fold ledger (item.resolve seen wrap) (Part.Drawn fold ledger) fun s =>
      (Fragment.heardAll fold s leaves).bind fun t =>
        (item.strand fold report seen wrap).map (·, t) := by
  have leaf : item.isTree = false →
      Work.Drafts fold ledger (item.resolve seen wrap) (Part.Drawn fold ledger) fun s =>
        (Fragment.heardAll fold s leaves).bind fun t =>
          (item.strand fold report seen wrap).map (·, t) := by
    intro ht
    obtain ⟨f, rfl, hresolve⟩ := resolve_leaf ht hl wrap
    have hready := hf f (by simp)
    rw [hresolve, strand_leaf ht hl]
    refine ((Work.admitFragment_drafts f hready.narrow).mono
      (g := fun _ => f.strand fold report) ?_).congr fun s => ?_
    · rintro _ - rfl
      exact ⟨rfl, rfl, hready.sure⟩
    · rw [Fragment.heardAll_cons]
      cases f.heard fold s <;> rfl
  match item with
  | .tree items =>
    obtain ⟨groups, hgroups, rfl⟩ := Option.map_eq_some_iff.mp hl
    have hfirm : ∀ xs, strands fold report seen (wrap || 1 < items.length) items = some xs →
        ∀ x ∈ xs, x.entry.Firm := fun xs hxs =>
      firm_strands items hgroups (fun f hmem => (hf f hmem).firm) hxs
    have hbuild : Work.Drafts fold ledger (Work.build ⟨false, wrap, 0⟩ items.length
        fun wrap => resolveAll seen wrap items) _ _ :=
      Work.build_drafts rfl hfirm (resolveAll_drafts items hgroups hf (wrap || 1 < items.length))
    rw [Item.resolve]
    refine (hbuild.bind (k := fun x t => some (x.2, t)) ?_).congr fun s => ?_
    · rintro f x ⟨-, hdrawn⟩
      exact .pure hdrawn
    · rw [strand_tree]
      cases Fragment.heardAll fold s groups.flatten with
      | none => rfl
      | some t =>
        cases strands fold report seen (wrap || 1 < items.length) items with
        | none => rfl
        | some xs =>
          cases h : Strand.numbered (wrap || 1 < items.length) 0 xs <;>
            simp [Strand.built, Strand.joined, h]
  | .literal _ | .pattern _ | .fragment _ | .named _ | .deferred .. | .malformed _ =>
    exact leaf rfl

theorem resolveAll_drafts {groups : List (List Fragment)} (items : List Item)
    (hl : leavesOf seen items = some groups)
    (hf : ∀ f ∈ groups.flatten, f.Ready fold ledger report) (wrap : Bool) :
    Work.Drafts fold ledger (resolveAll seen wrap items)
      (List.Forall₂ (Part.Drawn fold ledger)) fun s =>
        (Fragment.heardAll fold s groups.flatten).bind fun t =>
          (strands fold report seen wrap items).map (·, t) := by
  match items with
  | [] =>
    rw [Item.resolveAll]
    obtain rfl := Option.some.inj hl
    exact .pure .nil
  | item :: rest =>
    obtain ⟨leaves, others, hleaves, hothers, rfl⟩ := leavesOf_cons hl
    rw [List.flatten_cons, List.forall_mem_append] at hf
    rw [Item.resolveAll]
    refine ((resolve_drafts item hleaves hf.1 wrap).bind fun part x hx =>
      (resolveAll_drafts rest hothers hf.2 wrap).bind
        (k := fun xs t => some (x :: xs, t)) fun parts xs hxs => .pure (.cons hx hxs)).congr
      fun s => ?_
    rw [List.flatten_cons, Fragment.heardAll_append, strands]
    cases Fragment.heardAll fold s leaves with
    | none => rfl
    | some t =>
      cases item.strand fold report seen wrap with
      | none => cases h : Fragment.heardAll fold t others.flatten <;> simp [h]
      | some x =>
        cases h : Fragment.heardAll fold t others.flatten with
        | none => simp [h]
        | some u => cases hs : strands fold report seen wrap rest <;> simp [h]
end

end Item

def Strand.composed (wrap : Bool) (layout : Layout) (stance : Stance) (xs : List Strand) :
    Option Fragment :=
  (numbered wrap layout.offset xs).map (·.toFragment layout stance (xs.any directed))

def Item.outcome (fold : Bool) (report : Fragment → References) (seen : Bindings) (layout : Layout)
    (items : List Item) (leaves : List Fragment) (s : Stance) : Option Fragment :=
  let wrap := layout.wrap || 1 < items.length
  (Fragment.heardAll fold s leaves).bind fun t =>
    (Item.strands fold report seen wrap items).bind (Strand.composed wrap layout t)

theorem Workshop.beginAssembly_fold (w : Workshop) : w.beginAssembly.fold = w.fold := by
  unfold beginAssembly
  split <;> rfl

theorem Workshop.beginAssembly_narrow {w : Workshop} (h : w.stance.agreement.wide = false) :
    w.beginAssembly.stance.agreement.wide = false := by
  unfold beginAssembly
  split
  · rfl
  · exact h

theorem Work.assemble_comes (layout : Layout) (w : Workshop) {items : List Item}
    {leaves : List Fragment} (ha : layout.alternation = false)
    (hl : (Item.tree items).leaves w.bindings = some leaves)
    (hf : ∀ f ∈ leaves, f.Ready w.fold ledger report) (hnarrow : w.stance.agreement.wide = false)
    (hw : w.archive.Attests ledger) :
    ∃ draft, Comes ledger Eq w ((Work.assemble layout items).run w) draft ∧ draft.map Prod.fst =
      Item.outcome w.fold report w.bindings layout items leaves w.beginAssembly.stance := by
  obtain ⟨groups, hgroups, rfl⟩ := Option.map_eq_some_iff.mp hl
  have hfirm : ∀ xs, Item.strands w.fold report w.bindings (layout.wrap || 1 < items.length) items =
      some xs → ∀ x ∈ xs, x.entry.Firm := fun xs hxs =>
    Item.firm_strands items hgroups (fun f hmem => (hf f hmem).firm) hxs
  have hbuild : Drafts w.fold ledger (build layout items.length fun wrap =>
      Item.resolveAll w.bindings wrap items) _ _ :=
    build_drafts ha hfirm (Item.resolveAll_drafts items hgroups hf _)
  have hcomes := (hbuild.mono (S := Eq) (g := Prod.fst) fun _ _ h => h.1) w.beginAssembly
    w.beginAssembly_fold (Workshop.beginAssembly_narrow hnarrow) (w.beginAssembly_archive ▸ hw)
  have helsewhere : ∀ {r} {draft : Option (Fragment × Stance)},
      Comes ledger Eq w.beginAssembly r draft → Comes ledger Eq w r draft := by
    intro r draft h
    unfold Workshop.beginAssembly at h
    split at h
    · have hreset : Comes ledger Eq
          { w with stance := w.stance.reset, archive := w.archive } r draft := h
      exact hreset.elsewhere
    · exact h
  refine ⟨_, helsewhere hcomes, ?_⟩
  show Option.map Prod.fst (Option.map _ (Option.bind _ _)) = _
  unfold Item.outcome
  cases Fragment.heardAll w.fold w.beginAssembly.stance groups.flatten with
  | none => rfl
  | some t =>
    simp only [Option.bind_some, Option.map_map]
    cases Item.strands w.fold report w.bindings (layout.wrap || 1 < items.length) items with
    | none => rfl
    | some xs => simp [Strand.built, Strand.composed, Function.comp_def, Numbered.toFragment]

end Splice
