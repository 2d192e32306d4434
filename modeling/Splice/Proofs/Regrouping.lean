import Splice.Proofs.Drafting

/-!
# Sequences can be regrouped

Items of a sequence can be put into a tree, or assembled beforehand in a scope
of their own, and the sequence comes to the same. Only what is recorded of
references can differ, where a single alternating leaf is assembled beforehand.
-/

namespace Splice

open Source

variable {fold wrap : Bool} {report : Fragment → References} {seen : Bindings} {ledger : Ledger}
  {layout : Layout} {k : Nat}

-- ---------------------------------------------------------------------------
-- Composites
-- ---------------------------------------------------------------------------

namespace Numbered

variable {n m : Numbered} {stance : Stance} {directed directed' : Bool}

theorem toFragment_congr (ha : layout.alternation = false)
    (hs : Piece.sequence m.pieces = Piece.sequence n.pieces)
    (hf : Piece.lastEndsInReference m.pieces = Piece.lastEndsInReference n.pieces)
    (hc : m.captures = n.captures)
    (hr : (directed' || m.hasReferences) = (directed || n.hasReferences)) :
    m.toFragment layout stance directed' = n.toFragment layout stance directed := by
  simp [toFragment, Piece.join, ha, hs, hf, hc, hr]

theorem Regroups.toFragment (h : Regroups directed n m) (ha : layout.alternation = false)
    (before after : Bool) : m.toFragment layout stance (before || after) =
      n.toFragment layout stance (before || (directed || after)) := by
  refine toFragment_congr ha h.source h.final h.captures ?_
  rw [h.hasReferences]
  cases before <;> cases after <;> cases directed <;> rfl

end Numbered

def Fragment.unreferenced (f : Fragment) : Fragment :=
  match f.origin with
  | .composite traits a =>
    .composite f.source traits
      { a with references := a.references.map ({ · with present := false }) }
  | _ => f

theorem Numbered.unreferenced_toFragment {stance : Stance} (h : stance.direction = .neutral)
    (n : Numbered) (present present' : Bool) :
    ({ n with hasReferences := present }.toFragment layout stance false).unreferenced =
      ({ n with hasReferences := present' }.toFragment layout stance false).unreferenced := by
  simp [toFragment, Fragment.unreferenced, Fragment.composite, h]

/-- A leaf whose record claims references only if it holds some or is tied to a direction. -/
def Fragment.Earned (report : Fragment → References) (f : Fragment) : Prop :=
  (report f).present → f.tied ∨ (references f.source).present

/-- A leaf that alternates and is tied to a direction, but holds no reference. -/
def Fragment.Forgetful (f : Fragment) : Prop :=
  alternates f.source ∧ f.tied ∧ (references f.source).present = false

namespace Strand

variable {x y z : Strand} {xs ys zs : List Strand} {stance : Stance} {inner : Bool}

theorem composed_joined (ha : layout.alternation = false) (hys : ∀ y ∈ ys, y.entry.Firm)
    (hw : wrap → inner)
    (hxs : xs.map (fun x => x.entry.shown wrap) = xs.map fun x => x.entry.shown inner)
    (hzs : zs.map (fun x => x.entry.shown wrap) = zs.map fun x => x.entry.shown inner) :
    ((joined inner ys).bind fun y => composed wrap layout stance (xs ++ y :: zs)) =
      composed inner layout stance (xs ++ (ys ++ zs)) := by
  have hjoined : ∀ y, joined inner ys = some y → y.entry.shown wrap = y.entry := fun y hy =>
    Entry.shown_eq_self fun h => alternates_joined hys (hw h) hy
  have hfirm := firm_shown hys inner
  ext f
  simp only [composed, Option.bind_eq_some_iff, Option.map_eq_some_iff, numbered_eq_some,
    List.map_append, List.map_cons, hxs, hzs, List.any_append, List.any_cons]
  constructor
  · rintro ⟨y, hy, m, hm, rfl⟩
    rw [hjoined y hy] at hm
    obtain ⟨c, hc, rfl⟩ := Option.map_eq_some_iff.mp hy
    obtain ⟨n, hn, hregroups⟩ := Entry.numberAll_ungroup hfirm (numbered_eq_some.mp hc) hm
    exact ⟨n, hn, by rw [Bool.false_or]; exact (hregroups.toFragment ha _ _).symm⟩
  · rintro ⟨n, hn, rfl⟩
    obtain ⟨c, m, hc, hm, hregroups⟩ := Entry.numberAll_regroup (d := ys.any directed) hfirm hn
    have hy : joined inner ys = some ⟨c.entry (ys.any directed), false⟩ := by
      rw [joined, numbered_eq_some.mpr hc]
      rfl
    refine ⟨_, hy, m, ?_, ?_⟩
    · rwa [hjoined _ hy]
    · rw [Bool.false_or]
      exact hregroups.toFragment ha _ _

/-- Whether a strand counts as holding references. -/
def counts (wrap : Bool) (x : Strand) : Bool :=
  x.directed || (x.entry.shown wrap).references.present

theorem composed_replaced (ha : layout.alternation = false)
    (hs : (z.entry.shown wrap).source = (x.entry.shown wrap).source)
    (hf : (z.entry.shown wrap).references.final = (x.entry.shown wrap).references.final) :
    Option.Rel (fun f g => ∃ (n : Numbered) (others : Bool),
        f = { n with hasReferences := z.counts wrap || others }.toFragment layout stance false ∧
        g = { n with hasReferences := x.counts wrap || others }.toFragment layout stance false)
      (composed wrap layout stance (xs ++ z :: ys))
      (composed wrap layout stance (xs ++ x :: ys)) := by
  have shown : ∀ y : Strand, (xs ++ y :: ys).map (fun y => y.entry.shown wrap) =
      xs.map (fun y => y.entry.shown wrap) ++ y.entry.shown wrap ::
        ys.map fun y => y.entry.shown wrap := by simp
  cases hx : numbered wrap layout.offset (xs ++ x :: ys) with
  | none =>
    cases hz : numbered wrap layout.offset (xs ++ z :: ys) with
    | none =>
      rw [composed, composed, hx, hz]
      exact .none
    | some m =>
      rw [numbered_eq_some, shown] at hz
      obtain ⟨others, -, hn⟩ := Entry.numberAll_replaced hs.symm hf.symm hz
      rw [← shown, ← numbered_eq_some, hx] at hn
      cases hn
  | some n =>
    have hn := hx
    rw [numbered_eq_some, shown] at hn
    obtain ⟨others, hothers, hz⟩ := Entry.numberAll_replaced hs hf hn
    rw [← shown, ← numbered_eq_some] at hz
    rw [composed, composed, hx, hz]
    refine .some ⟨n, xs.any directed || ys.any directed || others, ?_, ?_⟩
    · refine Numbered.toFragment_congr ha rfl rfl rfl ?_
      simp [counts, Bool.or_assoc, Bool.or_left_comm]
    · refine Numbered.toFragment_congr ha rfl rfl rfl ?_
      simp [counts, hothers, Bool.or_assoc, Bool.or_left_comm]

theorem composed_alike {lost : Prop} (ha : layout.alternation = false)
    (hs : (z.entry.shown wrap).source = (x.entry.shown wrap).source)
    (hf : (z.entry.shown wrap).references.final = (x.entry.shown wrap).references.final)
    (hc : z.counts wrap = x.counts wrap ∨ lost) (hn : lost → stance.direction = .neutral) :
    Option.Rel (fun f g => f.unreferenced = g.unreferenced ∧ (f = g ∨ lost))
      (composed wrap layout stance (xs ++ z :: ys))
      (composed wrap layout stance (xs ++ x :: ys)) := by
  have hreplaced : Option.Rel _ (composed wrap layout stance (xs ++ z :: ys))
      (composed wrap layout stance (xs ++ x :: ys)) := composed_replaced ha hs hf
  generalize composed wrap layout stance (xs ++ z :: ys) = f,
    composed wrap layout stance (xs ++ x :: ys) = g at hreplaced ⊢
  cases hreplaced with
  | none => exact .none
  | some h =>
    obtain ⟨n, others, rfl, rfl⟩ := h
    refine .some ?_
    obtain hc | hlost := hc
    · rw [hc]
      exact ⟨rfl, .inl rfl⟩
    · exact ⟨Numbered.unreferenced_toFragment (hn hlost) n _ _, .inr hlost⟩

end Strand

-- ---------------------------------------------------------------------------
-- Trees in a sequence
-- ---------------------------------------------------------------------------

namespace Item

variable {A B C : List Item} {leaves : List Fragment} {s : Stance} {inner : Bool}

theorem strands_insert (A B : List Item) (item : Item) :
    strands fold report seen wrap (A ++ item :: B) =
      (strands fold report seen wrap A).bind fun xs =>
        (item.strand fold report seen wrap).bind fun x =>
          (strands fold report seen wrap B).map fun ys => xs ++ x :: ys := by
  ext zs
  simp only [strands_append_eq_some, strands_cons_eq_some, Option.bind_eq_some_iff,
    Option.map_eq_some_iff]
  constructor
  · rintro ⟨xs, _, hxs, ⟨x, ys, hx, hys, rfl⟩, rfl⟩
    exact ⟨xs, hxs, x, hx, ys, hys, rfl⟩
  · rintro ⟨xs, hxs, x, hx, ys, hys, rfl⟩
    exact ⟨xs, _, hxs, ⟨x, ys, hx, hys, rfl⟩, rfl⟩

theorem strands_append (A B : List Item) : strands fold report seen wrap (A ++ B) =
    (strands fold report seen wrap A).bind fun xs =>
      (strands fold report seen wrap B).map (xs ++ ·) := by
  ext zs
  simp only [strands_append_eq_some, Option.bind_eq_some_iff, Option.map_eq_some_iff]
  constructor
  · rintro ⟨xs, ys, hxs, hys, rfl⟩
    exact ⟨xs, hxs, ys, hys, rfl⟩
  · rintro ⟨xs, hxs, ys, hys, rfl⟩
    exact ⟨xs, ys, hxs, hys, rfl⟩

/-- Where it matters how the items beside a tree are wrapped, there are none. -/
theorem strands_beside (h : wrap = inner ∨ A = []) :
    strands fold report seen wrap A = strands fold report seen inner A ∧
      ∀ xs, strands fold report seen inner A = some xs →
        xs.map (fun x => x.entry.shown wrap) = xs.map fun x => x.entry.shown inner := by
  obtain rfl | rfl := h
  · exact ⟨rfl, fun _ _ => rfl⟩
  · refine ⟨rfl, fun xs hxs => ?_⟩
    obtain rfl := Option.some.inj hxs
    rfl

theorem wrap_tree (w : Bool) {a b c : Nat} (hc : 0 < c) :
    ((w || decide (1 < a + (b + 1))) || decide (1 < c)) = (w || decide (1 < a + (c + b))) ∧
      ((w || decide (1 < a + (b + 1))) = (w || decide (1 < a + (c + b))) ∨ a = 0 ∧ b = 0) := by
  cases w with
  | true => simp
  | false =>
    simp only [Bool.false_or, ← Bool.decide_or, decide_eq_decide]
    omega

theorem outcome_tree {groups : List (List Fragment)} (ha : layout.alternation = false)
    (hC : C ≠ []) (hl : leavesOf seen C = some groups)
    (hf : ∀ f ∈ groups.flatten, (f.strand fold report).entry.Firm) :
    outcome fold report seen layout (A ++ .tree C :: B) leaves s =
      outcome fold report seen layout (A ++ (C ++ B)) leaves s := by
  have hflags := wrap_tree layout.wrap (List.length_pos_iff.mpr hC) (a := A.length) (b := B.length)
  unfold outcome
  refine congrArg (Option.bind _) (funext fun t => ?_)
  simp only [List.length_append, List.length_cons]
  generalize (layout.wrap || decide (1 < A.length + (B.length + 1))) = wrap at hflags ⊢
  generalize (layout.wrap || decide (1 < A.length + (C.length + B.length))) = inner at hflags ⊢
  obtain ⟨rfl, hside⟩ := hflags
  obtain ⟨hA, hB⟩ : (wrap = (wrap || decide (1 < C.length)) ∨ A = []) ∧
      (wrap = (wrap || decide (1 < C.length)) ∨ B = []) := by
    simpa only [List.length_eq_zero_iff, or_and_left] using hside
  rw [strands_insert, strands_append, strands_append, strand_tree,
    (strands_beside hA).1, (strands_beside hB).1]
  generalize hinner : (wrap || decide (1 < C.length)) = inner at hA hB ⊢
  cases hxs : strands fold report seen inner A with
  | none => rfl
  | some xs =>
    cases hys : strands fold report seen inner C with
    | none => rfl
    | some ys =>
      have hfirm := firm_strands C hl hf hys
      cases hzs : strands fold report seen inner B with
      | none => cases Strand.joined inner ys <;> simp
      | some zs =>
        have hle : wrap → inner := fun h => by simp [← hinner, h]
        simp only [Option.map_some, Option.bind_some]
        rw [← Strand.composed_joined ha hfirm hle ((strands_beside hA).2 xs hxs)
          ((strands_beside hB).2 zs hzs)]
        cases Strand.joined inner ys <;> simp

-- ---------------------------------------------------------------------------
-- Fragments in place of trees
-- ---------------------------------------------------------------------------

theorem outcome_insert (A B : List Item) (item : Item) :
    outcome fold report seen layout (A ++ item :: B) leaves s =
      let wrap := layout.wrap || decide (1 < A.length + (B.length + 1))
      (Fragment.heardAll fold s leaves).bind fun t =>
        (strands fold report seen wrap A).bind fun xs =>
          (item.strand fold report seen wrap).bind fun x =>
            (strands fold report seen wrap B).bind fun ys =>
              Strand.composed wrap layout t (xs ++ x :: ys) := by
  unfold outcome
  simp only [List.length_append, List.length_cons, strands_insert, Option.bind_assoc,
    Option.bind_map, Function.comp_def]

/-- A tree and the fragment that comes of its items count alike as holding
references, unless the fragment is wrapped and its record lost. -/
theorem Looser.counts {x y : Strand} {inner : List Fragment} (h : Looser report inner x y)
    (hy : y.directed = false) (hclosed : Closed y.entry.source)
    (hf : ∀ f ∈ inner, Closed f.source ∧ f.Earned report) (bound : Bool) :
    (⟨y.entry, bound && y.entry.references.present⟩ : Strand).counts true = x.counts true ∨
      bound = false ∧ alternates y.entry.source ∧ ∃ f ∈ inner, f.Forgetful := by
  cases ha : alternates y.entry.source with
  | false =>
    left
    have hpresent := h.present ha
    simp only [hy, Bool.false_or] at hpresent
    simp [Strand.counts, Entry.shown, Entry.protect_eq_self ha, hpresent]
  | true =>
    obtain ⟨f, rfl, hpadded, hrecord, hgroup⟩ := h.leaf ha
    obtain ⟨hc, hearned⟩ := hf f (by simp)
    have halternates : alternates f.source = alternates y.entry.source :=
      hc.agrees_alternates hpadded
    have hreferences : references f.source = references y.entry.source :=
      hc.agrees_references hpadded rfl
    rw [hy, Bool.false_or] at hrecord
    rw [← hreferences] at hgroup
    rw [Fragment.Earned] at hearned
    have hcounts : (⟨y.entry, bound && y.entry.references.present⟩ : Strand).counts true =
        (bound && (f.tied || (report f).present) || (references f.source).present) := by
      simp only [Strand.counts, Entry.shown, if_true, Entry.protect_of_alternates ha,
        hclosed.present_grouped ha, hrecord, hreferences]
    have hx : x.counts true = (f.tied || (references f.source).present) := hgroup
    rw [hcounts, hx]
    by_cases hforgetful : bound = false ∧ f.tied ∧ (references f.source).present = false
    · exact .inr ⟨hforgetful.1, rfl, f, by simp, halternates.trans ha, hforgetful.2⟩
    · left
      revert hforgetful hearned
      cases bound <;> cases f.tied <;> cases (report f).present <;>
        cases (references f.source).present <;> simp

theorem looser_tree {groups : List (List Fragment)} (hl : leavesOf seen C = some groups)
    (hf : ∀ f ∈ groups.flatten, Closed f.source ∧ (f.strand fold report).entry.Firm) :
    Option.Rel (fun x y => if wrap then Looser report groups.flatten x y else x = y)
      ((Item.tree C).strand fold report seen wrap)
      ((Item.tree C).strand fold report seen false) := by
  have hleaves : (Item.tree C).leaves seen = some groups.flatten := by rw [leaves, hl]; rfl
  cases wrap with
  | true => exact looser_strand (.tree C) hleaves hf
  | false =>
    cases (Item.tree C).strand fold report seen false with
    | none => exact .none
    | some x => exact .some rfl

theorem tied_toFragment (n : Numbered) (s : Stance) (directed : Bool) :
    (n.toFragment layout s directed).tied =
      (s.direction != .neutral && (n.entry directed).references.present) := by
  have hdirection : (n.toFragment layout s directed).direction =
      if directed || n.hasReferences then s.direction else .neutral := rfl
  rw [Fragment.tied, hdirection]
  show _ = (s.direction != .neutral && (directed || n.hasReferences))
  cases directed || n.hasReferences <;> simp

def Reported (report : Fragment → References) : Prop :=
  ∀ (n : Numbered) (layout : Layout) (s : Stance) (directed : Bool),
    report (n.toFragment layout s directed) = (n.entry directed).references

theorem outcome_alone {groups : List (List Fragment)} {t : Stance}
    (ht : Fragment.heardAll fold s leaves = some t) (hl : leavesOf seen C = some groups)
    (hf : ∀ f ∈ groups.flatten, (f.strand fold report).entry.Firm) :
    Option.Rel (fun f y => ∃ (n : Numbered) (directed : Bool), Entry.Firms n ∧
        f = n.toFragment ⟨false, false, 0⟩ t directed ∧ y = ⟨n.entry directed, false⟩ ∧
        (1 < C.length → alternates y.entry.source = false))
      (outcome fold report seen ⟨false, false, 0⟩ C leaves s)
      ((Item.tree C).strand fold report seen false) := by
  rw [outcome, ht, Option.bind_some, strand_tree]
  simp only [Bool.false_or]
  cases hxs : strands fold report seen (decide (1 < C.length)) C with
  | none => exact .none
  | some xs =>
    have hfirm := firm_strands C hl hf hxs
    rw [Option.bind_some, Option.bind_some]
    cases hn : Strand.numbered (decide (1 < C.length)) 0 xs with
    | none =>
      rw [Strand.composed, Strand.joined, hn]
      exact .none
    | some n =>
      have hjoined : Strand.joined (decide (1 < C.length)) xs =
          some ⟨n.entry (xs.any Strand.directed), false⟩ := by rw [Strand.joined, hn]; rfl
      rw [Strand.composed, hn, hjoined]
      exact .some ⟨n, _, Strand.firms_of_numbered hfirm hn, rfl, rfl, fun h =>
        Strand.alternates_joined hfirm (decide_eq_true h) hjoined⟩

theorem replaces_tree {x y : Strand} {inner : List Fragment}
    (h : if wrap then Looser report inner x y else x = y) (hy : y.directed = false)
    (hclosed : Closed y.entry.source) (hf : ∀ f ∈ inner, Closed f.source ∧ f.Earned report)
    (bound : Bool) :
    (y.entry.shown wrap).source = (x.entry.shown wrap).source ∧
      (y.entry.shown wrap).references.final = (x.entry.shown wrap).references.final ∧
      ((⟨y.entry, bound && y.entry.references.present⟩ : Strand).counts wrap = x.counts wrap ∨
        wrap ∧ bound = false ∧ alternates y.entry.source ∧ ∃ f ∈ inner, f.Forgetful) := by
  cases wrap with
  | false =>
    obtain rfl : x = y := h
    refine ⟨rfl, rfl, .inl ?_⟩
    simp [Strand.counts, Entry.shown, hy]
  | true =>
    have h : Looser report inner x y := h
    exact ⟨h.source, h.final, (h.counts hy hclosed hf bound).imp_right fun hr => ⟨rfl, hr⟩⟩

theorem strand_toFragment (hr : Reported report) (n : Numbered) (t : Stance) (directed : Bool) :
    (n.toFragment ⟨false, false, 0⟩ t directed).strand fold report =
      ⟨n.entry directed,
        t.direction != .neutral && (n.entry directed).references.present⟩ := by
  rw [Fragment.strand, hr, tied_toFragment]
  rfl

theorem heardAll_toFragment {n : Numbered} {t : Stance} {directed : Bool} {leaves : List Fragment}
    (ht : Fragment.heardAll fold s.reset leaves = some t) (before after : List Fragment) :
    Fragment.heardAll fold s (before ++ n.toFragment ⟨false, false, 0⟩ t directed :: after) =
      Fragment.heardAll fold s (before ++ (leaves ++ after)) := by
  refine Fragment.heardAll_standing ht rfl ?_ before after
  have hg : (n.toFragment ⟨false, false, 0⟩ t directed).direction =
      if directed || n.hasReferences then t.direction else .neutral := rfl
  rw [hg, Fragment.heardAll_direction ht]
  split
  · exact .inr rfl
  · exact .inl rfl

/-- Where a fragment is put in place of the tree of its items, nothing changes but
whether the whole counts as holding references. Nor does that where nothing is
wrapped, in a stance with a direction, or for more than one item. -/
theorem outcome_staged (layout : Layout) {groups : List (List Fragment)}
    (ha : layout.alternation = false)
    (hC : C ≠ []) (hr : Reported report) (hl : leavesOf seen C = some groups)
    (hf : ∀ f ∈ groups.flatten, Closed f.source ∧ (f.strand fold report).entry.Firm ∧
      f.Earned report) (before after : List Fragment) :
    Option.Rel (fun f g => f.unreferenced = g.unreferenced ∧
        (f = g ∨ (layout.wrap || decide (1 < A.length + (B.length + 1))) ∧
          s.direction = .neutral ∧ C.length = 1 ∧ ∃ f ∈ groups.flatten, f.Forgetful))
      ((outcome fold report seen ⟨false, false, 0⟩ C groups.flatten s.reset).bind fun f =>
        outcome fold report seen layout (A ++ .fragment f :: B) (before ++ f :: after) s)
      (outcome fold report seen layout (A ++ .tree C :: B)
        (before ++ (groups.flatten ++ after)) s) := by
  rw [outcome_insert]
  simp only [outcome_insert]
  generalize (layout.wrap || decide (1 < A.length + (B.length + 1))) = wrap
  have hrel : Option.Rel _ ((Item.tree C).strand fold report seen wrap) _ :=
    looser_tree hl fun f hmem => ⟨(hf f hmem).1, (hf f hmem).2.1⟩
  cases ht : Fragment.heardAll fold s.reset groups.flatten with
  | none =>
    rw [outcome, ht, Fragment.heardAll_eq_none ht]
    exact .none
  | some t =>
    have halone := outcome_alone ht hl fun f hmem => (hf f hmem).2.1
    generalize outcome fold report seen ⟨false, false, 0⟩ C groups.flatten s.reset = staged,
      (Item.tree C).strand fold report seen false = y,
      (Item.tree C).strand fold report seen wrap = x at halone hrel ⊢
    cases halone with
    | none =>
      cases hrel
      cases Fragment.heardAll fold s (before ++ (groups.flatten ++ after)) with
      | none => exact .none
      | some u => cases strands fold report seen wrap A <;> exact .none
    | some h =>
      cases hrel with
      | some hxy =>
        obtain ⟨n, directed, hn, rfl, rfl, hmany⟩ := h
        have hdirection : t.direction = s.reset.direction := Fragment.heardAll_direction ht
        replace hdirection : t.direction = s.direction := hdirection
        rw [Option.bind_some, heardAll_toFragment ht, strand_leaf rfl rfl, strand_toFragment hr]
        obtain ⟨hs, hfinal, hcounts⟩ := replaces_tree hxy rfl (hn.entry directed).closed
          (fun f hmem => ⟨(hf f hmem).1, (hf f hmem).2.2⟩) (t.direction != .neutral)
        cases hu : Fragment.heardAll fold s (before ++ (groups.flatten ++ after)) with
        | none => exact .none
        | some u =>
          cases strands fold report seen wrap A with
          | none => exact .none
          | some xs =>
            cases strands fold report seen wrap B with
            | none => exact .none
            | some ys =>
              refine Strand.composed_alike ha hs hfinal (hcounts.imp_right ?_) ?_
              · rintro ⟨hwrap, hneutral, halternates, hforgetful⟩
                have hone : ¬ 1 < C.length := fun h => by simp [hmany h] at halternates
                have hpos := List.length_pos_iff.mpr hC
                rw [← hdirection]
                exact ⟨hwrap, by simpa using hneutral, by omega, hforgetful⟩
              · rintro ⟨-, hneutral, -⟩
                exact (Fragment.heardAll_direction hu).trans hneutral

theorem ready_outcome {groups : List (List Fragment)} {f : Fragment} (hr : Reported report)
    (hl : leavesOf seen C = some groups) (hf : ∀ f ∈ groups.flatten, f.Ready fold ledger report)
    (hs : s.agreement.wide = false)
    (h : outcome fold report seen ⟨false, false, 0⟩ C groups.flatten s = some f) :
    f.Ready fold ledger report := by
  cases ht : Fragment.heardAll fold s groups.flatten with
  | none => simp [outcome, ht] at h
  | some t =>
    have halone := outcome_alone ht hl fun f hmem => (hf f hmem).firm
    rw [h] at halone
    generalize (Item.tree C).strand fold report seen false = y at halone
    cases halone with
    | some h =>
      obtain ⟨n, directed, hn, rfl, -, -⟩ := h
      have hdrawn : Part.Drawn fold ledger (n.toFragment ⟨false, false, 0⟩ t directed, false) _ :=
        Part.drawn_joined hn.toFits rfl directed
      have hentry : ((n.toFragment ⟨false, false, 0⟩ t directed).strand fold report).entry =
          n.entry directed := by
        rw [Fragment.strand, hr]
        rfl
      refine ⟨Fragment.heardAll_narrow ht (fun f hmem => (hf f hmem).narrow) hs, ?_, ?_⟩
      · rw [hr]
        exact hdrawn.sure
      · rw [hentry]
        exact hn.entry directed

end Item

-- ---------------------------------------------------------------------------
-- Leaves
-- ---------------------------------------------------------------------------

/-- What the record of a fragment says about references, or else its source. -/
def Fragment.reported (archive : Archive) (f : Fragment) : References :=
  (f.member archive).references

theorem Fragment.reported_toFragment (archive : Archive) : Item.Reported (reported archive) :=
  fun _ _ _ _ => rfl

/-- A leaf without markers whose record agrees with it, in a whole that is not
wide. A record may claim references for a leaf that holds none only if it is
tied to a direction, and never that one ends an empty source. -/
structure Fragment.Portable (archive : Archive) (f : Fragment) : Prop where
  proper : f.Proper (fun s => Closed s ∧ MarkerFree s) archive
  narrow : f.demand.wide = false
  earned : f.Earned (reported archive)
  final : f.source = [] → (f.reported archive).final = false

theorem Fragment.Portable.ready {archive : Archive} {f : Fragment} {fs : List Fragment}
    (h : f.Portable archive) (hs : Sharing fs) (hf : f ∈ fs) :
    Closed f.source ∧ f.Ready fold (accounts archive fs) (reported archive) := by
  have hproper : f.Proper Closed archive := h.proper.mono fun _ => And.left
  have hsure : Member.Sure (accounts archive fs) ⟨f, f.reported archive⟩ := hproper.sure hs hf
  have hclosed : Closed f.source := hsure.closed
  have hpadded := (f.respelled_emulate fold).padded true
  have hemulated := hclosed.padded hpadded
  have hfree := (h.proper.markerFree fun _ => And.right).padded hclosed hpadded
  refine ⟨hclosed, h.narrow, hsure, ⟨hemulated, hfree, ?_⟩, fun hnil => h.final ?_⟩
  · show (f.reported archive).Covers (Source.references (f.emulate fold).source)
    rw [← hclosed.agrees_references hpadded rfl]
    exact hsure.covers
  · exact (f.emulate_eq_nil fold).mp hnil

end Splice
