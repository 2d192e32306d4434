import Splice.Proofs.Regrouping

/-!
# A part of a sequence assembled beforehand

Some items of a sequence can be put into a tree, or be assembled beforehand in
a scope of their own, in a whole that is not wide. Both ways the sequence
succeeds or fails as it does without, with the same source and the same record.

There is one exception, and it is about a single answer. A leaf that is tied to
a direction counts as holding references even if it holds none. Assembled by
itself while no direction is being built, it passes that on in its record only,
and a record does not survive the group that an alternation is wrapped in.
-/

namespace Splice

open Source

variable {α β : Type} {ledger : Ledger} {report : Fragment → References} {layout : Layout}
  {w : Workshop} {A B C : List Item}

-- ---------------------------------------------------------------------------
-- Scopes
-- ---------------------------------------------------------------------------

namespace Work

def isolated (act : Work α) : Work α := ExceptT.mk (Workshop.shielded .scope act.run)

theorem Comes.isolated {act : Work α} {R : α → β → Prop} {draft : Option (β × Stance)}
    (h : Comes ledger R w.enter.reset (act.run w.enter.reset) draft)
    (hn : w.stance.agreement.wide = false) :
    Comes ledger R w ((isolated act).run w) (draft.map fun x => (x.1, w.stance)) := by
  have hrun : (Work.isolated act).run w =
      ((act.run w.enter.reset).1, (act.run w.enter.reset).2.leave) := rfl
  rw [hrun]
  revert h
  generalize act.run w.enter.reset = r
  rintro (⟨e, after⟩ | ⟨answer, -, attests⟩)
  · exact .fails e _
  · exact .ends answer hn attests

theorem Comes.toOption {r : Except Failure α × Workshop} {draft : Option (α × Stance)}
    (h : Comes ledger Eq w r draft) : r.1.toOption = draft.map Prod.fst := by
  cases h with
  | fails e after => rfl
  | ends answer narrow attests => exact congrArg some answer

def stage (layout : Layout) (A C B : List Item) : Work Fragment := do
  let f ← isolated (assemble ⟨false, false, 0⟩ C)
  assemble layout (A ++ .fragment f :: B)

end Work

-- ---------------------------------------------------------------------------
-- Outcomes
-- ---------------------------------------------------------------------------

theorem Item.exists_leavesOf_append {seen : Bindings} {first second : List Item}
    {groups : List (List Fragment)} (h : leavesOf seen (first ++ second) = some groups) :
    ∃ gs hs, leavesOf seen first = some gs ∧ leavesOf seen second = some hs ∧
      groups = gs ++ hs := by
  induction first generalizing groups with
  | nil => exact ⟨[], groups, rfl, h, rfl⟩
  | cons item rest ih =>
    obtain ⟨leaves, others, hleaves, hothers, rfl⟩ := leavesOf_cons h
    obtain ⟨gs, hs, hgs, hhs, rfl⟩ := ih hothers
    exact ⟨leaves :: gs, hs, by rw [leavesOf, hleaves, hgs]; rfl, hhs, rfl⟩

theorem Item.leavesOf_insert {seen : Bindings} {item : Item} {leaves : List Fragment}
    {before after : List (List Fragment)} (hA : leavesOf seen A = some before)
    (hitem : item.leaves seen = some leaves) (hB : leavesOf seen B = some after) :
    (tree (A ++ item :: B)).leaves seen =
      some (before.flatten ++ (leaves ++ after.flatten)) := by
  have hrest : leavesOf seen (item :: B) = some (leaves :: after) := by
    rw [leavesOf, hitem, hB]
    rfl
  rw [Item.leaves, leavesOf_append hA hrest, Option.map_some, List.flatten_append,
    List.flatten_cons]

theorem Work.stage_comes {before inner after : List (List Fragment)}
    (ha : layout.alternation = false) (hr : Item.Reported report)
    (hA : Item.leavesOf w.bindings A = some before) (hC : Item.leavesOf w.bindings C = some inner)
    (hB : Item.leavesOf w.bindings B = some after)
    (hf : ∀ f ∈ before.flatten ++ (inner.flatten ++ after.flatten), f.Ready w.fold ledger report)
    (hnarrow : w.stance.agreement.wide = false) (hw : w.archive.Attests ledger) :
    ((stage layout A C B).run w).1.toOption =
      (Item.outcome w.fold report w.bindings ⟨false, false, 0⟩ C inner.flatten
        w.beginAssembly.stance.reset).bind fun f =>
          Item.outcome w.fold report w.bindings layout (A ++ .fragment f :: B)
            (before.flatten ++ f :: after.flatten) w.beginAssembly.stance := by
  rw [List.forall_mem_append, List.forall_mem_append] at hf
  obtain ⟨hfA, hfC, hfB⟩ := hf
  have hleavesC : (Item.tree C).leaves w.bindings = some inner.flatten := by
    rw [Item.leaves, hC]
    rfl
  have hreset : w.beginAssembly.stance.reset = w.stance.reset := by
    unfold Workshop.beginAssembly
    split <;> rfl
  obtain ⟨draft, hcomes, hdraft⟩ := assemble_comes ⟨false, false, 0⟩ w.enter.reset rfl
    hleavesC hfC rfl hw
  have hdraft : draft.map Prod.fst = Item.outcome w.fold report w.bindings ⟨false, false, 0⟩ C
      inner.flatten w.stance.reset := hdraft
  have hisolated := hcomes.isolated hnarrow
  rw [hreset, ← hdraft, stage, run_bind]
  revert hisolated
  generalize (isolated (assemble ⟨false, false, 0⟩ C)).run w = r
  cases draft with
  | none =>
    rintro ⟨e, later⟩
    rfl
  | some x =>
    obtain ⟨f, s⟩ := x
    rintro (_ | @⟨g, _, _, archive, rfl, -, hlater⟩)
    have hready : g.Ready w.fold ledger report :=
      Item.ready_outcome hr hC hfC rfl hdraft.symm
    have hleaves := Item.leavesOf_insert hA (show (Item.fragment g).leaves w.bindings = some [g]
      from rfl) hB
    obtain ⟨last, hlast, hvalue⟩ := assemble_comes layout { w with archive := archive } ha
      hleaves (by
        rw [List.forall_mem_append, List.forall_mem_append]
        exact ⟨hfA, by simpa using hready, hfB⟩) hnarrow hlater
    have hbegin : Workshop.beginAssembly { w with archive := archive } =
        { w.beginAssembly with archive := archive } := by
      unfold Workshop.beginAssembly
      split <;> rfl
    rw [hbegin] at hvalue
    exact hlast.toOption.trans hvalue

-- ---------------------------------------------------------------------------
-- Sequences
-- ---------------------------------------------------------------------------

/-- Items of a sequence can be put into a tree, and nothing changes. They can be
assembled beforehand, and nothing changes but whether the whole counts as
holding references. Nor does that, unless the part is wrapped, no direction is
being built, and the part is one item that stands for a leaf that alternates and
is tied to a direction without holding a reference. -/
theorem Work.assemble_regrouped {wrap : Bool} {offset : Word} {leaves : List Fragment}
    (hnarrow : w.stance.agreement.wide = false) (hC : C ≠ [])
    (hl : (Item.tree (A ++ (C ++ B))).leaves w.bindings = some leaves)
    (hp : ∀ f ∈ leaves, f.Portable w.archive) (hs : Fragment.Sharing leaves) :
    let flat := ((assemble ⟨false, wrap, offset⟩ (A ++ (C ++ B))).run w).1.toOption
    ((assemble ⟨false, wrap, offset⟩ (A ++ .tree C :: B)).run w).1.toOption = flat ∧
    Option.Rel (fun f g => f.unreferenced = g.unreferenced ∧
        (f = g ∨ (wrap ∨ A ≠ [] ∨ B ≠ []) ∧ w.stance.direction = .neutral ∧ C.length = 1 ∧
          ∃ inner, (Item.tree C).leaves w.bindings = some inner ∧ ∃ f ∈ inner, f.Forgetful))
      ((stage ⟨false, wrap, offset⟩ A C B).run w).1.toOption flat := by
  obtain ⟨groups, hgroups, rfl⟩ := Option.map_eq_some_iff.mp hl
  obtain ⟨before, behind, hbefore, hbehind, rfl⟩ := Item.exists_leavesOf_append hgroups
  obtain ⟨inner, after, hinner, hafter, rfl⟩ := Item.exists_leavesOf_append hbehind
  rw [List.flatten_append, List.flatten_append] at hp hs hl
  have hready : ∀ f ∈ before.flatten ++ (inner.flatten ++ after.flatten), Closed f.source ∧
      f.Ready w.fold _ _ := fun f hf => (hp f hf).ready hs hf
  have hattests := Fragment.attests_of_proper fun f hf => (hp f hf).proper.mono fun _ => And.left
  have hleaves : (Item.tree C).leaves w.bindings = some inner.flatten := by
    rw [Item.leaves, hinner]
    rfl
  obtain ⟨_, hflat, hflatOutcome⟩ := assemble_comes ⟨false, wrap, offset⟩ w rfl hl
    (fun f hf => (hready f hf).2) hnarrow hattests
  obtain ⟨_, hnested, hnestedOutcome⟩ := assemble_comes ⟨false, wrap, offset⟩ w rfl
    (Item.leavesOf_insert hbefore hleaves hafter) (fun f hf => (hready f hf).2) hnarrow hattests
  have hmem : ∀ f ∈ inner.flatten,
      f ∈ before.flatten ++ (inner.flatten ++ after.flatten) := fun f hf => by simp [hf]
  have htree : Item.outcome w.fold (Fragment.reported w.archive) w.bindings ⟨false, wrap, offset⟩
      (A ++ .tree C :: B) (before.flatten ++ (inner.flatten ++ after.flatten))
      w.beginAssembly.stance = _ :=
    Item.outcome_tree rfl hC hinner fun f hf => (hready f (hmem f hf)).2.firm
  intro flat
  have hnested : ((assemble ⟨false, wrap, offset⟩ (A ++ .tree C :: B)).run w).1.toOption = flat :=
    hnested.toOption.trans (hnestedOutcome.trans (htree.trans
      (hflatOutcome.symm.trans hflat.toOption.symm)))
  refine ⟨hnested, ?_⟩
  have hstaged := Item.outcome_staged ⟨false, wrap, offset⟩ (A := A) (B := B)
    (s := w.beginAssembly.stance) rfl hC (Fragment.reported_toFragment w.archive) hinner
    (fun f hf => ⟨(hready f (hmem f hf)).1, (hready f (hmem f hf)).2.firm,
      (hp f (hmem f hf)).earned⟩) before.flatten after.flatten
  rw [← stage_comes rfl (Fragment.reported_toFragment w.archive) hbefore hinner hafter
    (fun f hf => (hready f hf).2) hnarrow hattests, htree, ← hflatOutcome, ← hflat.toOption]
    at hstaged
  have hdirection : w.beginAssembly.stance.direction = w.stance.direction := by
    unfold Workshop.beginAssembly
    split <;> rfl
  have hwrapped : (wrap || decide (1 < A.length + (B.length + 1))) →
      wrap ∨ A ≠ [] ∨ B ≠ [] := by
    cases A <;> cases B <;> simp
  rw [hdirection] at hstaged
  replace hstaged : Option.Rel _ _ flat := hstaged
  clear_value flat
  revert hstaged
  generalize ((stage ⟨false, wrap, offset⟩ A C B).run w).1.toOption = staged
  rintro (⟨hsame, hexact⟩ | _)
  · refine .some ⟨hsame, hexact.imp_right ?_⟩
    rintro ⟨hw, hneutral, hone, hforgetful⟩
    exact ⟨hwrapped hw, hneutral, hone, _, hleaves, hforgetful⟩
  · exact .none

def Workshop.withMirror : Workshop :=
  { Workshop.new false with
    archive := #[.empty]
    bindings := [("mirror", .pattern ⟨0, "(a)\\1".toList, .empty, .plain⟩)] }

theorem Work.assemble_regrouped_mirror :
    let A : List Item := [.literal ['x']]
    let C : List Item := [.named "mirror", .literal ['7']]
    let B : List Item := [.named "mirror"]
    ∃ f, f.source = "x(a)\\2(?:)7(a)\\3".toList ∧
      ((assemble ⟨false, false, 1⟩ (A ++ (C ++ B))).run .withMirror).1.toOption = some f ∧
      ((assemble ⟨false, false, 1⟩ (A ++ .tree C :: B)).run .withMirror).1.toOption = some f ∧
      ((stage ⟨false, false, 1⟩ A C B).run .withMirror).1.toOption = some f := by
  intro A C B
  let mirror : Fragment := .native ⟨0, "(a)\\1".toList, .empty, .plain⟩
  have hclosed : Closed mirror.source := by decide +kernel
  have hfree : MarkerFree mirror.source := by decide +kernel
  have hmirror : mirror.Portable Workshop.withMirror.archive :=
    ⟨⟨⟨hclosed, hfree⟩, (Analysis.reports_empty _).honest⟩, rfl, fun h => .inr h, by decide⟩
  have literal : ∀ c : Char, (Fragment.literal [c]).Portable Workshop.withMirror.archive := fun c =>
    ⟨⟨_, rfl⟩, rfl, fun h => .inr h, fun _ =>
      congrArg References.final (Fragment.references_ofLiteral [c])⟩
  have hportable : ∀ f ∈ [.literal ['x'], mirror, .literal ['7'], mirror],
      f.Portable Workshop.withMirror.archive := by simp [hmirror, literal]
  obtain ⟨hnested, hstaged⟩ := (assemble_regrouped rfl (by simp [C]) rfl hportable (by decide) :
    let flat := ((assemble ⟨false, false, 1⟩ (A ++ (C ++ B))).run .withMirror).1.toOption
    ((assemble ⟨false, false, 1⟩ (A ++ .tree C :: B)).run .withMirror).1.toOption = flat ∧
    Option.Rel _ ((stage ⟨false, false, 1⟩ A C B).run .withMirror).1.toOption flat)
  let f : Fragment := .composite "x(a)\\2(?:)7(a)\\3".toList
    ⟨.forward, false, some false, some false⟩ ⟨some 2, some ⟨true, true⟩, none, none⟩
  have hflat :
      ((assemble ⟨false, false, 1⟩ (A ++ (C ++ B))).run .withMirror).1.toOption = some f := by
    decide +kernel
  rw [hflat] at hnested hstaged
  refine ⟨f, rfl, hflat, hnested, ?_⟩
  revert hstaged
  generalize ((stage ⟨false, false, 1⟩ A C B).run .withMirror).1.toOption = staged
  rintro (⟨-, rfl | ⟨-, hneutral, -⟩⟩ | _)
  · rfl
  · cases hneutral

/-- An alternation that was tied to a direction and holds no reference. -/
def Pattern.oneWay : Pattern :=
  ⟨0, "a|b".toList, .empty, { Traits.plain with direction := .forward }⟩

def Workshop.undirected : Workshop :=
  { Workshop.new true with
    stance := ⟨.fresh, .neutral⟩
    archive := #[.empty]
    bindings := [("way", .pattern .oneWay)] }

/-- Assembled beforehand, the alternation no longer counts as holding references. -/
theorem Work.not_assemble_regrouped_oneWay :
    Workshop.undirected.stance.agreement.wide = false ∧
      (∀ f ∈ [.literal ['x'], Fragment.native .oneWay], f.Portable Workshop.undirected.archive) ∧
      ((assemble ⟨false, false, 0⟩ [.literal ['x'], .named "way"]).run .undirected).1.toOption =
        some (.composite "x(?:a|b)".toList ⟨.neutral, false, some false, some false⟩
          ⟨some 0, some ⟨true, false⟩, none, none⟩) ∧
      ((stage ⟨false, false, 0⟩ [.literal ['x']] [.named "way"] []).run .undirected).1.toOption =
        some (.composite "x(?:a|b)".toList ⟨.neutral, false, some false, some false⟩
          ⟨some 0, some ⟨false, false⟩, none, none⟩) := by
  have hclosed : Closed Pattern.oneWay.source := by decide +kernel
  have hfree : MarkerFree Pattern.oneWay.source := by decide +kernel
  have hway : (Fragment.native .oneWay).Portable Workshop.undirected.archive :=
    ⟨⟨⟨hclosed, hfree⟩, (Analysis.reports_empty _).honest⟩, rfl, fun _ => .inl rfl, by decide⟩
  have hliteral : (Fragment.literal ['x']).Portable Workshop.undirected.archive :=
    ⟨⟨_, rfl⟩, rfl, fun h => .inr h, fun _ =>
      congrArg References.final (Fragment.references_ofLiteral ['x'])⟩
  refine ⟨rfl, by simp [hway, hliteral], ?_, ?_⟩ <;> decide +kernel

end Splice
