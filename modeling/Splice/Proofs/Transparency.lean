import Splice.Proofs.Discipline
import Splice.Proofs.Logging

/-!
# Deferred builders are transparent

A deferred builder that succeeds stands for the item that it returns, with the
values of the variables at its end. Its assembly goes on in the stance in which
the builder found it, so it comes to what it comes to with that item in place
of the builder; what the builder leaves behind is its memory alone.
-/

namespace Splice

variable {α β : Type} {start w after : Workshop} {seen : Bindings}

-- ---------------------------------------------------------------------------
-- Values in the place of variables
-- ---------------------------------------------------------------------------

def Value.toItem : Value → Item
  | .pattern p => .pattern p
  | .fragment f => .fragment f

mutual
/-- The item with the values that its variables have. Builders in it look their
variables up when they run. -/
def Item.inline (seen : Bindings) : Item → Item
  | .named name =>
    match seen.lookup name with
    | some value => value.toItem
    | none => .named name
  | .tree items => .tree (Item.inlineAll seen items)
  | .literal t => .literal t
  | .pattern p => .pattern p
  | .fragment f => .fragment f
  | .deferred steps result => .deferred steps result
  | .malformed field => .malformed field

def Item.inlineAll (seen : Bindings) : List Item → List Item
  | [] => []
  | item :: rest => item.inline seen :: Item.inlineAll seen rest
end

theorem Item.length_inlineAll (seen : Bindings) (items : List Item) :
    (Item.inlineAll seen items).length = items.length := by
  induction items with
  | nil => rfl
  | cons item rest ih => rw [Item.inlineAll, List.length_cons, List.length_cons, ih]

theorem Value.resolve_toItem (v : Value) (seen : Bindings) (wrap : Bool) :
    v.toItem.resolve seen wrap = Work.admitFragment v.toFragment := by
  cases v <;> rw [toItem, Item.resolve] <;> rfl

/-- Requirements that some variables meet. -/
def Bindings.Meets (seen : Bindings) (requirements : List Requirement) : Prop :=
  ∀ name, Requirement.defined name ∈ requirements → ∃ v, seen.lookup name = some v

theorem Work.of_require_defined {name : Name} {u : Unit}
    (h : ((require (.defined name)).run w).1 = .ok u) : ∃ v, w.bindings.lookup name = some v := by
  rw [require, discard_eq, run_bind] at h
  split at h
  · exact ⟨_, of_lookup (congrArg Prod.fst ‹_›)⟩
  · cases h

theorem Work.meets_of_requireAll {requirements : List Requirement}
    (h : ((requireAll requirements).run w).1 = .ok ()) : w.bindings.Meets requirements := by
  induction requirements with
  | nil => exact fun name hname => nomatch hname
  | cons r rest ih =>
    have hcons : requireAll (r :: rest) = (require r >>= fun _ => requireAll rest) := rfl
    rw [hcons, run_bind] at h
    split at h
    · rename_i u after hr
      obtain rfl : after = w := by
        have hreads := reads_require r w
        rwa [hr] at hreads
      intro name hname
      obtain rfl | hrest := List.mem_cons.mp hname
      · exact of_require_defined (congrArg Prod.fst hr)
      · exact ih h name hrest
    · cases h

mutual
theorem Item.resolve_inline (item : Item) (h : seen.Meets item.requirements) (outer : Bindings)
    (wrap : Bool) : (item.inline seen).resolve outer wrap = item.resolve seen wrap := by
  match item with
  | .named name =>
    obtain ⟨v, hv⟩ := h name (by simp [Item.requirements])
    rw [Item.inline, Item.resolve, hv]
    exact v.resolve_toItem outer wrap
  | .tree items =>
    rw [Item.inline, Item.resolve, Item.resolve, Item.length_inlineAll]
    simp only [Item.resolveAll_inline items h outer]
  | .literal t => rw [Item.inline, Item.resolve, Item.resolve]
  | .pattern p => rw [Item.inline, Item.resolve, Item.resolve]
  | .fragment f => rw [Item.inline, Item.resolve, Item.resolve]
  | .deferred steps result => rw [Item.inline, Item.resolve, Item.resolve]
  | .malformed field => rw [Item.inline, Item.resolve, Item.resolve]

theorem Item.resolveAll_inline (items : List Item)
    (h : seen.Meets (Item.requirementsAll items)) (outer : Bindings) (wrap : Bool) :
    Item.resolveAll outer wrap (Item.inlineAll seen items) = Item.resolveAll seen wrap items := by
  match items with
  | [] => rw [Item.inlineAll, Item.resolveAll, Item.resolveAll]
  | item :: rest =>
    have hitem : seen.Meets item.requirements := fun name hname =>
      h name (List.mem_append_left _ hname)
    have hrest : seen.Meets (Item.requirementsAll rest) := fun name hname =>
      h name (List.mem_append_right _ hname)
    rw [Item.inlineAll, Item.resolveAll, Item.resolveAll, Item.resolve_inline item hitem,
      Item.resolveAll_inline rest hrest]
end

-- ---------------------------------------------------------------------------
-- Behind a builder
-- ---------------------------------------------------------------------------

theorem Work.awaitBuilder_behind (steps : List Step) (x : Item) (w : Workshop) :
    ∃ builders, ((awaitBuilder steps x).run w).2 =
      { w.remembering (Step.runAll steps w.enter).2 with builders := builders } := by
  let builder := Step.runAll steps >>= fun r => conclude x r.1 r.2
  have hsteady : Keeps w.enter.Steady builder fun _ => True :=
    (Step.steadyAll steps w.enter).bind fun r _ => steady_conclude x r.1 r.2
  have hbuilder : (builder w.enter).2 = (Step.runAll steps w.enter).2 := conclude_behind x _ _ _
  have hrun : ((awaitBuilder steps x).run w).2 =
      (Workshop.reentrant builder w).2.logBuilder (builder w.enter).1.1 := rfl
  have hleave : (Workshop.reentrant builder w).2 = w.remembering (builder w.enter).2 :=
    (hsteady _ (.refl _)).2.leave
  rw [hrun, hleave, hbuilder]
  exact ⟨_, rfl⟩

theorem Work.awaitBuilder_ok {steps : List Step} {x : Item}
    (h : (awaitBuilder steps x).run w = (.ok seen, after)) :
    after = w.remembering after ∧ seen = after.bindings ∧ seen.Meets x.requirements := by
  obtain ⟨builders, hbehind⟩ := awaitBuilder_behind steps x w
  obtain ⟨hseen, hrequired⟩ := conclude_ok (congrArg Prod.fst h)
  rw [h] at hbehind
  subst hbehind
  exact ⟨rfl, hseen, hseen ▸ meets_of_requireAll hrequired⟩

theorem Item.resolveAll_append (seen : Bindings) (wrap : Bool) (first rest : List Item) :
    Item.resolveAll seen wrap (first ++ rest) = (do
      let parts ← Item.resolveAll seen wrap first
      let others ← Item.resolveAll seen wrap rest
      return parts ++ others) := by
  induction first with
  | nil => simp [Item.resolveAll]
  | cons item others ih => simp [Item.resolveAll, ih]

/-- An assembly during which, between two items, the workshop changes. -/
def Work.assembleMeanwhile (layout : Layout) (first : List Item)
    (change : Workshop → Workshop) (rest : List Item) : Work Fragment := do
  let seen := (← get).bindings
  modify Workshop.beginAssembly
  build layout (first ++ rest).length fun wrap => do
    let parts ← Item.resolveAll seen wrap first
    modify change
    let others ← Item.resolveAll seen wrap rest
    return parts ++ others

theorem Work.assembleMeanwhile_id (layout : Layout) (first rest : List Item) :
    assembleMeanwhile layout first id rest = assemble layout (first ++ rest) := by
  simp only [assembleMeanwhile, assemble, Item.resolveAll_append]
  rfl

theorem Work.build_congr {layout : Layout} {count : Nat} {resolve other : Bool → Work (List Part)}
    (h : (resolve (layout.wrap || 1 < count)).run start =
      (other (layout.wrap || 1 < count)).run w) :
    (build layout count resolve).run start = (build layout count other).run w := by
  rw [build, build, run_bind, run_bind, h]

def Work.Arrives (layout : Layout) (first rest : List Item) (parts : List Part)
    (start w : Workshop) : Prop :=
  (Item.resolveAll start.bindings (layout.wrap || 1 < (first ++ rest).length) first).run
    start.beginAssembly = (.ok parts, w)

theorem Work.Arrives.run {layout : Layout} {first rest : List Item} {parts : List Part}
    (h : Arrives layout first rest parts start w) (change : Workshop → Workshop) :
    (assembleMeanwhile layout first change rest).run start =
      (build layout (first ++ rest).length fun wrap => do
        let others ← Item.resolveAll start.bindings wrap rest
        return parts ++ others).run (change w) := by
  have hstart : (assembleMeanwhile layout first change rest).run start =
      (build layout (first ++ rest).length fun wrap => do
        let parts ← Item.resolveAll start.bindings wrap first
        modify change
        let others ← Item.resolveAll start.bindings wrap rest
        return parts ++ others).run start.beginAssembly := rfl
  rw [hstart]
  refine build_congr ?_
  rw [run_bind, h]
  rfl

/-- A successful builder with what it returns. That item, with values in the
place of its variables, does in every assembly what the builder does there. -/
structure Transparent (steps : List Step) (x : Item) (seen : Bindings) (w after : Workshop) :
    Prop where
  /-- Only the memory has changed: flags, direction and saved stances have not. -/
  stance : after = w.remembering after
  resolve : ∀ outer wrap, ((Item.deferred steps x).resolve outer wrap).run w =
    ((x.inline seen).resolve outer wrap).run after
  /-- An assembly with the item in place has the same outcome and leaves the
  same workshop, once it is given the memory of the builder. -/
  assemble : ∀ layout first rest parts start,
    Work.Arrives layout first (.deferred steps x :: rest) parts start w →
      (Work.assemble layout (first ++ .deferred steps x :: rest)).run start =
        (Work.assembleMeanwhile layout first (·.remembering after)
          (x.inline seen :: rest)).run start
  /-- A builder that touches neither variables nor records leaves no trace but
  what it answered. -/
  untouched : after.bindings = w.bindings → after.archive = w.archive →
    ∀ layout first rest parts start,
      Work.Arrives layout first (.deferred steps x :: rest) parts start w →
        let plain := (Work.assemble layout (first ++ x.inline seen :: rest)).run start
        ∃ log, (Work.assemble layout (first ++ .deferred steps x :: rest)).run start =
          (plain.1, { plain.2 with builders := log })

theorem transparent_of_awaitBuilder {steps : List Step} {x : Item} (hx : x.isDeferred = false)
    (h : (Work.awaitBuilder steps x).run w = (.ok seen, after)) :
    Transparent steps x seen w after := by
  obtain ⟨hafter, -, hmeets⟩ := Work.awaitBuilder_ok h
  have hresolve : ∀ outer wrap, ((Item.deferred steps x).resolve outer wrap).run w =
      ((x.inline seen).resolve outer wrap).run after := by
    intro outer wrap
    rw [Item.resolve_deferred, run_bind, h]
    simp only [hx, Item.resolve_inline x hmeets]
    rfl
  have hplace : ∀ {layout first rest parts} {start : Workshop},
      Work.Arrives layout first (.deferred steps x :: rest) parts start w →
        Work.Arrives layout first (x.inline seen :: rest) parts start w := by
    intro layout first rest parts start hfirst
    simpa [Work.Arrives] using hfirst
  have hrest : ∀ {layout first rest parts} {start : Workshop},
      Work.Arrives layout first (.deferred steps x :: rest) parts start w →
        (Work.assemble layout (first ++ .deferred steps x :: rest)).run start =
          (Work.build layout (first ++ x.inline seen :: rest).length fun wrap => do
            let others ← Item.resolveAll start.bindings wrap (x.inline seen :: rest)
            return parts ++ others).run after := by
    intro layout first rest parts start hfirst
    rw [← Work.assembleMeanwhile_id, hfirst.run]
    have hlength : (first ++ Item.deferred steps x :: rest).length =
        (first ++ x.inline seen :: rest).length := by simp
    rw [hlength]
    refine Work.build_congr ?_
    rw [Item.resolveAll, Item.resolveAll, bind_assoc, bind_assoc, run_bind, run_bind]
    rw [id_eq, hresolve]
  refine ⟨hafter, hresolve, ?_, ?_⟩
  · intro layout first rest parts start hfirst
    rw [hrest hfirst, (hplace hfirst).run, ← hafter]
  · intro hbindings harchive layout first rest parts start hfirst
    have hlog : after = { w with builders := after.builders } := by
      rw [hafter, Workshop.remembering, hbindings, harchive]
    rw [hrest hfirst, ← Work.assembleMeanwhile_id, (hplace hfirst).run, hlog]
    refine Work.unlogged_build (fun wrap => ?_) w after.builders
    exact Work.unlogged_bind (Item.unloggedAll _ _ _) fun _ => .pure _

-- ---------------------------------------------------------------------------
-- Steps
-- ---------------------------------------------------------------------------

theorem Step.stance_of_shielded {shield : Shield} (h : ∀ d, shield ≠ .direction d)
    (steps : List Step) (w : Workshop) :
    ((Step.nested shield steps).run.run w).2.stance = w.stance := by
  rw [Step.nested_behind, Shield.leave_remembers shield h (Step.steadyAll steps _ _ (.refl _)).2]
  rfl

/-- Whatever a program does, no step of it changes the direction or the saved
stances, and no shielded steps change the stance, whether they succeed or
fail. So a deferred builder that succeeds is as good as its result. -/
theorem Step.disciplined :
    (∀ m : Moment, m.before.Steady m.after) ∧
      (∀ shield steps w, shield = .reentrant ∨ shield = .scope →
        ((Step.nested shield steps).run.run w).2.stance = w.stance) ∧
      ∀ steps x w after seen, x.isDeferred = false →
        (Work.awaitBuilder steps x).run w = (.ok seen, after) →
          Transparent steps x seen w after := by
  refine ⟨fun m => ?_, fun shield steps w h => ?_, fun steps x w after seen hx h => ?_⟩
  · exact (Step.steady m.step m.before m.before (.refl _)).2
  · refine Step.stance_of_shielded (fun d hd => ?_) steps w
    obtain rfl | rfl := h <;> cases hd
  · exact transparent_of_awaitBuilder hx h

/-- A builder that forgets the flags around it and assembles for itself. -/
def forgetfulBuilder : List Step :=
  [.action .reset, .assemble (some "x") [.literal ['b']] ⟨false, false, 0⟩]

theorem Step.disciplined_forgetful :
    let w : Workshop :=
      { Workshop.new true with stance := ⟨⟨some true, none, false⟩, .backward⟩ }
    let after := ((Work.awaitBuilder forgetfulBuilder (.named "x")).run w).2
    Item.isDeferred (.named "x") = false ∧ after.bindings.map Prod.fst = ["x"] ∧
      Transparent forgetfulBuilder (.named "x") after.bindings w after := by
  intro w after
  have hrun : (Work.awaitBuilder forgetfulBuilder (.named "x")).run w =
      (.ok after.bindings, after) := Work.run_ok _ _ _ (by decide +kernel)
  exact ⟨rfl, by decide +kernel, Step.disciplined.2.2 _ _ w after after.bindings rfl hrun⟩

end Splice
