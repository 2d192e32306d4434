import Splice.Proofs.Hearing
import Splice.Proofs.Leaves
import Splice.Proofs.Moments

/-!
# Where values come from

The trail of a run notes what the run itself does not keep: the leaves that it
admits, the states that it passes through, and of each variable the directions
in which the assemblies behind its value were made. Only assemblies whose
result holds references count. A fragment is straight if all of them were made
in one direction, and that is the direction it records.
-/

namespace Splice

variable {α : Type}

-- ---------------------------------------------------------------------------
-- Trails
-- ---------------------------------------------------------------------------

/-- For each variable, the directions of the assemblies with references from
which its value comes. -/
abbrev Descent := Name → List Direction

/-- The descent, once a step has kept a value. -/
def Descent.record (d : Descent) (result : Option Name) (lineage : List Direction) : Descent :=
  match result with
  | some name => Function.update d name lineage
  | none => d

/-- The archive in which a tree is put together, and its leaves. -/
structure Site where
  archive : Archive
  leaves : List Fragment

/-- Whether an assembly records references for what it makes. -/
def Fragment.hasReferences (f : Fragment) : Bool :=
  match f.origin with
  | .composite _ a => a.references.any References.present
  | _ => false

/-- What an assembly in a direction adds to the lineage of its result. -/
def Fragment.credit (f : Fragment) (d : Direction) : List Direction :=
  if f.hasReferences then [d] else []

structure Trail where
  /-- The leaves that are admitted, in order. -/
  leaves : List Fragment
  /-- The directions of the assemblies with references from which they come. -/
  lineage : List Direction
  descent : Descent
  /-- The workshops before and behind each step. -/
  past : List (Workshop × Descent)
  /-- The sites of the trees in which the leaves are put together. -/
  sites : List Site
  /-- The sites of trees in the steps behind it. -/
  former : List Site

namespace Trail

/-- Nothing happens. -/
def still (d : Descent) : Trail := ⟨[], [], d, [], [], []⟩

def leaf (f : Fragment) (lineage : List Direction) (d : Descent) : Trail :=
  ⟨[f], lineage, d, [], [], []⟩

def andThen (t : Trail) (next : Descent → Trail) : Trail :=
  let u := next t.descent
  ⟨t.leaves ++ u.leaves, t.lineage ++ u.lineage, u.descent, t.past ++ u.past, t.sites ++ u.sites,
    t.former ++ u.former⟩

/-- The trail without what was admitted. -/
def inward (t : Trail) : Trail :=
  { t with leaves := [], lineage := [], sites := [], former := t.former ++ t.sites }

/-- The parts of a tree are put together where resolving them ends. -/
def meeting (t : Trail) (act : Work α) (w : Workshop) : Trail :=
  match act.run w with
  | (.ok _, after) => { t with sites := t.sites ++ [⟨after.archive, t.leaves⟩] }
  | (.error _, _) => t

/-- A tree that is made in the direction of a workshop adds to the lineage. -/
def credited (t : Trail) (act : Work Part) (w : Workshop) : Trail :=
  match act.run w with
  | (.ok part, _) => { t with lineage := part.1.credit w.stance.direction ++ t.lineage }
  | (.error _, _) => t

/-- What is made in the direction of a workshop and kept has the lineage behind it. -/
def keeping (t : Trail) (act : Work Fragment) (result : Option Name) (w : Workshop) : Trail :=
  match act.run w with
  | (.ok f, _) =>
    { t.inward with
      descent := t.descent.record result (f.credit w.stance.direction ++ t.lineage) }
  | (.error _, _) => t.inward

/-- The trail of a step, with the workshops before and behind it. -/
def around (t : Trail) (step : Step) (w : Workshop) (d : Descent) : Trail :=
  { t with past := (w, d) :: t.past ++ [((step.run.run w).2, t.descent)] }

end Trail

/-- The trail behind an act, which ends there if the act fails. -/
def Work.trailing (act : Work α) (next : α → Workshop → Trail) (w : Workshop) (d : Descent) :
    Trail :=
  match act.run w with
  | (.ok a, after) => next a after
  | (.error _, _) => .still d

/-- The descent behind an act, which is another one if the act succeeds. -/
def Work.descent (act : Work α) (w : Workshop) (d success : Descent) : Descent :=
  match act.run w with
  | (.ok _, _) => success
  | (.error _, _) => d

/-- The descent behind an action. Only what an action makes from another value
has the lineage of that value. -/
def Action.descent (w : Workshop) (d : Descent) (a : Action) : Descent :=
  a.run.descent w d <|
    match a with
    | .compile result _ _ | .raw result _ _ => d.record result []
    | .native result name | .copy result name | .decorate result name _
    | .finish result name _ _ _ => d.record result (d name)
    | _ => d

mutual
/-- The trail of an item. The variables that it was `seen` with had values of
the descent `behind` them. -/
def Item.trail (seen : Bindings) (behind : Descent) (wrap : Bool) :
    Item → Workshop → Descent → Trail
  | .literal t, _, d => .leaf (.literal t) [] d
  | .pattern p, _, d => .leaf (.native p) [] d
  | .fragment f, _, d => .leaf f [] d
  | .named name, _, d =>
    match seen.lookup name with
    | some value => .leaf value.toFragment (behind name) d
    | none => .still d
  | .tree items, w, d =>
    let inner := wrap || 1 < items.length
    ((Item.trailAll seen behind inner items w d).meeting
      (Item.resolveAll seen inner items) w).credited ((Item.tree items).resolve seen wrap) w
  | .deferred steps result, w, d =>
    (Step.trailAll steps w.enter d).inward.andThen fun d =>
      Work.trailing (Work.awaitBuilder steps result)
        (fun seen after =>
          if result.isDeferred then .still d else result.trail seen d wrap after d) w d
  | .malformed _, _, d => .still d

def Item.trailAll (seen : Bindings) (behind : Descent) (wrap : Bool) :
    List Item → Workshop → Descent → Trail
  | [], _, d => .still d
  | item :: rest, w, d =>
    (item.trail seen behind wrap w d).andThen fun d =>
      Work.trailing (item.resolve seen wrap)
        (fun _ after => Item.trailAll seen behind wrap rest after d) w d

/-- The trail of a step, between the workshops before and behind it. -/
def Step.trail : Step → Workshop → Descent → Trail
  | .action a, w, d => .still (a.descent w d)
  | .assemble result items layout, w, d =>
    Work.trailing (Work.requireAll (Item.requirementsAll items))
      (fun _ after =>
        let start : Workshop := { after with builders := [] }
        (Item.trailAll w.bindings d (layout.wrap || 1 < items.length) items
          start.beginAssembly d).keeping (Work.assemble layout items) result start) w d
  | .nested shield steps, w, d => (Step.trailAll steps (shield.enter w) d).inward

def Step.trailAll : List Step → Workshop → Descent → Trail
  | [], _, d => .still d
  | step :: rest, w, d =>
    ((step.trail w d).around step w d).andThen fun d =>
      Work.trailing step.run (fun _ after => Step.trailAll rest after d) w d
end

/-- The trail of an assembly, with the site where its own parts are put together. -/
def Work.assemblyTrail (layout : Layout) (items : List Item) (w : Workshop) (d : Descent) :
    Trail :=
  let inner := layout.wrap || 1 < items.length
  (Item.trailAll w.bindings d inner items w.beginAssembly d).meeting
    (Item.resolveAll w.bindings inner items) w.beginAssembly

namespace Trail

variable {t : Trail} {act : Work α} {w after : Workshop}

theorem meeting_ok {a : α} (h : act.run w = (.ok a, after)) :
    t.meeting act w = { t with sites := t.sites ++ [⟨after.archive, t.leaves⟩] } := by
  rw [meeting, h]

theorem still_andThen (d : Descent) (next : Descent → Trail) :
    (still d).andThen next = next d := rfl

theorem meeting_eq (t : Trail) (act : Work α) (w : Workshop) :
    ∃ sites, t.meeting act w = { t with sites := t.sites ++ sites } := by
  unfold meeting
  split
  · exact ⟨_, rfl⟩
  · exact ⟨[], by rw [List.append_nil]⟩

theorem meeting_lineage (t : Trail) (act : Work α) (w : Workshop) :
    (t.meeting act w).lineage = t.lineage := by
  obtain ⟨sites, h⟩ := t.meeting_eq act w
  rw [h]

theorem credited_ok {act : Work Part} {part : Part} (h : act.run w = (.ok part, after)) :
    t.credited act w = { t with lineage := part.1.credit w.stance.direction ++ t.lineage } := by
  rw [credited, h]

theorem credited_eq (t : Trail) (act : Work Part) (w : Workshop) :
    ∃ lineage, t.credited act w = { t with lineage := lineage } := by
  unfold credited
  split <;> exact ⟨_, rfl⟩

end Trail

theorem Work.trailing_ok {act : Work α} {next : α → Workshop → Trail} {w after : Workshop}
    {d : Descent} {a : α} (h : act.run w = (.ok a, after)) :
    trailing act next w d = next a after := by
  rw [trailing, h]

/-- The trail of a program, in which the steps behind a failure run as well
unless the program ends there. -/
def programTrail : List Step → Workshop → Descent → Trail
  | [], _, d => .still d
  | step :: rest, w, d =>
    ((step.trail w d).around step w d).andThen fun d =>
      if Step.goesOn (step.run.run w).1 then programTrail rest (step.run.run w).2 d else .still d

-- ---------------------------------------------------------------------------
-- Straight values
-- ---------------------------------------------------------------------------

/-- A fragment that records the one direction of its lineage, or none if the
lineage is empty. -/
structure Fragment.Straight (lineage : List Direction) (f : Fragment) : Prop where
  along : ∀ d ∈ lineage, d = f.direction
  neutral : lineage = [] ↔ f.direction = .neutral

/-- A workshop that builds in a direction and all of whose values are straight. -/
structure Workshop.Straight (d : Descent) (w : Workshop) : Prop where
  facing : w.stance.direction ≠ .neutral
  values : ∀ name value, w.bindings.lookup name = some value →
    value.toFragment.Straight (d name)

/-- A site at which all leaves are closed and have records that agree with them. -/
structure Site.Closed (site : Site) : Prop where
  proper : ∀ f ∈ site.leaves, f.Proper Source.Closed site.archive
  sharing : Fragment.Sharing site.leaves

theorem Site.closed_of_honest {site : Site}
    (h : ∀ f ∈ site.leaves, f.isLiteral = false ∧ Source.Closed f.source ∧
      (f.analysis site.archive).Honest f.source)
    (hs : Fragment.Sharing site.leaves) : site.Closed :=
  ⟨fun f hf => Fragment.proper_of_honest (h f hf).1 (h f hf).2.1 (h f hf).2.2, hs⟩

namespace Trail

/-- A trail at all of whose sites the leaves are closed. -/
def Closed (t : Trail) : Prop := ∀ site ∈ t.former ++ t.sites, site.Closed

variable {t : Trail}

theorem closed_andThen {next : Descent → Trail} :
    (t.andThen next).Closed ↔ t.Closed ∧ (next t.descent).Closed := by
  simp only [Closed, andThen, List.mem_append]
  grind

theorem closed_inward : t.inward.Closed ↔ t.Closed := by
  rw [Closed, inward, List.append_nil, Closed]

theorem closed_credited {act : Work Part} {w : Workshop} :
    (t.credited act w).Closed ↔ t.Closed := by
  obtain ⟨lineage, h⟩ := t.credited_eq act w
  rw [h, Closed, Closed]

theorem Closed.of_meeting {act : Work α} {w : Workshop} (h : (t.meeting act w).Closed) :
    t.Closed := by
  obtain ⟨sites, hsites⟩ := t.meeting_eq act w
  rw [hsites] at h
  exact fun site hsite => h site (by
    rw [← List.append_assoc]
    exact List.mem_append_left _ hsite)

theorem closed_keeping {act : Work Fragment} {result : Option Name} {w : Workshop} :
    (t.keeping act result w).Closed ↔ t.Closed := by
  unfold keeping
  split <;> exact closed_inward

theorem Closed.sites (h : t.Closed) : ∀ site ∈ t.sites, site.Closed := fun site hsite =>
  h site (List.mem_append_right _ hsite)

end Trail

mutual
/-- Whether an item holds no value but by name, and its builders turn to a
direction only to build forward or backward. -/
def Item.oriented : Item → Bool
  | .pattern _ | .fragment _ => false
  | .literal _ | .named _ | .malformed _ => true
  | .tree items => Item.orientedAll items
  | .deferred steps result => Step.orientedAll steps && result.oriented

def Item.orientedAll : List Item → Bool
  | [] => true
  | item :: rest => item.oriented && Item.orientedAll rest

/-- Whether a step turns to a direction only to build forward or backward, and
overrides no direction. -/
def Step.oriented : Step → Bool
  | .action (.finish _ _ _ _ direction) => direction.isNone
  | .action _ => true
  | .assemble _ items _ => Item.orientedAll items
  | .nested shield steps => shield != .direction .neutral && Step.orientedAll steps

def Step.orientedAll : List Step → Bool
  | [] => true
  | step :: rest => step.oriented && Step.orientedAll rest
end

end Splice
