import Splice.Proofs.Resolving

/-!
# Deferred references arrive

A fragment that is a marker is assembled with other items, what comes of it is
assembled again, and so on. Each assembly takes the marker one step outward.
The assembly that finds it at depth zero makes a reference of it without
raising it, and every later one raises the reference by the groups that now
stand before it. Neither the sources beside it nor a digit behind it change
this.
-/

namespace Splice

open Source

variable {m : Marker} {f g f₀ : Fragment} {rear : List Fragment} {after : Workshop}

/-- An assembly of one held item among others. -/
structure Round where
  layout : Layout
  before : List Item
  held : Item
  behind : List Item
  start : Workshop

namespace Round

variable {r : Round}

def items (r : Round) : List Item := r.before ++ r.held :: r.behind

def ahead (r : Round) : List Fragment := ((Item.tree r.before).leaves r.start.bindings).getD []

def rise (r : Round) : Nat :=
  r.layout.offset.toNat + (r.ahead.map fun g => captureCount g.source).sum

def passed (r : Round) : Nat :=
  (r.ahead.map fun g => (events g.source).countP Event.isReference).sum

structure Around (r : Round) (f : Fragment) (rear : List Fragment) : Prop where
  single : r.held.isTree = false
  held : r.held.leaves r.start.bindings = some [f]
  before : (Item.tree r.before).leaves r.start.bindings = some r.ahead
  behind : (Item.tree r.behind).leaves r.start.bindings = some rear
  proper : ∀ g ∈ r.ahead ++ rear, g.Proper (fun s => Closed s ∧ MarkerFree s) r.start.archive
  sharing : Fragment.Sharing (r.ahead ++ f :: rear)

structure Made (r : Round) (f : Fragment) (rear : List Fragment) (g : Fragment) : Prop where
  closed : Closed g.source
  clear : Clear g.source
  recorded : ∃ traits a, g.origin = .composite traits a ∧ a.Honest g.source
  events : events g.source =
    Event.place r.layout.offset.toNat (r.ahead.map fun g => events g.source) ++
      ((events f.source).map (Event.shift r.rise) ++
        Event.place (r.rise + captureCount f.source) (rear.map fun g => events g.source))

theorem place_parts {fine : Bool} {known : Catalogue} {seen : Bindings}
    {first second : List Item} {held : Item} {fs : List Fragment}
    {front back : List (List Fragment)}
    (h : List.Forall₂ (Item.ResolvesTo fine known seen) (first ++ held :: second) fs)
    (hheld : held.isTree = false) (hf : held.leaves seen = some [f])
    (hfront : Item.leavesOf seen first = some front) (hback : Item.leavesOf seen second = some back)
    (hd : ∀ g ∈ front.flatten ++ back.flatten, ∀ e ∈ signals fine g.source, e.isDeferred = false)
    (offset : Nat) :
    Event.place offset (fs.map fun g => signals fine g.source) =
      Event.place offset (front.flatten.map fun g => signals fine g.source) ++
        Event.place
          (offset + (front.flatten.map fun g => Event.captures (signals fine g.source)).sum)
          (signals fine f.source :: back.flatten.map fun g => signals fine g.source) := by
  rw [List.forall_mem_append] at hd
  obtain ⟨fs₁, fs₂, h₁, h₂, rfl⟩ := forall₂_append h
  have hcaptures : ((fs₁.map fun g => signals fine g.source).map Event.captures).sum =
      (front.flatten.map fun g => Event.captures (signals fine g.source)).sum := by
    rw [Item.signals_of_resolvesTo h₁ hfront hd.1, ← Event.captures_place 0,
      Event.place_leaves hd.1, Event.captures_place, List.map_map]
    rfl
  have hahead : Event.place offset (fs₁.map fun g => signals fine g.source) =
      Event.place offset (front.flatten.map fun g => signals fine g.source) := by
    rw [Item.signals_of_resolvesTo h₁ hfront hd.1, Event.place_leaves hd.1]
  cases h₂ with
  | @cons _ f' _ fs₂ hf' h₂ =>
    obtain rfl : f = f' := by
      simpa [hf] using hf'.single hheld
    rw [List.map_append, Event.place_append, hahead, hcaptures, List.map_cons, Event.place,
      Event.place, Item.signals_of_resolvesTo h₂ hback hd.2, Event.place_leaves hd.2]

theorem made_of_run (ha : r.Around f rear)
    (hf : f.Proper (fun s => Closed s ∧ Clear s) r.start.archive)
    (h : (Work.assemble r.layout r.items).run r.start = (.ok g, after)) : r.Made f rear g := by
  obtain ⟨front, hfront, hahead⟩ := Option.map_eq_some_iff.mp ha.before
  obtain ⟨back, hback, rfl⟩ := Option.map_eq_some_iff.mp ha.behind
  have hgroups : Item.leavesOf r.start.bindings r.items = some (front ++ [f] :: back) := by
    refine Item.leavesOf_append hfront ?_
    rw [Item.leavesOf, ha.held, hback]
    rfl
  have hleaves : (front ++ [f] :: back).flatten = r.ahead ++ f :: back.flatten := by
    simp [← hahead]
  have hproper : ∀ g ∈ (front ++ [f] :: back).flatten,
      g.Proper (fun s => Closed s ∧ Clear s) r.start.archive := by
    have hsides := fun g hg => (ha.proper g hg).mono fun s hs => And.intro hs.1 hs.2.clear
    rw [List.forall_mem_append] at hsides
    rw [hleaves, List.forall_mem_append, List.forall_mem_cons]
    exact ⟨hsides.1, hf, hsides.2⟩
  have hsharing : Fragment.Sharing (front ++ [f] :: back).flatten := hleaves ▸ ha.sharing
  obtain ⟨harchive, hsound⟩ : r.start.archive.Reports true _ ∧
      ∀ g ∈ (front ++ [f] :: back).flatten, g.Sound true _ :=
    Fragment.sound_of_proper hproper (fun s hs => ⟨hs.1, fun _ => hs.2⟩) hsharing
  obtain ⟨fs, hfs, hg⟩ := Work.assemble_ok hgroups hsound harchive h
  have hevents : ∀ g ∈ r.ahead ++ f :: back.flatten, signals true g.source = events g.source :=
    fun g hg => (hsound g (hleaves ▸ hg)).closed.events
  rw [List.forall_mem_append, List.forall_mem_cons] at hevents
  obtain ⟨hahead_events, hf_events, hback_events⟩ := hevents
  have hfree : ∀ g ∈ front.flatten ++ back.flatten,
      ∀ e ∈ signals true g.source, e.isDeferred = false := by
    rw [hahead]
    intro g hg
    have hclosed := List.forall_mem_append.mpr ⟨hahead_events, hback_events⟩ g hg
    rw [hclosed]
    exact markerFree_iff.mp ((ha.proper g hg).markerFree fun s hs => hs.2)
  have hparts := place_parts hfs ha.single ha.held hfront hback hfree r.layout.offset.toNat
  have hrise : r.layout.offset.toNat +
      (r.ahead.map fun g => Event.captures (signals true g.source)).sum = r.rise := by
    refine congrArg (r.layout.offset.toNat + ·.sum) (List.map_congr_left fun g hg => ?_)
    rw [hahead_events g hg, captures_events]
  rw [hahead, hrise, Event.place, List.map_congr_left fun g hg => hahead_events g hg,
    List.map_congr_left fun g hg => hback_events g hg, hf_events, captures_events] at hparts
  obtain ⟨traits, a, ho, hreports, -⟩ := hg.recorded
  refine ⟨hg.closed, hg.clear rfl, ⟨traits, a, ho, hreports.honest⟩, ?_⟩
  rw [← hg.closed.events, hg.signals, List.map_map, ← hparts]
  rfl

end Round

-- ---------------------------------------------------------------------------
-- Many rounds
-- ---------------------------------------------------------------------------

/-- What comes of a fragment in some rounds, each of which holds what came of
the one before. -/
inductive Passes (f₀ : Fragment) : List Round → Fragment → Prop
  | start : Passes f₀ [] f₀
  | round {rounds : List Round} {r : Round} {f g : Fragment} {rear : List Fragment}
      {after : Workshop} (passed : Passes f₀ rounds f) (around : r.Around f rear)
      (run : (Work.assemble r.layout r.items).run r.start = (.ok g, after)) :
      Passes f₀ (rounds ++ [r]) g

/-- A source that refers by `e`, with some references before it, and has no
other marker. -/
def Carries (source : Text) (passed : Nat) (e : Event) : Prop :=
  ∃ front back, events source = front ++ e :: back ∧
    (∀ x ∈ front ++ back, x.isDeferred = false) ∧ front.countP Event.isReference = passed

namespace Round

variable {r : Round}

theorem Made.carries (hm : r.Made f rear g) (ha : r.Around f rear) {e : Event} {n : Nat}
    (h : Carries f.source n e) :
    Carries g.source (n + r.passed) (e.shift r.rise) := by
  obtain ⟨front, back, hf, hfree, rfl⟩ := h
  have hleaves : ∀ g ∈ r.ahead ++ rear, ∀ x ∈ Source.events g.source, x.isDeferred = false :=
    fun g hg => markerFree_iff.mp ((ha.proper g hg).markerFree fun s hs => hs.2)
  rw [List.forall_mem_append] at hleaves hfree
  refine ⟨Event.place r.layout.offset.toNat (r.ahead.map fun g => Source.events g.source) ++
    front.map (Event.shift r.rise), back.map (Event.shift r.rise) ++
      Event.place (r.rise + captureCount f.source) (rear.map fun g => Source.events g.source),
    ?_, ?_, ?_⟩
  · rw [hm.events, hf]
    simp
  · simp only [List.forall_mem_append]
    refine ⟨⟨?_, ?_⟩, ?_, ?_⟩
    · exact Event.isDeferred_place (List.forall_mem_map.mpr hleaves.1)
    · exact List.forall_mem_map.mpr fun x hx => Event.isDeferred_shift (hfree.1 x hx)
    · exact List.forall_mem_map.mpr fun x hx => Event.isDeferred_shift (hfree.2 x hx)
    · exact Event.isDeferred_place (List.forall_mem_map.mpr hleaves.2)
  · rw [List.countP_append, Event.countP_isReference_place, Event.countP_isReference_shift,
      List.map_map, Nat.add_comm]
    rfl

end Round

theorem Carries.referring {s : Text} {n : Nat} {e : Event} (h : Carries s n e)
    (he : e.isReference) : ((events s).filter Event.isReference)[n]? = some e := by
  obtain ⟨front, back, hs, -, rfl⟩ := h
  rw [hs, List.filter_append, List.filter_cons_of_pos he, List.countP_eq_length_filter,
    List.getElem?_append_right le_rfl, Nat.sub_self]
  rfl

theorem Carries.deferred {s : Text} {n : Nat} {e : Event} (h : Carries s n e) :
    (events s).filter Event.isDeferred = [e].filter Event.isDeferred := by
  obtain ⟨front, back, hs, hfree, -⟩ := h
  rw [List.forall_mem_append] at hfree
  have hnone : ∀ l : List Event, (∀ x ∈ l, x.isDeferred = false) →
      l.filter Event.isDeferred = [] := by
    intro l hl
    simpa using hl
  rw [hs, List.filter_append, hnone front hfree.1, List.nil_append, ← List.singleton_append,
    List.filter_append, hnone back hfree.2, List.append_nil]

-- ---------------------------------------------------------------------------
-- A marker by itself
-- ---------------------------------------------------------------------------

theorem lex_render (hd : m.depth < wordLimit) (hi : m.index < wordLimit) :
    lex m.render = [markerToken m] := by
  have hl : Lexed .pattern [markerToken m] := lexed_marker hd hi .nil
  have ht : untokenize [markerToken m] = m.render := List.append_nil _
  rw [← ht]
  exact hl.eq

theorem outline_render (hd : m.depth < wordLimit) (hi : m.index < wordLimit) :
    outline true m.render = [.defers m .stop] := by
  have ho : outline true m.render = outlineFrom true .pattern [markerToken m] := by
    rw [← lex_render hd hi]
    rfl
  rw [ho]
  rfl

theorem events_render (hd : m.depth < wordLimit) (hi : m.index < wordLimit) :
    events m.render = [.deferred m] := by
  rw [events, lex_render hd hi]
  rfl

theorem closed_render (hd : m.depth < wordLimit) (hi : m.index < wordLimit) :
    Closed m.render := by
  rw [closed_iff true, outline_render hd hi]
  rfl

theorem clear_render (hd : m.depth < wordLimit) (hi : m.index < wordLimit) : Clear m.render := by
  rw [clear_iff, outline_render hd hi]
  intro x hx
  obtain rfl : x = .defers m .stop := by simpa using hx
  rfl

structure Carried (f₀ : Fragment) (m : Marker) (rounds : List Round) (f : Fragment) : Prop where
  closed : Closed f.source
  clear : Clear f.source
  origin : rounds = [] ∧ f = f₀ ∨ ∃ traits a, f.origin = .composite traits a ∧ a.Honest f.source
  carries : Carries f.source (rounds.map Round.passed).sum
    (Event.moved (rounds.map Round.rise) (.deferred m))

theorem Passes.carried {rounds : List Round} (hm : f₀.source = m.render)
    (hd : m.depth < wordLimit) (hi : m.index < wordLimit) (hl : f₀.isLiteral = false)
    (hr : ∀ r ∈ rounds.head?, (f₀.analysis r.start.archive).Honest f₀.source)
    (h : Passes f₀ rounds f) : Carried f₀ m rounds f := by
  induction h with
  | start =>
    refine ⟨hm ▸ closed_render hd hi, hm ▸ clear_render hd hi, .inl ⟨rfl, rfl⟩, [], [], ?_, ?_, rfl⟩
    · rw [hm, events_render hd hi]
      rfl
    · simp
  | @round rounds r f g rear after passed around run ih =>
    have hbefore : Carried f₀ m rounds f := by
      refine ih fun q hq => hr q ?_
      rw [List.head?_append, hq]
      rfl
    have hproper : f.Proper (fun s => Closed s ∧ Clear s) r.start.archive := by
      obtain ⟨rfl, rfl⟩ | ⟨traits, a, ho, ha⟩ := hbefore.origin
      · exact Fragment.proper_of_honest hl ⟨hbefore.closed, hbefore.clear⟩ (hr r rfl)
      · simp only [Fragment.Proper, ho]
        exact ⟨⟨hbefore.closed, hbefore.clear⟩, ha⟩
    have hmade := Round.made_of_run around hproper run
    refine ⟨hmade.closed, hmade.clear, .inr hmade.recorded, ?_⟩
    have hcarries := hmade.carries around hbefore.carries
    rw [List.map_append, List.sum_append, List.map_append, Event.moved, List.foldl_append]
    simpa [Event.moved] using hcarries

/-- A marker that is assembled again and again comes one assembly nearer each
time. As long as there is an assembly to go it is the only marker there is.
After that there is none, and in its place stands a reference that all later
assemblies have raised. -/
theorem Passes.resolves {rounds : List Round} (hm : f₀.source = m.render)
    (hd : m.depth < wordLimit) (hi : m.index < wordLimit) (hl : f₀.isLiteral = false)
    (hr : ∀ r ∈ rounds.head?, (f₀.analysis r.start.archive).Honest f₀.source)
    (h : Passes f₀ rounds f) :
    (rounds.length ≤ m.depth →
      (events f.source).filter Event.isDeferred =
          [.deferred ⟨m.depth - rounds.length, m.index⟩] ∧
        ((events f.source).filter Event.isReference)[(rounds.map Round.passed).sum]? =
          some (.deferred ⟨m.depth - rounds.length, m.index⟩)) ∧
    (m.depth < rounds.length →
      (events f.source).filter Event.isDeferred = [] ∧
        ((events f.source).filter Event.isReference)[(rounds.map Round.passed).sum]? =
          some (.reference (m.index + ((rounds.drop (m.depth + 1)).map Round.rise).sum))) := by
  have hc := (h.carried hm hd hi hl hr).carries
  constructor
  · intro hk
    rw [Event.moved_pending (by simpa using hk), List.length_map] at hc
    exact ⟨hc.deferred, hc.referring rfl⟩
  · intro hk
    rw [Event.moved_resolved (by simpa using hk), ← List.map_drop] at hc
    exact ⟨hc.deferred, hc.referring rfl⟩

/-- A marker in two halves, neither of which holds a reference. -/
def Round.halves : List Item :=
  [.fragment (.raw "(?:$ ^d:0".toList none), .fragment (.raw ",n:1)".toList none)]

def Fragment.fromHalves : Fragment :=
  .composite (Marker.render ⟨0, 1⟩) ⟨.neutral, false, none, none⟩
    ⟨some 0, some ⟨false, false⟩, none, none⟩

def Round.again : Round where
  layout := ⟨false, false, 0⟩
  before := []
  held := .fragment .fromHalves
  behind := []
  start := .new false

/-- Where a marker comes together only as two sources are joined, the record says
that there is no reference, and the marker is never resolved. -/
theorem Passes.not_resolves_halves :
    ((Work.assemble ⟨false, false, 0⟩ Round.halves).run (.new false)).1 = .ok .fromHalves ∧
      Fragment.fromHalves.source = Marker.render ⟨0, 1⟩ ∧
      ∃ f, Passes .fromHalves [.again] f ∧
        (events f.source).filter Event.isDeferred = [.deferred ⟨0, 1⟩] := by
  have hjoined := Work.run_ok (Work.assemble ⟨false, false, 0⟩ Round.halves) (.new false)
    .fromHalves (by decide +kernel)
  have haround : Round.again.Around .fromHalves [] :=
    ⟨rfl, rfl, rfl, rfl, by simp [Round.ahead, Round.again, Item.leaves, Item.leavesOf],
      by decide +kernel⟩
  have hrun := Work.run_ok (Work.assemble Round.again.layout Round.again.items) (.new false)
    .fromHalves (by decide +kernel)
  exact ⟨congrArg Prod.fst hjoined, rfl, _, .round .start haround hrun, by decide +kernel⟩

def Round.inner : Round where
  layout := ⟨false, false, 0⟩
  before := [.fragment (.raw "(a)".toList none)]
  held := .fragment (.raw (Marker.render ⟨0, 1⟩) none)
  behind := [.literal ['0']]
  start := .new false

def Fragment.fromInner : Fragment :=
  .composite "(a)\\1(?:)0".toList ⟨.forward, false, none, none⟩
    ⟨some 1, some ⟨true, false⟩, none, none⟩

/-- The same behind another group and a reference. -/
def Round.outer : Round where
  layout := ⟨false, false, 1⟩
  before := [.fragment (.raw "(b)\\1".toList none)]
  held := .fragment .fromInner
  behind := []
  start := .new false

theorem Passes.resolves_outer :
    ∃ f, Passes (.raw (Marker.render ⟨0, 1⟩) none) [.inner, .outer] f ∧
      (events f.source).filter Event.isDeferred = [] ∧
      ((events f.source).filter Event.isReference)[1]? = some (.reference 3) := by
  have hempty : ∀ s, Analysis.empty.Honest s := fun s => (Analysis.reports_empty s).honest
  have hinner : Round.inner.Around (.raw (Marker.render ⟨0, 1⟩) none) [.literal ['0']] := by
    refine ⟨rfl, rfl, rfl, rfl, ?_, by decide +kernel⟩
    have hgroup : Closed "(a)".toList ∧ MarkerFree "(a)".toList :=
      ⟨by decide +kernel, by decide +kernel⟩
    exact List.forall_mem_cons.mpr ⟨⟨hgroup, hempty _⟩, by simpa using ⟨['0'], rfl⟩⟩
  have houter : Round.outer.Around .fromInner [] := by
    refine ⟨rfl, rfl, rfl, rfl, ?_, by decide +kernel⟩
    have hgroup : Closed "(b)\\1".toList ∧ MarkerFree "(b)\\1".toList :=
      ⟨by decide +kernel, by decide +kernel⟩
    exact List.forall_mem_cons.mpr ⟨⟨hgroup, hempty _⟩, by simp⟩
  have hrun := Work.run_ok (Work.assemble Round.inner.layout Round.inner.items) (.new false)
    .fromInner (by decide +kernel)
  have hrun' := Work.run_ok (Work.assemble Round.outer.layout Round.outer.items) (.new false)
    (.composite "(b)\\2(a)\\3(?:)0".toList
      ⟨.forward, false, none, none⟩ ⟨some 2, some ⟨true, false⟩, none, none⟩) (by decide +kernel)
  have hpasses : Passes _ [.inner, .outer] _ := .round (.round .start hinner hrun) houter hrun'
  have h := Passes.resolves (m := ⟨0, 1⟩) rfl (by decide) (by decide) rfl
    (by simpa [Fragment.analysis, Fragment.raw, Fragment.composite] using hempty _) hpasses
  have hpassed : (([.inner, .outer] : List Round).map Round.passed).sum = 1 := by decide +kernel
  have hrise : ((([.inner, .outer] : List Round).drop 1).map Round.rise).sum = 2 := by
    decide +kernel
  have hresolved := h.2 (by decide)
  rw [hpassed, hrise] at hresolved
  exact ⟨_, hpasses, hresolved⟩

end Splice
