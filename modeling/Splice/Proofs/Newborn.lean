import Splice.Proofs.Keeping
import Splice.Proofs.Memory
import Splice.Proofs.Tandem

/-!
# Values as they were made

The newborn workshop of a program has all the values of the program, each with
only the cells that were filled when the value was made. It is followed along
the run: behind each step it takes in what the step has made. If the sources of
the values are closed, it answers as the workshop does that the program leaves.
-/

namespace Splice

open Source

variable {α β : Type} {known later : Catalogue} {A B : Archive} {f g : Fragment}
  {v u : Value} {w b after : Workshop}

-- ---------------------------------------------------------------------------
-- The order in which steps end
-- ---------------------------------------------------------------------------

mutual
/-- The moments of an item, in the order in which their steps end. -/
def Item.endings (seen : Bindings) (wrap : Bool) : Item → Workshop → List Moment
  | .tree items, w => Item.endingsAll seen (wrap || 1 < items.length) items w
  | .deferred steps result, w =>
    Step.endingsAll steps w.enter ++
      Work.onward (Work.awaitBuilder steps result)
        (fun seen after => if result.isDeferred then [] else result.endings seen wrap after) w
  | _, _ => []

def Item.endingsAll (seen : Bindings) (wrap : Bool) : List Item → Workshop → List Moment
  | [], _ => []
  | item :: rest, w =>
    item.endings seen wrap w ++
      Work.onward (item.resolve seen wrap) (fun _ after => Item.endingsAll seen wrap rest after) w

def Step.endings : Step → Workshop → List Moment
  | .action a, w => [⟨.action a, w⟩]
  | .assemble result items layout, w =>
    Work.onward (Work.requireAll (Item.requirementsAll items))
      (fun _ after => Item.endingsAll w.bindings (layout.wrap || 1 < items.length) items
        (Workshop.beginAssembly { after with builders := [] })) w ++
      [⟨.assemble result items layout, w⟩]
  | .nested shield steps, w => Step.endingsAll steps (shield.enter w) ++ [⟨.nested shield steps, w⟩]

def Step.endingsAll : List Step → Workshop → List Moment
  | [], _ => []
  | step :: rest, w =>
    step.endings w ++ Work.onward step.run (fun _ after => Step.endingsAll rest after) w
end

def programEndings : List Step → Workshop → List Moment
  | [], _ => []
  | step :: rest, w =>
    step.endings w ++
      if Step.goesOn (step.run.run w).1 then programEndings rest (step.run.run w).2 else []

-- ---------------------------------------------------------------------------
-- Newborn values
-- ---------------------------------------------------------------------------

namespace Workshop

def news (after b : Workshop) : Bindings :=
  after.bindings.take (after.bindings.length - b.bindings.length)

def takeIn (b : Workshop) (archive : Archive) (values : Bindings) : Workshop :=
  { b with
    archive := b.archive ++ archive.extract b.archive.size archive.size
    bindings := values ++ b.bindings }

end Workshop

/-- Takes in what a step has made. A variable about which the step asked a
question has no new value: it keeps the one it has. -/
def Moment.bear (b : Workshop) (m : Moment) : Workshop :=
  let news := m.after.news b
  b.takeIn m.after.archive
    (match m.step with
      | .action (.force ..) => news.map fun (name, v) => (name, (b.bindings.lookup name).getD v)
      | _ => news)

def Workshop.newborn (fold : Bool) (program : List Step) : Workshop :=
  (programEndings program (.new fold)).foldl Moment.bear (.new fold)

-- ---------------------------------------------------------------------------
-- Taking in
-- ---------------------------------------------------------------------------

namespace Workshop

theorem takeIn_nil (b : Workshop) {archive : Archive} (h : archive.size = b.archive.size) :
    b.takeIn archive [] = b := by
  have hnone : archive.extract b.archive.size archive.size = #[] := by
    rw [h]
    exact Array.extract_empty_of_stop_le_start (Nat.le_refl _)
  rw [takeIn, hnone, Array.append_empty, List.nil_append]

theorem takeIn_push (b : Workshop) {archive : Archive} (h : archive.size = b.archive.size)
    (a : Analysis) (values : Bindings) : b.takeIn (archive.push a) values =
      { b with archive := b.archive.push a, bindings := values ++ b.bindings } := by
  have hone : (archive.push a).extract b.archive.size (archive.push a).size = #[a] := by
    rw [← h, Array.size_push, Array.extract_push, if_neg (by omega), if_pos (Nat.le_refl _),
      Array.extract_empty_of_stop_le_start (Nat.le_refl _)]
    rfl
  rw [takeIn, hone, Array.append_singleton]

theorem takeIn_values (b : Workshop) {archive : Archive} (h : archive.size = b.archive.size)
    (values : Bindings) :
    b.takeIn archive values = { b with bindings := values ++ b.bindings } := by
  have hnone : b.takeIn archive [] = b := b.takeIn_nil h
  have harchive := congrArg Workshop.archive hnone
  simp only [takeIn] at harchive ⊢
  rw [harchive]

theorem news_append (b : Workshop) (values : Bindings) {rest : Bindings}
    (h : rest.length = b.bindings.length) (ha : after.bindings = values ++ rest) :
    after.news b = values := by
  rw [news, ha, List.length_append, h, Nat.add_sub_cancel, List.take_left]

end Workshop

-- ---------------------------------------------------------------------------
-- One of two that answer alike
-- ---------------------------------------------------------------------------

theorem Fragment.Concur.left (h : f.Concur known g) : f.Concur known f := by
  intro α q
  cases h α q with
  | native hn ht => exact .native hn ht
  | literal t => exact .literal t
  | composite h => exact .composite (.refl q _ _)

theorem Value.Concur.left (h : v.Concur known u) : v.Concur known v := by
  cases h with
  | pattern hn => exact .pattern hn
  | fragment h => exact .fragment h.left

theorem Archive.Concur.left (h : A.Concur known B) : A.Concur known A :=
  ⟨rfl, h.fresh, fun n s _ _ q => .refl q s (A.analysis n)⟩

theorem Bindings.Concur.left {l r : Bindings} (h : l.Concur known r) : l.Concur known l := by
  induction h with
  | nil => exact .nil
  | cons hb _ ih => exact .cons ⟨rfl, hb.2.left⟩ ih

theorem Fragment.Concur.keeps_learn (h : f.Concur known g) (hc : Closed f.source)
    (q : Property α) : Keeps (fun _ => True) (f.ask q) fun r => r.2.Concur known g := by
  intro A _
  refine ⟨fun β r => ?_, trivial⟩
  cases h β r with
  | native hn ht => exact .native hn ht
  | literal t => exact .literal t
  | composite hr => exact .composite (.learn hc (q.carries_refl _) hr)

theorem Fragment.Concur.keeps_find (h : f.Concur known g) (hc : Closed f.source)
    (question : Question) :
    Keeps (fun _ => True) (f.find question) fun r => r.2.Concur known g := by
  cases question with
  | captures | references | alternates | singleGroup =>
    exact (h.keeps_learn hc _).bind fun _ hr => .pure hr
  | needsWrapping wide =>
    have hneeds : Keeps (fun _ => True) (f.needsWrapping wide) fun r => r.2.Concur known g := by
      unfold Fragment.needsWrapping
      split
      · exact .pure h
      · exact .pure h
      · exact (h.keeps_learn hc _).bind fun _ hr => .pure hr
    exact hneeds.bind fun _ hr => .pure hr

theorem Together.diagonal {σ ε : Type} {J : σ → Prop} {act : ExceptT ε (StateM σ) α}
    {R : α → α → Prop} (h : Together (fun s t => s = t ∧ J s) act act R) :
    Yields J act fun a => R a a := by
  intro s hs
  obtain ⟨ha, -, hj⟩ := h s s ⟨rfl, hs⟩
  refine ⟨fun a ho => ?_, hj⟩
  have ha : Alike R (act.run s).1 (act.run s).1 := ha
  have ho : (act.run s).1 = .ok a := ho
  rw [ho] at ha
  cases ha with
  | ok h => exact h

-- ---------------------------------------------------------------------------
-- What has been taken in
-- ---------------------------------------------------------------------------

structure Workshop.Stocked (known : Catalogue) (w b : Workshop) : Prop
    extends w.Concur known b where
  closed : ∀ n s, known.source? n = some s → Closed s

def Workshop.Closed (w : Workshop) : Prop := ∀ e ∈ w.bindings, Source.Closed e.2.toFragment.source

/-- An act that leaves a workshop stocked once a newborn one has taken in what
has ended by then, and answers with `Q`. -/
def Raises (known : Catalogue) (w b : Workshop) (act : StateM Workshop α) (ended : List Moment)
    (Q : Catalogue → α → Prop) : Prop :=
  ∃ later : Catalogue, later.Extends known ∧
    (act w).2.Stocked later (ended.foldl Moment.bear b) ∧ Q later (act w).1

/-- The same of an act that may fail. -/
def Rears (known : Catalogue) (w b : Workshop) (act : Work α) (ended : List Moment)
    (Q : Catalogue → α → Prop) : Prop :=
  Raises known w b act.run ended fun later outcome => ∀ a, outcome = .ok a → Q later a

/-- An act that ends a step. Unless it leaves a value with a source that is not
closed, it leaves the workshop stocked once its own values are taken in as well. -/
def Delivers (known : Catalogue) (w b : Workshop) (act : Work α) (ended : List Moment) : Prop :=
  (act.run w).2.Closed → ∃ later : Catalogue, later.Extends known ∧
    (act.run w).2.Stocked later ((ended.foldl Moment.bear b).takeIn (act.run w).2.archive
      ((act.run w).2.news (ended.foldl Moment.bear b)))

namespace Workshop.Stocked

theorem congr {w' : Workshop} (h : w.Stocked known b) (ha : w'.archive = w.archive)
    (hl : w'.bindings = w.bindings) : w'.Stocked known b :=
  ⟨⟨ha ▸ h.archive, hl ▸ h.bindings⟩, h.closed⟩

theorem length (h : w.Stocked known b) : w.bindings.length = b.bindings.length :=
  List.Forall₂.length_eq h.bindings

theorem settled (h : w.Stocked known b) : w.Stocked known (b.takeIn w.archive (w.news b)) := by
  have hnews : w.news b = [] := Workshop.news_append b [] h.length rfl
  rw [hnews, b.takeIn_nil h.archive.size]
  exact h

theorem yields_onArchive {act : ExceptT Error (StateM Archive) α} {R : α → Prop}
    (h : Yields (fun A => A.Concur known b.archive) act R) :
    Yields (Workshop.Stocked known · b) (Work.onArchive act) R := by
  intro w hw
  obtain ⟨hr, hab⟩ := h w.archive hw.archive
  exact ⟨fun a ho => hr a (mapError_ok.mp ho), ⟨⟨hab, hw.bindings⟩, hw.closed⟩⟩

theorem faithful (h : w.Stocked known b) :
    Archive.Faithful known fun A A' => A = A' ∧ A.Concur known b.archive :=
  Archive.faithful_learn h.closed b.archive

end Workshop.Stocked

namespace Raises

variable {act : StateM Workshop α} {next : α → StateM Workshop β} {ended behind : List Moment}
  {Q : Catalogue → α → Prop} {R : Catalogue → β → Prop}

theorem pure {a : α} (hw : w.Stocked known b) (h : Q known a) :
    Raises known w b (pure a : StateM Workshop α) [] Q := ⟨known, known.extends_refl, hw, h⟩

theorem bind (h : Raises known w b act ended Q)
    (hn : ∀ later : Catalogue, later.Extends known →
      (act w).2.Stocked later (ended.foldl Moment.bear b) → Q later (act w).1 →
        Raises later (act w).2 (ended.foldl Moment.bear b) (next (act w).1) behind R) :
    Raises known w b (act >>= next) (ended ++ behind) R := by
  obtain ⟨later, hk, hf, hq⟩ := h
  obtain ⟨last, hl, hg, hr⟩ := hn later hk hf hq
  refine ⟨last, hl.trans hk, ?_, hr⟩
  rw [List.foldl_append]
  exact hg

theorem shielded (shield : Shield) (h : Raises known (shield.enter w) b act ended Q) :
    Raises known w b (Workshop.shielded shield act) ended Q := by
  obtain ⟨later, hk, hf, hq⟩ := h
  rw [Raises, Workshop.run_shielded]
  exact ⟨later, hk, hf.congr (shield.leave_archive w _) (shield.leave_bindings w _), hq⟩

theorem conclude (hw : w.Stocked known b) (result : Item) (answers : List Answer)
    (failure : Option Failure) :
    Raises known w b (Work.conclude result answers failure) [] fun later r =>
      ∀ seen, r.2 = .ok seen → seen.Concur later seen := by
  rw [Raises, Work.conclude_behind]
  refine ⟨known, known.extends_refl, hw, fun seen h => ?_⟩
  obtain ⟨rfl, -⟩ := Work.conclude_ok h
  exact hw.bindings.left

end Raises

theorem Work.onward_nil (act : Work α) (w : Workshop) : Work.onward act (fun _ _ => []) w = [] := by
  unfold Work.onward
  split <;> rfl

namespace Rears

variable {act : Work α} {next : α → Work β} {ended : List Moment} {Q : Catalogue → α → Prop}
  {R : Catalogue → β → Prop}

theorem pure {a : α} (hw : w.Stocked known b) (h : Q known a) :
    Rears known w b (pure a : Work α) [] Q :=
  Raises.pure hw fun c hc => by
    obtain rfl := Except.ok.inj hc
    exact h

theorem throw {failure : Failure} (hw : w.Stocked known b) :
    Rears known w b (throw failure : Work α) [] Q := Raises.pure hw fun _ h => by cases h

theorem read (hw : w.Stocked known b) (hr : act.Reads) :
    Rears known w b act [] fun _ a => (act.run w).1 = .ok a :=
  ⟨known, known.extends_refl, (hr w).symm ▸ hw, fun _ h => h⟩

theorem mono {P : Catalogue → α → Prop} (h : Rears known w b act ended Q)
    (hq : ∀ later a, later.Extends known → Q later a → P later a) :
    Rears known w b act ended P := by
  obtain ⟨later, hk, hf, ha⟩ := h
  exact ⟨later, hk, hf, fun a ho => hq later a hk (ha a ho)⟩

theorem ofYields {P : α → Prop} (hw : w.Stocked known b)
    (h : Yields (Workshop.Stocked known · b) act P) : Rears known w b act [] fun _ => P :=
  ⟨known, known.extends_refl, (h w hw).2, (h w hw).1⟩

theorem bind {behind : α → Workshop → List Moment} (h : Rears known w b act ended Q)
    (hn : ∀ later a after, act.run w = (.ok a, after) → later.Extends known →
      after.Stocked later (ended.foldl Moment.bear b) → Q later a →
        Rears later after (ended.foldl Moment.bear b) (next a) (behind a after) R) :
    Rears known w b (act >>= next) (ended ++ Work.onward act behind w) R := by
  obtain ⟨later, hk, hf, hq⟩ := h
  rw [Rears, Raises, run_bind, List.foldl_append]
  cases hrun : act.run w with
  | mk outcome after =>
    rw [hrun] at hf hq
    cases outcome with
    | error e =>
      rw [Work.onward, hrun]
      exact ⟨later, hk, hf, fun _ h => by cases h⟩
    | ok a =>
      rw [Work.onward_ok hrun]
      obtain ⟨last, hl, hg, hr⟩ := hn later a after hrun hk hf (hq a rfl)
      exact ⟨last, hl.trans hk, hg, hr⟩

theorem andThen (h : Rears known w b act ended Q)
    (hn : ∀ later a after, later.Extends known →
      after.Stocked later (ended.foldl Moment.bear b) → Q later a →
        Rears later after (ended.foldl Moment.bear b) (next a) [] R) :
    Rears known w b (act >>= next) ended R := by
  have hbind : Rears known w b (act >>= next) (ended ++ Work.onward act (fun _ _ => []) w) R :=
    h.bind fun later a after _ hk hf hq => hn later a after hk hf hq
  rwa [Work.onward_nil, List.append_nil] at hbind

theorem lookup (hw : w.Stocked known b) (name : Name) :
    Rears known w b (Work.lookup name) [] fun later v => v.Concur later v := by
  refine ⟨known, known.extends_refl, ?_, fun v hv => ?_⟩
  · rw [Work.reads_lookup name]
    exact hw
  · have h := hw.bindings.left.lookup name
    rw [Work.of_lookup hv] at h
    cases h with
    | some hv => exact hv

theorem lookupPattern (hw : w.Stocked known b) (name : Name) :
    Rears known w b (Work.lookupPattern name) [] fun later p =>
      (Value.pattern p).Concur later (.pattern p) := by
  refine (lookup hw name).andThen fun later v after _ hf hv => ?_
  cases v with
  | pattern p => exact .pure hf hv
  | fragment f => exact .throw hf

theorem lift {act : StateM Workshop α} (h : Raises known w b act ended Q) :
    Rears known w b (ExceptT.lift act) ended Q := by
  obtain ⟨later, hk, hf, hq⟩ := h
  refine ⟨later, hk, hf, fun a ha => ?_⟩
  obtain rfl := Except.ok.inj ha
  exact hq

theorem delivers (h : Rears known w b act ended Q) : Delivers known w b act ended := by
  obtain ⟨later, hk, hf, -⟩ := h
  exact fun _ => ⟨later, hk, hf.settled⟩

theorem bindDelivers {behind : α → Workshop → List Moment} (h : Rears known w b act ended Q)
    (hn : ∀ later a after, act.run w = (.ok a, after) → later.Extends known →
      after.Stocked later (ended.foldl Moment.bear b) → Q later a →
        Delivers later after (ended.foldl Moment.bear b) (next a) (behind a after)) :
    Delivers known w b (act >>= next) (ended ++ Work.onward act behind w) := by
  intro hclosed
  obtain ⟨later, hk, hf, hq⟩ := h
  rw [run_bind] at hclosed ⊢
  rw [List.foldl_append]
  cases hrun : act.run w with
  | mk outcome after =>
    rw [hrun] at hf hq hclosed
    cases outcome with
    | error e =>
      rw [Work.onward, hrun]
      exact ⟨later, hk, hf.settled⟩
    | ok a =>
      rw [Work.onward_ok hrun]
      obtain ⟨last, hl, hg⟩ := hn later a after hrun hk hf (hq a rfl) hclosed
      exact ⟨last, hl.trans hk, hg⟩

theorem thenDelivers (h : Rears known w b act ended Q)
    (hn : ∀ later a after, later.Extends known →
      after.Stocked later (ended.foldl Moment.bear b) → Q later a →
        Delivers later after (ended.foldl Moment.bear b) (next a) []) :
    Delivers known w b (act >>= next) ended := by
  have hbind : Delivers known w b (act >>= next) (ended ++ Work.onward act (fun _ _ => []) w) :=
    h.bindDelivers fun later a after _ hk hf hq => hn later a after hk hf hq
  rwa [Work.onward_nil, List.append_nil] at hbind

end Rears

namespace Delivers

variable {ended : List Moment} {result : Option Name}

theorem get {next : Workshop → Work β} (h : Delivers known w b (next w) ended) :
    Delivers known w b ((get : Work Workshop) >>= next) ended := h

theorem modify {change : Workshop → Workshop} {next : PUnit → Work β}
    (h : Delivers known (change w) b (next ⟨⟩) ended) :
    Delivers known w b (modify change >>= next) ended := h

theorem keep (hw : w.Stocked known b) (hv : v.Concur known v) :
    Delivers known w b (Work.keep result v) [] := by
  cases result with
  | none => exact fun _ => ⟨known, known.extends_refl, hw.settled⟩
  | some name =>
    intro _
    have hnews : (w.store name v).news b = [(name, v)] :=
      Workshop.news_append b [(name, v)] hw.length rfl
    have hafter : ((Work.keep (some name) v).run w).2 = w.store name v := rfl
    have harchive : (w.store name v).archive = w.archive := rfl
    refine ⟨known, known.extends_refl, ?_⟩
    rw [hafter, List.foldl_nil, hnews, harchive, b.takeIn_values hw.archive.size]
    exact ⟨⟨hw.archive, .cons ⟨rfl, hv⟩ hw.bindings⟩, hw.closed⟩

theorem mint {act : ExceptT Error (StateM Archive) Pattern} (hw : w.Stocked known b)
    (h : Mints act act w.archive w.archive) :
    Delivers known w b (Work.onArchive act >>= fun p => Work.keep result (.pattern p)) [] := by
  intro hclosed
  have hrun : (Work.onArchive act).run w = ((act.run w.archive).1.mapError Failure.ofError,
      { w with archive := (act.run w.archive).2 }) := rfl
  rw [run_bind, hrun] at hclosed ⊢
  obtain ⟨e, he, -⟩ | ⟨p, a, c, hp, -, hn, -⟩ := h
  · rw [he]
    exact ⟨known, known.extends_refl, hw.settled⟩
  · rw [hp] at hclosed ⊢
    have hpush : ∀ (α : Type) (q : Property α), a.Concurs q p.source a :=
      fun _ q => .refl q p.source a
    cases result with
    | none =>
      have hafter : ((Work.keep none (.pattern p)).run
          { w with archive := w.archive.push a }).2 = { w with archive := w.archive.push a } := rfl
      have hnews : Workshop.news { w with archive := w.archive.push a } b = [] :=
        Workshop.news_append b [] hw.length rfl
      refine ⟨known, known.extends_refl, ?_⟩
      simp only [Except.mapError, hafter, List.foldl_nil, hnews]
      rw [b.takeIn_push hw.archive.size]
      exact ⟨⟨hw.archive.push fun _ _ hn => .inl hn, hw.bindings⟩, hw.closed⟩
    | some name =>
      have hafter : ((Work.keep (some name) (.pattern p)).run
          { w with archive := w.archive.push a }).2 =
            { w with archive := w.archive.push a, bindings := (name, .pattern p) :: w.bindings } :=
        rfl
      have hnews : Workshop.news
          { w with archive := w.archive.push a, bindings := (name, .pattern p) :: w.bindings } b =
            [(name, .pattern p)] :=
        Workshop.news_append b [(name, .pattern p)] hw.length rfl
      have hk := hw.archive.extends_add p.source
      refine ⟨known.add w.archive.size p.source, hk, ?_⟩
      simp only [Except.mapError, hafter, List.foldl_nil, hnews] at hclosed ⊢
      rw [b.takeIn_push hw.archive.size]
      have hvalue : (Value.pattern p).Concur (known.add w.archive.size p.source) (.pattern p) :=
        .pattern (by rw [Catalogue.source?_add, if_pos hn])
      refine ⟨⟨hw.archive.add hpush, .cons ⟨rfl, hvalue⟩ (hw.bindings.mono hk)⟩, fun n s hs => ?_⟩
      rw [Catalogue.source?_add] at hs
      split at hs
      · obtain rfl := Option.some.inj hs
        exact hclosed (name, .pattern p) (List.mem_cons_self ..)
      · exact hw.closed n s hs

theorem finish (hw : w.Stocked known b) (result : Option Name) (name : Name)
    (add remove : Option Text) (direction : Option Direction) :
    Delivers known w b (Work.finish result name add remove direction) [] := by
  refine (Rears.lookup hw name).thenDelivers fun later v after _ hf hv => ?_
  refine (Rears.read hf (Work.reads_flags? add)).thenDelivers fun later₁ add after₁ hk₁ hf₁ _ => ?_
  refine (Rears.read hf₁ (Work.reads_flags? remove)).thenDelivers
    fun later₂ remove after₂ hk₂ hf₂ _ => get ?_
  have hv := (hv.mono (hk₂.trans hk₁)).toFragment
  exact mint hf₂ (hv.mints_finish hf₂.archive.left _ _ _)

theorem decorate (hw : w.Stocked known b) (result : Option Name) (name : Name)
    (wrapping : Wrapping) : Delivers known w b (Work.decorate result name wrapping) [] := by
  refine (Rears.lookup hw name).thenDelivers fun later v after _ hf hv => get ?_
  have hdecorate := hv.toFragment.decorate hf.faithful after.stance.agreement.wide wrapping
  refine (Rears.ofYields hf (Workshop.Stocked.yields_onArchive hdecorate.diagonal)).thenDelivers ?_
  exact fun last g after hk hf hg => keep hf (.fragment (hg.mono hk))

theorem action (hw : w.Stocked known b) (a : Action)
    (ha : ∀ name question, a ≠ .force name question) : Delivers known w b a.run [] := by
  cases a with
  | compile result source letters => exact mint hw (Pattern.mints_compile rfl _ _)
  | raw result source letters =>
    refine (Rears.read hw (Work.reads_flags? letters)).thenDelivers fun _ flags _ _ hf _ => ?_
    exact keep hf (.fragment (Fragment.concur_composite _ _ _ _))
  | native result name =>
    exact (Rears.lookupPattern hw name).thenDelivers fun _ p _ _ hf hp =>
      keep hf (.fragment hp.toFragment)
  | copy result name =>
    exact (Rears.lookup hw name).thenDelivers fun _ v _ _ hf hv => keep hf hv
  | decorate result name wrapping => exact decorate hw result name wrapping
  | finish result name add remove direction => exact finish hw result name add remove direction
  | stance => exact get (Rears.pure (Q := fun _ _ => True) hw trivial).delivers
  | reset =>
    have hreset : w.reset.Stocked known b := hw.congr rfl rfl
    exact modify (Rears.pure (Q := fun _ _ => True) hreset trivial).delivers
  | inspect name =>
    exact (Rears.lookup hw name).thenDelivers fun _ v _ _ hf hv => keep hf hv
  | force name question => exact absurd rfl (ha name question)
  | same first second =>
    refine (Rears.lookupPattern hw first).thenDelivers fun _ p _ _ hf _ => ?_
    refine (Rears.lookupPattern hf second).thenDelivers fun _ q _ _ hf _ => ?_
    exact (Rears.pure (Q := fun _ _ => True) hf trivial).delivers
  | checkDirection name building =>
    refine (Rears.lookupPattern hw name).thenDelivers fun _ p _ _ hf _ => ?_
    split
    · exact (Rears.pure (Q := fun _ _ => True) hf trivial).delivers
    · exact (Rears.throw (Q := fun _ _ => True) hf).delivers
  | malformed before field =>
    refine (Rears.read hw (Work.reads_requireAll before)).thenDelivers fun _ _ _ _ hf _ => ?_
    exact (Rears.throw (Q := fun _ _ => True) hf).delivers

theorem logged {act : Work Answer} (h : Delivers known { w with builders := [] } b act ended) :
    Delivers known w b (Work.logged act) ended := by
  intro hclosed
  obtain ⟨later, hk, hf⟩ := h hclosed
  exact ⟨later, hk, hf.congr rfl rfl⟩

end Delivers

-- ---------------------------------------------------------------------------
-- Taking in what a step has made
-- ---------------------------------------------------------------------------

theorem Moment.after_force (name : Name) (question : Question) (w : Workshop) :
    (Moment.mk (.action (.force name question)) w).after =
      ((Work.force name question).run w).2 := by
  rw [Moment.after, Step.run]
  rfl

theorem Moment.bear_of_stocked {m : Moment} (h : m.after.Stocked known b) : m.bear b = b := by
  have hnews : m.after.news b = [] := Workshop.news_append b [] h.length rfl
  rw [Moment.bear, hnews]
  split <;> exact b.takeIn_nil h.archive.size

theorem Rears.find (hw : w.Stocked known b) {p : Pattern}
    (hp : (Value.pattern p).Concur known (.pattern p)) (question : Question) :
    Rears known w b (p.find question) [] fun _ _ => True := by
  obtain ⟨hn⟩ := hp
  have hask : ∀ {α : Type} (q : Property α),
      Rears known w b (Work.filing (p.ask q)) [] fun _ _ => True := by
    intro α q
    obtain ⟨-, -, hab⟩ := hw.faithful _ _ _ _ q hn (q.carries_refl p.source) w.archive w.archive
      ⟨rfl, hw.archive⟩
    exact ⟨known, known.extends_refl, ⟨⟨hab, hw.bindings⟩, hw.closed⟩, fun _ _ => trivial⟩
  cases question with
  | needsWrapping wide => exact .throw hw
  | captures | references | alternates | singleGroup =>
    exact (hask _).andThen fun _ _ _ _ hf _ => .pure hf trivial

theorem Workshop.Stocked.force_pattern (hw : w.Stocked known b) {name : Name} {p : Pattern}
    (hv : w.bindings.lookup name = some (.pattern p))
    (hp : (Value.pattern p).Concur known (.pattern p)) (question : Question) :
    ∃ later : Catalogue, later.Extends known ∧
      ((Work.force name question).run w).2.Stocked later b := by
  have hforced : Rears known w b
      (do
        let finding ← p.find question
        return Answer.forced finding ((Value.pattern p).view (← get).archive))
      [] fun _ _ => True :=
    (Rears.find hw hp question).andThen fun later _ _ _ hf _ =>
      ⟨later, later.extends_refl, hf, fun _ _ => trivial⟩
  obtain ⟨later, hk, hf, -⟩ := hforced
  refine ⟨later, hk, ?_⟩
  rw [Work.force, run_bind, Work.run_lookup hv]
  exact hf

theorem Workshop.Stocked.force_fragment (hw : w.Stocked known b) {name : Name} {f g : Fragment}
    (hv : w.bindings.lookup name = some (.fragment f))
    (hu : b.bindings.lookup name = some (.fragment g)) (hfg : f.Concur known g)
    (question : Question) (hclosed : ((Work.force name question).run w).2.Closed) :
    ((Work.force name question).run w).2.Stocked known
      (Moment.bear b ⟨.action (.force name question), w⟩) := by
  have hrun := Work.force_fragment_after hv question
  have hc : Source.Closed f.source := by
    rw [hrun] at hclosed
    obtain ⟨before, behind, hbindings, -⟩ := List.lookup_eq_some_iff.mp hv
    exact hclosed (name, .fragment f) (by simp [hbindings])
  have hlearned := (hfg.keeps_find hc question w.archive trivial).1
  have harchive := (hfg.left.find hw.faithful question w.archive w.archive
    ⟨rfl, hw.archive⟩).2.2
  have hnews : Workshop.news ((Work.force name question).run w).2 b =
      [(name, .fragment (f.find question w.archive).1.2)] := by
    rw [hrun]
    exact Workshop.news_append b [_] hw.length rfl
  rw [Moment.bear, Moment.after_force, hnews, hrun]
  simp only [List.map_cons, List.map_nil, hu, Option.getD_some]
  rw [b.takeIn_values harchive.size]
  exact ⟨⟨harchive, .cons ⟨rfl, .fragment hlearned⟩ hw.bindings⟩, hw.closed⟩

theorem Workshop.Stocked.force (hw : w.Stocked known b) (name : Name) (question : Question)
    (hclosed : ((Work.force name question).run w).2.Closed) :
    ∃ later : Catalogue, later.Extends known ∧
      ((Work.force name question).run w).2.Stocked later
        (Moment.bear b ⟨.action (.force name question), w⟩) := by
  have hstay : ∀ later : Catalogue, later.Extends known →
      ((Work.force name question).run w).2.Stocked later b →
        ∃ later : Catalogue, later.Extends known ∧
          ((Work.force name question).run w).2.Stocked later
            (Moment.bear b ⟨.action (.force name question), w⟩) := by
    intro later hk hf
    refine ⟨later, hk, ?_⟩
    rwa [Moment.bear_of_stocked (Moment.after_force .. ▸ hf)]
  have hvalue := hw.bindings.lookup name
  cases hv : w.bindings.lookup name with
  | none =>
    have hundefined : ((Work.force name question).run w).2 = w := by
      rw [Work.force, run_bind, Work.lookup, Work.run_get, hv]
      rfl
    exact hstay known known.extends_refl (hundefined.symm ▸ hw)
  | some v =>
    rw [hv] at hvalue
    cases hu : b.bindings.lookup name with
    | none =>
      rw [hu] at hvalue
      cases hvalue
    | some u =>
      rw [hu] at hvalue
      obtain ⟨hvu⟩ := hvalue
      cases hvu with
      | pattern hn =>
        obtain ⟨later, hk, hf⟩ := hw.force_pattern hv (.pattern hn) question
        exact hstay later hk hf
      | fragment hfg =>
        exact ⟨known, known.extends_refl, hw.force_fragment hv hu hfg question hclosed⟩

theorem Delivers.step {step : Step} {ended : List Moment} (h : Delivers known w b step.run ended)
    (hq : ∀ name question, step ≠ .action (.force name question))
    (hc : (Moment.mk step w).after.Closed) :
    Rears known w b step.run (ended ++ [⟨step, w⟩]) fun _ _ => True := by
  obtain ⟨later, hk, hf⟩ := h hc
  refine ⟨later, hk, ?_, fun _ _ => trivial⟩
  rw [List.foldl_append, List.foldl_cons, List.foldl_nil, Moment.bear]
  split
  · exact absurd ‹_› (hq _ _)
  · exact hf

namespace Rears

theorem build {layout : Layout} {count : Nat} {resolve : Bool → Work (List Part)}
    {ended : List Moment}
    (h : Rears known w b (resolve (layout.wrap || 1 < count)) ended fun later parts =>
      ∀ part ∈ parts, part.1.Concur later part.1) :
    Rears known w b (Work.build layout count resolve) ended fun later f => f.Concur later f := by
  refine h.andThen fun later parts after _ hf hp => ?_
  have hfragments : List.Forall₂ (Fragment.Concur later) (parts.map Prod.fst)
      (parts.map Prod.fst) := List.forall₂_same.mpr (List.forall_mem_map.mpr hp)
  have hassemble := fun stance layout directed =>
    assemble_together hf.faithful hfragments after.fold stance layout directed
  have hyields := Workshop.Stocked.yields_onArchive (hassemble after.stance
    { layout with wrap := layout.wrap || 1 < count } (parts.any Prod.snd)).diagonal
  obtain ⟨hq, hlater⟩ := hyields after hf
  exact ⟨later, later.extends_refl, hlater, hq⟩

theorem awaitBuilder {steps : List Step} {result : Item} {ended : List Moment}
    (h : Raises known w.enter b (Step.runAll steps) ended fun _ _ => True) :
    Rears known w b (Work.awaitBuilder steps result) ended fun later seen =>
      seen.Concur later seen := by
  have hbuilder : Raises known w.enter b
      (Step.runAll steps >>= fun r => Work.conclude result r.1 r.2) (ended ++ [])
      fun later r => ∀ seen, r.2 = .ok seen → seen.Concur later seen :=
    h.bind fun _ _ hf _ => .conclude hf result _ _
  rw [List.append_nil] at hbuilder
  refine (lift (hbuilder.shielded .reentrant)).andThen fun later r after _ hf hr => ?_
  obtain ⟨answers, outcome⟩ := r
  have hlogged : (after.logBuilder answers).Stocked later (ended.foldl Moment.bear b) :=
    hf.congr rfl rfl
  exact ⟨later, later.extends_refl, hlogged, hr⟩

end Rears

-- ---------------------------------------------------------------------------
-- Every step
-- ---------------------------------------------------------------------------

mutual
theorem Item.rears (item : Item) (hb : item.byName) {known : Catalogue} {w b : Workshop}
    {seen : Bindings} {wrap : Bool} (hw : w.Stocked known b) (hseen : seen.Concur known seen)
    (hc : ∀ m ∈ item.endings seen wrap w, m.after.Closed) :
    Rears known w b (item.resolve seen wrap) (item.endings seen wrap w) fun later part =>
      part.1.Concur later part.1 := by
  have hI : ∀ (w : Workshop) stance, w.Stocked known b →
      Workshop.Stocked known { w with stance := stance } b := fun _ _ h => h.congr rfl rfl
  match item with
  | .literal t =>
    rw [Item.resolve]
    exact .pure hw (Fragment.concur_literal _ _)
  | .named name =>
    rw [Item.resolve]
    have h := hseen.lookup name
    cases hv : seen.lookup name with
    | none => exact .throw hw
    | some v =>
      rw [hv] at h
      obtain ⟨hv⟩ := h
      refine (Rears.ofYields hw (Work.admitFragment_yields hI _)).mono ?_
      intro later part hk hpart
      rw [hpart]
      exact hv.toFragment.mono hk
  | .malformed field =>
    rw [Item.resolve]
    exact .throw hw
  | .pattern p => simp [Item.byName] at hb
  | .fragment f => simp [Item.byName] at hb
  | .tree items =>
    rw [Item.endings] at hc ⊢
    rw [Item.resolve]
    refine (Rears.build (Item.rearsAll items hb hw hseen hc)).andThen ?_
    exact fun _ _ _ _ hf hq => .pure hf hq
  | .deferred steps result =>
    rw [Item.byName, Bool.and_eq_true] at hb
    rw [Item.endings, List.forall_mem_append] at hc
    rw [Item.endings, Item.resolve_deferred]
    have henter : w.enter.Stocked known b := hw.congr rfl rfl
    refine (Rears.awaitBuilder (Step.rearsAll steps hb.1 henter hc.1)).bind ?_
    intro later seen after hrun _ hf hseen
    have hresult := hc.2
    rw [Work.onward_ok hrun] at hresult
    cases hd : result.isDeferred with
    | true => exact .throw hf
    | false =>
      rw [hd] at hresult
      exact Item.rears result hb.2 hf hseen hresult

theorem Item.rearsAll (items : List Item) (hb : Item.byNameAll items) {known : Catalogue}
    {w b : Workshop} {seen : Bindings} {wrap : Bool} (hw : w.Stocked known b)
    (hseen : seen.Concur known seen)
    (hc : ∀ m ∈ Item.endingsAll seen wrap items w, m.after.Closed) :
    Rears known w b (Item.resolveAll seen wrap items) (Item.endingsAll seen wrap items w)
      fun later parts => ∀ part ∈ parts, part.1.Concur later part.1 := by
  match items with
  | [] =>
    rw [Item.resolveAll, Item.endingsAll]
    exact .pure hw (by simp)
  | item :: rest =>
    rw [Item.byNameAll, Bool.and_eq_true] at hb
    rw [Item.endingsAll, List.forall_mem_append] at hc
    rw [Item.resolveAll, Item.endingsAll]
    refine (Item.rears item hb.1 hw hseen hc.1).bind fun later part after hrun hk hf hp => ?_
    have hrest := hc.2
    rw [Work.onward_ok hrun] at hrest
    refine (Item.rearsAll rest hb.2 hf (hseen.mono hk) hrest).andThen ?_
    exact fun last parts _ hk hf hps => .pure hf (List.forall_mem_cons.mpr ⟨hp.mono hk, hps⟩)

theorem Step.rears (step : Step) (hb : step.byName) {known : Catalogue} {w b : Workshop}
    (hw : w.Stocked known b) (hc : ∀ m ∈ step.endings w, m.after.Closed) :
    Rears known w b step.run (step.endings w) fun _ _ => True := by
  match step with
  | .action a =>
    rw [Step.endings] at hc ⊢
    have hclosed := hc _ (List.mem_singleton_self _)
    by_cases hforce : ∃ name question, a = .force name question
    · obtain ⟨name, question, rfl⟩ := hforce
      have hrun : (Step.action (.force name question)).run = Work.force name question := by
        rw [Step.run]
        rfl
      rw [Moment.after, hrun] at hclosed
      obtain ⟨later, hk, hf⟩ := hw.force name question hclosed
      rw [hrun]
      exact ⟨later, hk, hf, fun _ _ => trivial⟩
    · have hother : ∀ name question, a ≠ .force name question :=
        fun name question ha => hforce ⟨name, question, ha⟩
      have hdelivers : Delivers known w b (Step.action a).run [] := by
        rw [Step.run]
        exact .action hw a hother
      exact hdelivers.step (fun name question h => hother name question (Step.action.inj h)) hclosed
  | .assemble result items layout =>
    rw [Step.endings, List.forall_mem_append] at hc
    rw [Step.endings]
    refine Delivers.step ?_ (fun _ _ h => by cases h) (hc.2 _ (List.mem_singleton_self _))
    rw [Step.run]
    refine (Rears.read hw (Work.reads_requireAll _)).bindDelivers
      fun later _ after hrun _ hf _ => ?_
    have hassembly := hc.1
    rw [Work.onward_ok hrun] at hassembly
    obtain rfl : after = w := by
      have hreads := Work.reads_requireAll (Item.requirementsAll items) w
      rwa [hrun] at hreads
    have hempty : Workshop.Stocked later { after with builders := [] } b := hf.congr rfl rfl
    have hbegin : (Workshop.beginAssembly { after with builders := [] }).Stocked later b :=
      hempty.congr (Workshop.beginAssembly_archive _) (Workshop.beginAssembly_bindings _)
    refine .logged (.get (.modify ?_))
    exact (Rears.build (Item.rearsAll items hb hbegin hf.bindings.left hassembly)).thenDelivers
      fun _ _ _ _ hf hq => .keep hf (.fragment hq)
  | .nested shield steps =>
    rw [Step.endings, List.forall_mem_append] at hc
    rw [Step.endings]
    refine Delivers.step ?_ (fun _ _ h => by cases h) (hc.2 _ (List.mem_singleton_self _))
    have hshield : (shield.enter w).Stocked known b := by
      cases shield <;> exact hw.congr rfl rfl
    rw [Step.run]
    refine (Rears.lift ((Step.rearsAll steps hb hshield hc.1).shielded shield)).thenDelivers ?_
    rintro later ⟨answers, failure⟩ after _ hf -
    cases failure with
    | none => exact (Rears.pure (Q := fun _ _ => True) hf trivial).delivers
    | some f => exact (Rears.throw (Q := fun _ _ => True) hf).delivers

theorem Step.rearsAll (steps : List Step) (hb : Step.byNameAll steps) {known : Catalogue}
    {w b : Workshop} (hw : w.Stocked known b)
    (hc : ∀ m ∈ Step.endingsAll steps w, m.after.Closed) :
    Raises known w b (Step.runAll steps) (Step.endingsAll steps w) fun _ _ => True := by
  match steps with
  | [] =>
    rw [Step.runAll, Step.endingsAll]
    exact .pure hw trivial
  | step :: rest =>
    rw [Step.byNameAll, Bool.and_eq_true] at hb
    rw [Step.endingsAll, List.forall_mem_append] at hc
    rw [Step.runAll, Step.endingsAll]
    refine Raises.bind (Step.rears step hb.1 hw hc.1) fun later _ hf _ => ?_
    cases hrun : step.run.run w with
    | mk outcome after =>
      rw [hrun] at hf
      have hrest := hc.2
      cases outcome with
      | error failure =>
        rw [Work.onward, hrun]
        exact .pure hf trivial
      | ok answer =>
        rw [Work.onward_ok hrun] at hrest ⊢
        obtain ⟨last, hk, hg, -⟩ := Step.rearsAll rest hb.2 hf hrest
        exact ⟨last, hk, hg, trivial⟩
end

-- ---------------------------------------------------------------------------
-- Programs
-- ---------------------------------------------------------------------------

theorem runProgram_stocked {program : List Step} (hb : Step.byNameAll program)
    (hw : w.Stocked known b) (hc : ∀ m ∈ programEndings program w, m.after.Closed) :
    ∃ later, ((runProgram program).run w).2.Stocked later
      ((programEndings program w).foldl Moment.bear b) := by
  induction program generalizing w known b with
  | nil => exact ⟨known, hw⟩
  | cons step rest ih =>
    rw [Step.byNameAll, Bool.and_eq_true] at hb
    rw [programEndings, List.forall_mem_append] at hc
    obtain ⟨later, -, hf, -⟩ := Step.rears step hb.1 hw hc.1
    rw [programEndings, List.foldl_append, runProgram_cons_after]
    split
    · rename_i hgo
      rw [if_pos hgo] at hc
      exact ih hb.2 hf hc.2
    · exact ⟨later, hf⟩

theorem Workshop.stocked_new (fold : Bool) :
    (new fold).Stocked ⟨fun _ => none, 0⟩ (new fold) := by
  refine ⟨⟨⟨rfl, ?_, ?_⟩, .nil⟩, ?_⟩ <;> simp

theorem Moment.foldl_bear (ended : List Moment) (b : Workshop) : ∃ archive bindings,
    ended.foldl bear b = { b with archive := archive, bindings := bindings } := by
  induction ended generalizing b with
  | nil => exact ⟨_, _, rfl⟩
  | cons m ended ih => exact ih (m.bear b)

end Splice
