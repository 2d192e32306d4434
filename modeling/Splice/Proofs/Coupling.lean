import Splice.Proofs.Keeping
import Splice.Proofs.Reasons
import Splice.Proofs.Tandem

/-!
# Flags come in pairs

A piece asks for `i` and `m` together or for neither, and so they are agreed on
together or not at all. A demand is heard flag by flag, and what it asks about
`i` is recorded before its `m` is looked at. Where both flags are known this
changes nothing, because a conflict on `m` needs both sides to know `m`, and
then both know `i`. So an item that is rejected for its flags leaves no trace.
-/

namespace Splice

variable {α : Type} {fold : Bool} {w : Workshop} {f g : Fragment} {seen : Bindings}

-- ---------------------------------------------------------------------------
-- Pairs of flags
-- ---------------------------------------------------------------------------

/-- Values of `i` and `m` of which both are known or neither is. -/
def Coupled (ignoreCase multiline : Option Bool) : Prop := ignoreCase.isSome = multiline.isSome

theorem Coupled.or {i m i' m' : Option Bool} (h : Coupled i m) (h' : Coupled i' m') :
    Coupled (i.or i') (m.or m') := by
  unfold Coupled at *
  rw [Option.isSome_or, Option.isSome_or, h, h']

def Demand.Coupled (d : Demand) : Prop := Splice.Coupled d.ignoreCase d.multiline

def Agreement.Coupled (a : Agreement) : Prop := Splice.Coupled a.ignoreCase a.multiline

def Traits.Coupled (t : Traits) : Prop := Splice.Coupled t.ignoreCase t.multiline

def Fragment.Coupled (f : Fragment) : Prop := ∀ t ∈ f.traits?, t.Coupled

def Value.Coupled (v : Value) : Prop := v.toFragment.Coupled

def Bindings.Coupled (bindings : Bindings) : Prop := ∀ b ∈ bindings, b.2.Coupled

structure Workshop.Coupled (w : Workshop) : Prop where
  stance : w.stance.agreement.Coupled
  saved : ∀ s ∈ w.saved, s.agreement.Coupled
  values : w.bindings.Coupled

def Answer.Coupled : Answer → Prop
  | .made view _ | .forced _ view => view.traits.Coupled
  | _ => True

-- ---------------------------------------------------------------------------
-- Hearing a demand
-- ---------------------------------------------------------------------------

theorem conflicts_isSome {agreed asked : Option Bool} (h : conflicts agreed asked) :
    agreed.isSome ∧ asked.isSome := by
  cases agreed <;> cases asked <;> simp_all [conflicts]

theorem or_of_not_conflicts {agreed asked : Option Bool} (h : conflicts agreed asked = false)
    (hs : agreed.isSome) : asked.or agreed = agreed := by
  cases agreed <;> cases asked <;> simp_all [conflicts]

namespace Agreement

variable {a : Agreement} {d : Demand}

theorem Coupled.hear (ha : a.Coupled) (hd : d.Coupled) (fold : Bool) (shown : Text) :
    (a.hear fold shown d).2.Coupled := by
  have hor : Splice.Coupled (d.ignoreCase.or a.ignoreCase) (d.multiline.or a.multiline) := hd.or ha
  unfold Agreement.hear
  cases hcase : conflicts a.ignoreCase d.ignoreCase with
  | true => exact ha
  | false =>
    cases hmode : !fold && conflicts a.multiline d.multiline with
    | false => simpa [hmode, Agreement.Coupled] using hor
    | true =>
      have hknown := (conflicts_isSome (Bool.and_eq_true _ _ ▸ hmode).2).1
      have hkept := or_of_not_conflicts hcase (ha.trans hknown)
      simpa [hmode, hkept] using ha

theorem Coupled.hear_error (ha : a.Coupled) {shown : Text} {e : Error}
    (h : (a.hear fold shown d).1 = .error e) : (a.hear fold shown d).2 = a := by
  unfold Agreement.hear at h ⊢
  cases hcase : conflicts a.ignoreCase d.ignoreCase with
  | true => rfl
  | false =>
    cases hmode : !fold && conflicts a.multiline d.multiline with
    | false => simp [hcase, hmode] at h
    | true =>
      -- The conflict is on `m`, so `m` is agreed on, and `i` with it.
      have hknown := (conflicts_isSome (Bool.and_eq_true _ _ ▸ hmode).2).1
      have hkept := or_of_not_conflicts hcase (ha.trans hknown)
      simp [hmode, hkept]

end Agreement

namespace Stance

variable {s : Stance} {p : Pattern} {t : Traits} {source : Text} {e : Error}

theorem coupled_admitPattern (hs : s.agreement.Coupled) (fold : Bool) (p : Pattern) :
    (s.admitPattern fold p).2.agreement.Coupled := by
  have hheard := hs.hear (d := p.demand) rfl fold p.display
  unfold admitPattern
  split <;> (rename_i heq; rw [heq] at hheard; exact hheard)

theorem coupled_admitComposite (hs : s.agreement.Coupled) (ht : t.Coupled) (fold : Bool)
    (source : Text) : (s.admitComposite fold source t).2.agreement.Coupled := by
  unfold admitComposite
  split
  · exact hs
  · exact hs.hear (d := t.demand) ht fold _

/-- A pattern that is rejected for its flags leaves the stance as it is. One that is
rejected for its direction does not, because its flags are heard first. -/
theorem admitPattern_rejected (hs : s.agreement.Coupled)
    (h : (s.admitPattern fold p).1 = .error e) (he : e.isFlagMismatch) :
    (s.admitPattern fold p).2 = s := by
  unfold admitPattern at h ⊢
  cases hheard : s.agreement.hear fold p.display p.demand with
  | mk outcome a =>
    rw [hheard] at h
    cases outcome with
    | ok u =>
      rw [Direction.check_error h] at he
      cases he
    | error e' =>
      have hkept := hs.hear_error (congrArg Prod.fst hheard)
      rw [hheard] at hkept
      obtain rfl : a = s.agreement := hkept
      rfl

theorem admitComposite_rejected (hs : s.agreement.Coupled)
    (h : (s.admitComposite fold source t).1 = .error e) :
    (s.admitComposite fold source t).2 = s := by
  unfold admitComposite at h ⊢
  split at h
  · rfl
  · rename_i directed _
    simp only at h ⊢
    cases hheard : s.agreement.hear fold (Error.slashed source []) t.demand with
    | mk outcome a =>
      rw [hheard] at h
      cases outcome with
      | ok u => cases h
      | error e' =>
        have hkept := hs.hear_error (congrArg Prod.fst hheard)
        rw [hheard] at hkept
        obtain rfl : a = s.agreement := hkept
        rfl

end Stance

-- ---------------------------------------------------------------------------
-- Workshops
-- ---------------------------------------------------------------------------

namespace Workshop.Coupled

theorem congr {after : Workshop} (h : w.Coupled) (hstance : after.stance = w.stance)
    (hsaved : after.saved = w.saved) (hbindings : after.bindings = w.bindings) : after.Coupled :=
  ⟨hstance ▸ h.stance, hsaved ▸ h.saved, hbindings ▸ h.values⟩

theorem restance (h : w.Coupled) {s : Stance} (hs : s.agreement.Coupled) :
    Workshop.Coupled { w with stance := s } := ⟨hs, h.saved, h.values⟩

theorem reset (h : w.Coupled) : w.reset.Coupled := h.restance rfl

theorem enter (h : w.Coupled) : w.enter.Coupled :=
  ⟨h.stance, List.forall_mem_cons.mpr ⟨h.stance, h.saved⟩, h.values⟩

theorem leave (h : w.Coupled) : w.leave.Coupled := by
  unfold Workshop.leave
  split
  · exact h
  · rename_i stance saved heq
    have hsaved := heq ▸ h.saved
    rw [List.forall_mem_cons] at hsaved
    exact ⟨hsaved.1, hsaved.2, h.values⟩

theorem beginAssembly (h : w.Coupled) : w.beginAssembly.Coupled := by
  unfold Workshop.beginAssembly
  split
  · exact h.reset
  · exact h

theorem store (h : w.Coupled) (name : Name) {v : Value} (hv : v.Coupled) :
    (w.store name v).Coupled :=
  ⟨h.stance, h.saved, List.forall_mem_cons.mpr ⟨hv, h.values⟩⟩

theorem enterShield (h : w.Coupled) (shield : Shield) : (shield.enter w).Coupled := by
  cases shield with
  | reentrant => exact h.enter
  | scope => exact h.enter.reset
  | direction d => exact h.restance h.stance

theorem leaveShield (h : w.Coupled) (shield : Shield) (start : Workshop) :
    (shield.leave start w).Coupled := by
  cases shield with
  | reentrant | scope => exact h.leave
  | direction d => exact h.restance h.stance

end Workshop.Coupled

theorem Bindings.Coupled.lookup (h : seen.Coupled) {name : Name} {v : Value}
    (hv : seen.lookup name = some v) : v.Coupled := by
  obtain ⟨before, behind, rfl, -⟩ := List.lookup_eq_some_iff.mp hv
  exact h (name, v) (by simp)

theorem Value.Coupled.view {v : Value} (h : v.Coupled) (archive : Archive) :
    (v.view archive).traits.Coupled := by
  cases v with
  | pattern p => exact h _ rfl
  | fragment f =>
    show (f.traits?.getD .plain).Coupled
    cases ht : f.traits? with
    | none => rfl
    | some t => exact h t ht

-- ---------------------------------------------------------------------------
-- Fragments
-- ---------------------------------------------------------------------------

namespace Fragment

variable {archive archive' : Archive}

theorem Coupled.traits (h : f.Coupled) {t : Traits} (ht : t.Coupled) :
    (f.traits?.getD t).Coupled := by
  cases hf : f.traits? with
  | none => exact ht
  | some u => exact h u hf

theorem coupled_raw (source : Text) (flags : Option Flags) : (raw source flags).Coupled := by
  intro t ht
  cases flags <;>
  · obtain rfl := Option.some.inj ht
    rfl

theorem Coupled.decorate (h : f.Coupled) {wide : Bool} {wrapping : Wrapping}
    (hrun : (f.decorate wide wrapping).run archive = (.ok g, archive')) : g.Coupled := by
  obtain hsame | ⟨source, rfl⟩ := decorate_ok hrun
  · unfold Coupled
    rw [hsame.traits]
    exact h
  · intro t ht
    obtain rfl := Option.some.inj ht
    exact h.traits rfl

theorem Coupled.finish (h : f.Coupled) {agreement : Agreement} {options : Finish} {p : Pattern}
    (hrun : (f.finish fold agreement options).run archive = (.ok p, archive')) :
    (Value.pattern p).Coupled := by
  intro t ht
  obtain rfl := Option.some.inj ht
  rw [(finish_ok hrun).2.1]
  exact h.traits (t := .plain) rfl

theorem coupled_assemble {stance : Stance} (hs : stance.agreement.Coupled) {layout : Layout}
    {directed : Bool} {fs : List Fragment}
    (hrun : (assemble fold stance layout directed fs).run archive = (.ok f, archive')) :
    f.Coupled := by
  obtain ⟨n, rfl, -⟩ := assemble_toFragment hrun
  intro t ht
  obtain rfl := Option.some.inj ht
  exact hs

end Fragment

theorem Pattern.coupled_compile {source letters : Text} {archive archive' : Archive} {p : Pattern}
    (hrun : (compile source letters).run archive = (.ok p, archive')) :
    (Value.pattern p).Coupled := by
  intro t ht
  obtain rfl := Option.some.inj ht
  unfold compile at hrun
  split at hrun
  · cases congrArg Prod.fst hrun
  · rw [(make_ok hrun).2]
    rfl

-- ---------------------------------------------------------------------------
-- Acts
-- ---------------------------------------------------------------------------

namespace Work

theorem Reads.coupled {act : Work α} (h : act.Reads) :
    Yields Workshop.Coupled act fun _ => True := by
  intro w hw
  have hrun : (act.run w).2 = w := h w
  exact ⟨fun _ _ => trivial, hrun.symm ▸ hw⟩

theorem coupled_get : Yields Workshop.Coupled (get : Work Workshop) Workshop.Coupled := by
  intro w hw
  refine ⟨fun a ha => ?_, hw⟩
  obtain rfl := Except.ok.inj ha
  exact hw

theorem coupled_modify {change : Workshop → Workshop} (h : ∀ w, w.Coupled → (change w).Coupled) :
    Yields Workshop.Coupled (modify change : Work PUnit) fun _ => True :=
  fun w hw => ⟨fun _ _ => trivial, h w hw⟩

theorem coupled_onArchive {act : ExceptT Error (StateM Archive) α} {Q : α → Prop}
    (h : ∀ archive a archive', act.run archive = (.ok a, archive') → Q a) :
    Yields Workshop.Coupled (onArchive act) Q := by
  intro w hw
  refine ⟨fun a ha => ?_, hw.congr rfl rfl rfl⟩
  exact h w.archive a _ (Prod.ext (mapError_ok.mp ha) rfl)

theorem coupled_filing {act : StateM Archive α} {Q : α → Prop} (h : ∀ archive, Q (act archive).1) :
    Yields Workshop.Coupled (filing act) Q := by
  intro w hw
  refine ⟨fun a ha => ?_, hw.congr rfl rfl rfl⟩
  obtain rfl := Except.ok.inj ha
  exact h w.archive

theorem coupled_onStance {act : Stance → Except Error α × Stance}
    (h : ∀ s, s.agreement.Coupled → (act s).2.agreement.Coupled) :
    Yields Workshop.Coupled (onStance act) fun _ => True :=
  fun w hw => ⟨fun _ _ => trivial, hw.restance (h w.stance hw.stance)⟩

theorem coupled_lookup (name : Name) : Yields Workshop.Coupled (lookup name) Value.Coupled := by
  intro w hw
  refine ⟨fun v hv => hw.values.lookup (of_lookup hv), ?_⟩
  rw [reads_lookup name w]
  exact hw

theorem coupled_lookupPattern (name : Name) :
    Yields Workshop.Coupled (lookupPattern name) fun p => (Value.pattern p).Coupled :=
  (coupled_lookup name).bind fun v hv => by
    cases v with
    | pattern p => exact .pure hv
    | fragment f => exact .throw _

theorem coupled_keep (result : Option Name) {value : Value} (hv : value.Coupled) :
    Yields Workshop.Coupled (keep result value) Answer.Coupled := by
  intro w hw
  cases result with
  | none =>
    refine ⟨fun a ha => ?_, hw⟩
    obtain rfl := Except.ok.inj ha
    exact hv.view w.archive
  | some name =>
    refine ⟨fun a ha => ?_, hw.store name hv⟩
    obtain rfl := Except.ok.inj ha
    exact hv.view w.archive

theorem coupled_admitPattern (p : Pattern) :
    Yields Workshop.Coupled (admitPattern p) fun _ => True :=
  reads_get.coupled.bind fun _ _ =>
    coupled_onStance fun _ hs => Stance.coupled_admitPattern hs _ p

theorem coupled_admitFragment (hf : f.Coupled) :
    Yields Workshop.Coupled (admitFragment f) fun part => part.1.Coupled := by
  unfold admitFragment
  cases ho : f.origin with
  | native p => exact (coupled_admitPattern p).bind fun _ _ => .pure hf
  | literal => exact .pure hf
  | composite traits record =>
    have ht : traits.Coupled := hf traits (by simp [Fragment.traits?, ho])
    refine reads_get.coupled.bind fun _ _ => ?_
    refine (coupled_onStance fun _ hs => ?_).bind fun _ _ => .pure hf
    exact Stance.coupled_admitComposite hs ht _ f.source

theorem coupled_build {layout : Layout} {count : Nat} {resolve : Bool → Work (List Part)}
    (h : ∀ wrap, Yields Workshop.Coupled (resolve wrap) fun _ => True) :
    Yields Workshop.Coupled (build layout count resolve) Fragment.Coupled :=
  (h _).bind fun _ _ => coupled_get.bind fun _ hw =>
    coupled_onArchive fun _ _ _ hrun => Fragment.coupled_assemble hw.stance hrun

theorem coupled_find (p : Pattern) (question : Question) :
    Yields Workshop.Coupled (p.find question) fun _ => True := by
  cases question with
  | needsWrapping wide => exact .throw _
  | captures | references | alternates | singleGroup =>
    exact (coupled_filing (Q := fun _ => True) fun _ => trivial).bind fun _ _ => .pure trivial

theorem coupled_force (name : Name) (question : Question) :
    Yields Workshop.Coupled (force name question) Answer.Coupled := by
  refine (coupled_lookup name).bind fun v hv => ?_
  cases v with
  | pattern p =>
    exact (coupled_find p question).bind fun _ _ => reads_get.coupled.bind fun w _ =>
      .pure (hv.view w.archive)
  | fragment f =>
    have hfind : Yields Workshop.Coupled (filing (f.find question)) fun r =>
        (Value.fragment r.2).Coupled := by
      refine coupled_filing fun archive t ht => hv t ?_
      exact (f.sameBut_find question archive).traits ▸ ht
    refine hfind.bind fun ⟨outcome, g⟩ hg => ?_
    refine (coupled_modify fun _ hw => hw.store name hg).bind fun _ _ => ?_
    cases outcome with
    | ok finding => exact reads_get.coupled.bind fun w _ => .pure (hg.view w.archive)
    | error e => exact .throw _

theorem coupled_action (a : Action) : Yields Workshop.Coupled a.run Answer.Coupled := by
  cases a with
  | compile result source letters =>
    exact (coupled_onArchive fun _ _ _ hrun => Pattern.coupled_compile hrun).bind fun _ hp =>
      coupled_keep result hp
  | raw result source letters =>
    exact (reads_flags? letters).coupled.bind fun flags _ =>
      coupled_keep result (Fragment.coupled_raw source flags)
  | native result name =>
    exact (coupled_lookupPattern name).bind fun p hp => coupled_keep result hp
  | copy result name => exact (coupled_lookup name).bind fun v hv => coupled_keep result hv
  | decorate result name wrapping =>
    refine (coupled_lookup name).bind fun v hv => reads_get.coupled.bind fun w _ => ?_
    exact (coupled_onArchive fun _ _ _ hrun => Fragment.Coupled.decorate hv hrun).bind fun g hg =>
      coupled_keep result hg
  | finish result name add remove direction =>
    refine (coupled_lookup name).bind fun v hv => ?_
    refine (reads_flags? add).coupled.bind fun add _ => ?_
    refine (reads_flags? remove).coupled.bind fun remove _ => reads_get.coupled.bind fun w _ => ?_
    exact (coupled_onArchive fun _ _ _ hrun => Fragment.Coupled.finish hv hrun).bind fun p hp =>
      coupled_keep result hp
  | stance => exact reads_get.coupled.bind fun _ _ => .pure trivial
  | reset => exact (coupled_modify fun _ hw => hw.reset).bind fun _ _ => .pure trivial
  | inspect name => exact (coupled_lookup name).bind fun v hv => coupled_keep none hv
  | force name question => exact coupled_force name question
  | same first second =>
    refine (reads_lookupPattern first).coupled.bind fun p _ => ?_
    exact (reads_lookupPattern second).coupled.bind fun q _ => .pure trivial
  | checkDirection name building =>
    refine (reads_lookupPattern name).coupled.bind fun p _ => ?_
    split
    · exact .pure trivial
    · exact .throw _
  | malformed before field => exact (reads_requireAll before).coupled.bind fun _ _ => .throw _

theorem coupled_logged {act : Work Answer} (h : Yields Workshop.Coupled act Answer.Coupled) :
    Yields Workshop.Coupled (logged act) Answer.Coupled := by
  intro w hw
  obtain ⟨hanswer, hafter⟩ := h { w with builders := [] } (hw.congr rfl rfl rfl)
  refine ⟨fun answer ha => ?_, hafter.congr rfl rfl rfl⟩
  rw [run_logged] at ha
  have hmap := mapError_ok.mp ha
  generalize (act.run { w with builders := [] }).1 = outcome at hanswer hmap
  cases outcome with
  | error e => cases hmap
  | ok a =>
    have hcoupled := hanswer a rfl
    obtain rfl := Except.ok.inj hmap
    cases a <;> exact hcoupled

theorem coupled_conclude (result : Item) (answers : List Answer) (failure : Option Failure) :
    Keeps Workshop.Coupled (conclude result answers failure) fun r =>
      ∀ seen, r.2 = .ok seen → seen.Coupled := by
  intro w hw
  rw [conclude_behind]
  refine ⟨fun seen h => ?_, hw⟩
  obtain ⟨rfl, -⟩ := conclude_ok h
  exact hw.values

theorem coupled_nested (answers : List Answer) (failure : Option Failure) :
    Yields Workshop.Coupled (nested answers failure) Answer.Coupled := by
  cases failure with
  | none => exact .pure trivial
  | some f => exact .throw _

end Work

theorem Workshop.coupled_shielded {act : StateM Workshop α} {Q : α → Prop} (shield : Shield)
    (h : Keeps Workshop.Coupled act Q) : Keeps Workshop.Coupled (shielded shield act) Q := by
  intro w hw
  obtain ⟨hanswer, hafter⟩ := h (shield.enter w) (hw.enterShield shield)
  rw [run_shielded]
  exact ⟨hanswer, hafter.leaveShield shield w⟩

-- ---------------------------------------------------------------------------
-- Items and steps
-- ---------------------------------------------------------------------------

theorem Work.coupled_awaitBuilder {steps : List Step} (result : Item)
    (h : Keeps Workshop.Coupled (Step.runAll steps) fun _ => True) :
    Yields Workshop.Coupled (awaitBuilder steps result) Bindings.Coupled := by
  have hbuilder : Keeps Workshop.Coupled
      (Step.runAll steps >>= fun r => conclude result r.1 r.2) fun r =>
        ∀ seen, r.2 = .ok seen → seen.Coupled :=
    h.bind fun r _ => coupled_conclude result r.1 r.2
  refine (Yields.lift (Workshop.coupled_shielded .reentrant hbuilder)).bind
    fun ⟨answers, outcome⟩ hr => ?_
  have hlog : Yields Workshop.Coupled (modify (Workshop.logBuilder answers) : Work PUnit)
      fun _ => True := coupled_modify fun _ hw => hw.congr rfl rfl rfl
  exact hlog.bind fun _ _ => Yields.ofExcept hr

mutual
theorem Item.coupled (item : Item) (hb : item.byName) {seen : Bindings} (hs : seen.Coupled)
    (wrap : Bool) :
    Yields Workshop.Coupled (item.resolve seen wrap) fun part => part.1.Coupled := by
  match item with
  | .literal t =>
    rw [Item.resolve]
    exact .pure fun t ht => by cases ht
  | .pattern p => simp [Item.byName] at hb
  | .fragment f => simp [Item.byName] at hb
  | .named name =>
    rw [Item.resolve]
    cases hv : seen.lookup name with
    | some v => exact Work.coupled_admitFragment (hs.lookup hv)
    | none => exact .throw _
  | .tree items =>
    rw [Item.resolve]
    exact (Work.coupled_build fun wrap => Item.coupledAll items hb hs wrap).bind
      fun _ hf => .pure hf
  | .deferred steps result =>
    rw [Item.byName, Bool.and_eq_true] at hb
    rw [Item.resolve_deferred]
    refine (Work.coupled_awaitBuilder result (Step.coupledAll steps hb.1)).bind fun later hl => ?_
    split
    · exact .throw _
    · exact Item.coupled result hb.2 hl wrap
  | .malformed field =>
    rw [Item.resolve]
    exact .throw _

theorem Item.coupledAll (items : List Item) (hb : Item.byNameAll items) {seen : Bindings}
    (hs : seen.Coupled) (wrap : Bool) :
    Yields Workshop.Coupled (Item.resolveAll seen wrap items) fun _ => True := by
  match items with
  | [] =>
    rw [Item.resolveAll]
    exact .pure trivial
  | item :: rest =>
    rw [Item.byNameAll, Bool.and_eq_true] at hb
    rw [Item.resolveAll]
    exact (Item.coupled item hb.1 hs wrap).bind fun _ _ =>
      (Item.coupledAll rest hb.2 hs wrap).bind fun _ _ => .pure trivial

theorem Step.coupled (step : Step) (hb : step.byName) :
    Yields Workshop.Coupled step.run Answer.Coupled := by
  match step with
  | .action a =>
    rw [Step.run]
    exact Work.coupled_action a
  | .assemble result items layout =>
    rw [Step.run]
    refine (Work.reads_requireAll _).coupled.bind fun _ _ => Work.coupled_logged ?_
    refine Work.coupled_get.bind fun w hw => ?_
    refine (Work.coupled_modify fun _ hw => hw.beginAssembly).bind fun _ _ => ?_
    exact (Work.coupled_build fun wrap => Item.coupledAll items hb hw.values wrap).bind
      fun f hf => Work.coupled_keep result hf
  | .nested shield steps =>
    rw [Step.run]
    exact (Yields.lift (Workshop.coupled_shielded shield (Step.coupledAll steps hb))).bind
      fun r _ => Work.coupled_nested r.1 r.2

theorem Step.coupledAll (steps : List Step) (hb : Step.byNameAll steps) :
    Keeps Workshop.Coupled (Step.runAll steps) fun _ => True := by
  match steps with
  | [] =>
    rw [Step.runAll]
    exact .pure trivial
  | step :: rest =>
    rw [Step.byNameAll, Bool.and_eq_true] at hb
    rw [Step.runAll]
    have hstep : Keeps Workshop.Coupled step.run.run fun _ => True :=
      Keeps.mono (Step.coupled step hb.1) fun _ _ => trivial
    refine hstep.bind fun outcome _ => ?_
    cases outcome with
    | ok answer => exact (Step.coupledAll rest hb.2).bind fun _ _ => .pure trivial
    | error failure => exact .pure trivial
end

-- ---------------------------------------------------------------------------
-- Moments
-- ---------------------------------------------------------------------------

structure Moment.Coupled (m : Moment) : Prop where
  before : m.before.Coupled
  byName : m.step.byName

theorem Moment.Coupled.after {m : Moment} (h : m.Coupled) : m.after.Coupled :=
  (Step.coupled m.step h.byName m.before h.before).2

theorem Work.coupled_of_run {act : Work α} {Q : α → Prop} {a : α} {after : Workshop}
    (h : Yields Workshop.Coupled act Q) (hw : w.Coupled) (hrun : act.run w = (.ok a, after)) :
    Q a ∧ after.Coupled := by
  obtain ⟨hanswer, hafter⟩ := h w hw
  rw [hrun] at hanswer hafter
  exact ⟨hanswer a rfl, hafter⟩

mutual
theorem Item.coupled_moment (item : Item) (hb : item.byName) {seen : Bindings} {wrap : Bool}
    {w : Workshop} {m : Moment} (hw : w.Coupled) (hs : seen.Coupled)
    (hm : m ∈ item.moments seen wrap w) : m.Coupled := by
  match item with
  | .literal _ | .pattern _ | .fragment _ | .named _ | .malformed _ => simp [Item.moments] at hm
  | .tree items =>
    rw [Item.moments] at hm
    exact Item.coupled_momentAll items hb hw hs hm
  | .deferred steps result =>
    rw [Item.byName, Bool.and_eq_true] at hb
    rw [Item.moments, List.mem_append] at hm
    obtain hm | hm := hm
    · exact Step.coupled_momentAll steps hb.1 hw.enter hm
    · obtain ⟨later, after, hbuilder, hm⟩ := Work.mem_onward hm
      obtain ⟨hlater, hafter⟩ := Work.coupled_of_run
        (Work.coupled_awaitBuilder result (Step.coupledAll steps hb.1)) hw hbuilder
      split at hm
      · cases hm
      · exact Item.coupled_moment result hb.2 hafter hlater hm

theorem Item.coupled_momentAll (items : List Item) (hb : Item.byNameAll items) {seen : Bindings}
    {wrap : Bool} {w : Workshop} {m : Moment} (hw : w.Coupled) (hs : seen.Coupled)
    (hm : m ∈ Item.momentsAll seen wrap items w) : m.Coupled := by
  match items with
  | [] => simp [Item.momentsAll] at hm
  | item :: rest =>
    rw [Item.byNameAll, Bool.and_eq_true] at hb
    rw [Item.momentsAll, List.mem_append] at hm
    obtain hm | hm := hm
    · exact Item.coupled_moment item hb.1 hw hs hm
    · obtain ⟨part, after, hpart, hm⟩ := Work.mem_onward hm
      have hafter := (Work.coupled_of_run (Item.coupled item hb.1 hs wrap) hw hpart).2
      exact Item.coupled_momentAll rest hb.2 hafter hs hm

theorem Step.coupled_moment (step : Step) (hb : step.byName) {w : Workshop} {m : Moment}
    (hw : w.Coupled) (hm : m ∈ step.moments w) : m.Coupled := by
  match step with
  | .action a =>
    rw [Step.moments, List.mem_singleton] at hm
    subst hm
    exact ⟨hw, hb⟩
  | .assemble result items layout =>
    rw [Step.moments, List.mem_cons] at hm
    obtain rfl | hm := hm
    · exact ⟨hw, hb⟩
    · obtain ⟨u, after, hrequire, hm⟩ := Work.mem_onward hm
      have hafter := (Work.coupled_of_run (Work.reads_requireAll _).coupled hw hrequire).2
      have hempty : Workshop.Coupled { after with builders := [] } := hafter.congr rfl rfl rfl
      exact Item.coupled_momentAll items hb hempty.beginAssembly hw.values hm
  | .nested shield steps =>
    rw [Step.moments, List.mem_cons] at hm
    obtain rfl | hm := hm
    · exact ⟨hw, hb⟩
    · exact Step.coupled_momentAll steps hb (hw.enterShield shield) hm

theorem Step.coupled_momentAll (steps : List Step) (hb : Step.byNameAll steps) {w : Workshop}
    {m : Moment} (hw : w.Coupled) (hm : m ∈ Step.momentsAll steps w) : m.Coupled := by
  match steps with
  | [] => simp [Step.momentsAll] at hm
  | step :: rest =>
    rw [Step.byNameAll, Bool.and_eq_true] at hb
    rw [Step.momentsAll, List.mem_append] at hm
    obtain hm | hm := hm
    · exact Step.coupled_moment step hb.1 hw hm
    · obtain ⟨answer, after, hrun, hm⟩ := Work.mem_onward hm
      exact Step.coupled_momentAll rest hb.2
        (Work.coupled_of_run (Step.coupled step hb.1) hw hrun).2 hm
end

-- ---------------------------------------------------------------------------
-- Programs
-- ---------------------------------------------------------------------------

theorem Workshop.coupled_new (fold : Bool) : (Workshop.new fold).Coupled :=
  ⟨rfl, by simp [new], by simp [new, Bindings.Coupled]⟩

theorem programMoments_coupled {program : List Step} (hb : Step.byNameAll program)
    (hw : w.Coupled) :
    (∀ m ∈ programMoments program w, m.Coupled) ∧ ((runProgram program).run w).2.Coupled := by
  induction program generalizing w with
  | nil => exact ⟨by simp [programMoments], hw⟩
  | cons step rest ih =>
    rw [Step.byNameAll, Bool.and_eq_true] at hb
    have hafter := (Step.coupled step hb.1 w hw).2
    have hstep : ∀ m ∈ step.moments w, m.Coupled := fun m hm =>
      Step.coupled_moment step hb.1 hw hm
    rw [programMoments, runProgram_cons_after, List.forall_mem_append]
    split
    · obtain ⟨hm, hend⟩ := ih hb.2 hafter
      exact ⟨⟨hstep, hm⟩, hend⟩
    · exact ⟨⟨hstep, by simp⟩, hafter⟩

end Splice
