import Splice.Proofs.Joints

/-!
# Actions keep values straight

An action keeps at most one value, which is new or made from another one and
records the direction of that one. So a workshop with straight values has
straight values behind every action.
-/

namespace Splice

variable {α : Type} {d : Descent} {w after : Workshop} {f : Fragment}

-- ---------------------------------------------------------------------------
-- Acts that keep no value
-- ---------------------------------------------------------------------------

def Work.Quiet (act : Work α) : Prop := ∀ w, (act.run w).2.bindings = w.bindings

namespace Work

variable {β : Type} {result : Option Name} {P : Value → Prop}

theorem Reads.quiet {act : Work α} (h : act.Reads) : act.Quiet := fun w => by rw [h w]

theorem Quiet.bind {act : Work α} {next : α → Work β} (h : act.Quiet) (hn : ∀ a, (next a).Quiet) :
    (act >>= next).Quiet := by
  intro w
  rw [run_bind]
  have hw := h w
  generalize act.run w = r at hw
  obtain ⟨outcome, after⟩ := r
  cases outcome with
  | ok a => exact (hn a after).trans hw
  | error e => exact hw

theorem quiet_filing (act : StateM Archive α) : (filing act).Quiet := fun _ => rfl

theorem quiet_onArchive (act : ExceptT Error (StateM Archive) α) : (onArchive act).Quiet :=
  fun _ => rfl

theorem quiet_onStance (act : Stance → Except Error α × Stance) : (onStance act).Quiet :=
  fun _ => rfl

theorem quiet_find (p : Pattern) (question : Question) : (p.find question).Quiet := by
  cases question with
  | needsWrapping wide => exact (Reads.throw _).quiet
  | captures | references | alternates | singleGroup =>
    exact (quiet_filing _).bind fun _ => (Reads.pure _).quiet

theorem quiet_admitFragment (f : Fragment) : (admitFragment f).Quiet := by
  unfold admitFragment
  split
  · exact Quiet.bind (reads_get.quiet.bind fun _ => quiet_onStance _) fun _ =>
      (Reads.pure _).quiet
  · exact (Reads.pure _).quiet
  · exact reads_get.quiet.bind fun _ => (quiet_onStance _).bind fun _ => (Reads.pure _).quiet

def Stores (w : Workshop) (act : Work α) (result : Option Name) (P : Value → Prop) : Prop :=
  match act.run w with
  | (.ok _, after) => ∃ v, P v ∧ after.bindings = (result.map (·, v)).toList ++ w.bindings
  | (.error _, after) => after.bindings = w.bindings

theorem stores_keep {v : Value} (h : P v) : Stores w (keep result v) result P := by
  cases result with
  | none | some => exact ⟨v, h, rfl⟩

theorem Quiet.stores {act : Work α} {next : α → Work β} (h : act.Quiet)
    (hn : ∀ a after, act.run w = (.ok a, after) → Stores after (next a) result P) :
    Stores w (act >>= next) result P := by
  have hw := h w
  unfold Stores
  rw [run_bind]
  generalize act.run w = r at hw hn
  obtain ⟨outcome, after⟩ := r
  cases outcome with
  | error e => exact hw
  | ok a =>
    have hnext := hn a after rfl
    rw [Stores, show after.bindings = w.bindings from hw] at hnext
    exact hnext

theorem lookup_ok {name : Name} {v : Value} (h : (lookup name).run w = (.ok v, after)) :
    w.bindings.lookup name = some v ∧ after = w :=
  ⟨of_lookup (congrArg Prod.fst h), (congrArg Prod.snd h).symm.trans (reads_lookup name w)⟩

end Work

-- ---------------------------------------------------------------------------
-- Actions
-- ---------------------------------------------------------------------------

namespace Workshop.Straight

theorem congr (h : w.Straight d) (hdirection : after.stance.direction = w.stance.direction)
    (hvalues : ∀ name v, after.bindings.lookup name = some v →
      ∃ u, w.bindings.lookup name = some u ∧ v.toFragment.direction = u.toFragment.direction) :
    after.Straight d := by
  refine ⟨hdirection ▸ h.facing, fun name v hv => ?_⟩
  obtain ⟨u, hu, hd⟩ := hvalues name v hv
  obtain ⟨along, neutral⟩ := h.values name u hu
  exact ⟨hd ▸ along, hd ▸ neutral⟩

theorem bindings (h : w.Straight d) (hdirection : after.stance.direction = w.stance.direction)
    (hbindings : after.bindings = w.bindings) : after.Straight d :=
  h.congr hdirection fun _ v hv => ⟨v, hbindings ▸ hv, rfl⟩

theorem record (h : w.Straight d) {result : Option Name} {v : Value} {lineage : List Direction}
    (hv : v.toFragment.Straight lineage)
    (hdirection : after.stance.direction = w.stance.direction)
    (hbindings : after.bindings = (result.map (·, v)).toList ++ w.bindings) :
    after.Straight (d.record result lineage) := by
  cases result with
  | none => exact h.bindings hdirection hbindings
  | some name =>
    refine ⟨hdirection ▸ h.facing, fun other u hu => ?_⟩
    rw [hbindings] at hu
    simp only [Option.map_some, Option.toList_some, List.singleton_append, List.lookup_cons] at hu
    show u.toFragment.Straight (Function.update d name lineage other)
    by_cases hname : other = name
    · subst hname
      simp only [BEq.rfl, Option.some.injEq] at hu
      subst hu
      rwa [Function.update_self]
    · rw [beq_false_of_ne hname] at hu
      rw [Function.update_of_ne hname]
      exact h.values other u hu

end Workshop.Straight

theorem Fragment.SameBut.direction {g : Fragment} (h : f.SameBut g) :
    g.direction = f.direction := by
  rw [Fragment.direction, h.traits, Fragment.direction]

theorem Fragment.straight_plain {g : Fragment} (h : g.direction = .neutral) : g.Straight [] :=
  ⟨by simp, iff_of_true rfl h⟩

theorem Fragment.Straight.congr {g : Fragment} {lineage : List Direction}
    (h : f.Straight lineage) (hd : g.direction = f.direction) : g.Straight lineage :=
  ⟨hd ▸ h.along, hd ▸ h.neutral⟩

theorem Pattern.make_traits {source : Text} {flags : Flags} {traits : Traits} {a : Analysis}
    {archive archive' : Archive} {p : Pattern}
    (h : (make source flags traits a).run archive = (.ok p, archive')) : p.traits = traits := by
  rw [(make_ok h).2]

theorem Pattern.compile_direction {source letters : Text} {archive archive' : Archive}
    {p : Pattern} (h : (compile source letters).run archive = (.ok p, archive')) :
    p.traits.direction = .neutral := by
  unfold compile at h
  split at h
  · cases congrArg Prod.fst h
  · rw [make_traits h]
    rfl

theorem Fragment.direction_getD (f : Fragment) {traits : Traits} (h : traits.direction = .neutral) :
    (f.traits?.getD traits).direction = f.direction := by
  unfold direction
  cases f.traits? with
  | none => exact h
  | some t => rfl

theorem Fragment.decorate_direction {g : Fragment} {wide : Bool} {wrapping : Wrapping}
    {archive archive' : Archive}
    (h : (f.decorate wide wrapping).run archive = (.ok g, archive')) :
    g.direction = f.direction := by
  obtain hsame | ⟨source, rfl⟩ := decorate_ok h
  · exact hsame.direction
  · exact f.direction_getD rfl

namespace Work

theorem stores_of_lookup {result : Option Name} {name : Name} {P : Value → Prop}
    {next : Value → Work α} (hn : ∀ v, w.bindings.lookup name = some v →
      Stores w (next v) result P) : Stores w (lookup name >>= next) result P := by
  refine (reads_lookup name).quiet.stores fun v after hv => ?_
  obtain ⟨hlookup, rfl⟩ := lookup_ok hv
  exact hn v hlookup

theorem lookupPattern_ok {name : Name} {p : Pattern}
    (h : (lookupPattern name).run w = (.ok p, after)) :
    w.bindings.lookup name = some (.pattern p) ∧ after = w := by
  obtain ⟨v, _, hv, h⟩ := run_bind_ok h
  obtain ⟨hlookup, rfl⟩ := lookup_ok hv
  cases v with
  | pattern q =>
    obtain ⟨hq, rfl⟩ := Prod.mk.inj h
    obtain rfl := Except.ok.inj hq
    exact ⟨hlookup, rfl⟩
  | fragment f => cases congrArg Prod.fst h

theorem run_lookup {name : Name} {v : Value} (h : w.bindings.lookup name = some v) :
    (lookup name).run w = (.ok v, w) := by
  rw [lookup, run_get, h]
  rfl

theorem force_fragment_after {name : Name} (h : w.bindings.lookup name = some (.fragment f))
    (question : Question) : ((force name question).run w).2 =
      { w with
        archive := (f.find question w.archive).2
        bindings := (name, .fragment (f.find question w.archive).1.2) :: w.bindings } := by
  rw [force, run_bind, run_lookup h]
  show ((filing (f.find question) >>= _ : Work Answer).run w).2 = _
  have hfiling : (filing (f.find question)).run w = (.ok (f.find question w.archive).1,
      { w with archive := (f.find question w.archive).2 }) := rfl
  rw [run_bind, hfiling]
  generalize f.find question w.archive = r
  obtain ⟨⟨outcome, g⟩, archive⟩ := r
  cases outcome with
  | ok finding => rfl
  | error e => rfl

theorem force_fragment {name : Name} (h : w.bindings.lookup name = some (.fragment f))
    (question : Question) : ((force name question).run w).2.bindings =
      (name, .fragment (f.find question w.archive).1.2) :: w.bindings :=
  congrArg Workshop.bindings (force_fragment_after h question)

theorem force_pattern {name : Name} {p : Pattern}
    (h : w.bindings.lookup name = some (.pattern p)) (question : Question) :
    ((force name question).run w).2.bindings = w.bindings := by
  have hquiet : Quiet (do
      let finding ← p.find question
      return Answer.forced finding ((Value.pattern p).view (← get).archive)) :=
    (quiet_find p question).bind fun _ => reads_get.quiet.bind fun _ => (Reads.pure _).quiet
  rw [force, run_bind, run_lookup h]
  exact hquiet w

theorem force_undefined {name : Name} (h : w.bindings.lookup name = none) (question : Question) :
    ((force name question).run w).2.bindings = w.bindings := by
  have hlookup : ∃ e, (lookup name).run w = (.error e, w) := by
    rw [lookup, run_get, h]
    exact ⟨_, rfl⟩
  obtain ⟨e, he⟩ := hlookup
  rw [force, run_bind, he]

end Work

theorem Fragment.sameBut_find (f : Fragment) (question : Question) (archive : Archive) :
    f.SameBut (f.find question archive).1.2 := by
  cases question with
  | captures => exact f.sameBut_ask .captures archive
  | references => exact f.sameBut_ask .references archive
  | alternates => exact f.sameBut_ask .alternates archive
  | singleGroup => exact f.sameBut_ask .singleGroup archive
  | needsWrapping wide => exact f.sameBut_needsWrapping wide archive

theorem Workshop.Straight.force (h : w.Straight d) (name : Name) (question : Question) :
    ((Work.force name question).run w).2.Straight d := by
  have hdirection : ((Work.force name question).run w).2.stance.direction = w.stance.direction :=
    (Work.steady_force name question w (.refl w)).2.direction
  cases hlookup : w.bindings.lookup name with
  | none => exact h.bindings hdirection (Work.force_undefined hlookup question)
  | some value =>
    cases value with
    | pattern p => exact h.bindings hdirection (Work.force_pattern hlookup question)
    | fragment f =>
      refine h.congr hdirection fun other v hv => ?_
      rw [Work.force_fragment hlookup, List.lookup_cons] at hv
      by_cases hname : other = name
      · subst hname
        simp only [BEq.rfl, Option.some.injEq] at hv
        subst hv
        exact ⟨_, hlookup, (f.sameBut_find question _).direction⟩
      · rw [beq_false_of_ne hname] at hv
        exact ⟨v, hv, rfl⟩

theorem Work.descent_self (act : Work Answer) (w : Workshop) (d : Descent) :
    act.descent w d d = d := by
  unfold descent
  split <;> rfl

section
variable {act : Work Answer} (h : w.Straight d)
  (hdirection : (act.run w).2.stance.direction = w.stance.direction)
include h hdirection

theorem Workshop.Straight.stores {result : Option Name} {lineage : List Direction}
    (hstores : Work.Stores w act result fun v => v.toFragment.Straight lineage) :
    (act.run w).2.Straight (act.descent w d (d.record result lineage)) := by
  unfold Work.Stores at hstores
  unfold Work.descent
  generalize act.run w = r at hdirection hstores ⊢
  obtain ⟨outcome, after⟩ := r
  cases outcome with
  | error e => exact h.bindings hdirection hstores
  | ok answer =>
    obtain ⟨v, hv, hbindings⟩ := hstores
    exact h.record hv hdirection hbindings

theorem Workshop.Straight.quiet (hbindings : (act.run w).2.bindings = w.bindings) :
    (act.run w).2.Straight (act.descent w d d) := by
  rw [act.descent_self]
  exact h.bindings hdirection hbindings

end

theorem Action.straight {a : Action} (ho : (Step.action a).oriented) (h : w.Straight d) :
    (a.run.run w).2.Straight (a.descent w d) := by
  have hdirection : (a.run.run w).2.stance.direction = w.stance.direction :=
    (Work.steady_action a w (.refl w)).2.direction
  have stored {result lineage} (hstores : Work.Stores w a.run result fun v =>
      v.toFragment.Straight lineage) := h.stores hdirection hstores
  have kept := h.quiet hdirection
  unfold Action.descent
  cases a with
  | compile result source letters =>
    refine stored ((Work.quiet_onArchive _).stores fun p after hp => Work.stores_keep ?_)
    obtain ⟨archive, hcompile, -⟩ := Work.onArchive_ok hp
    exact Fragment.straight_plain (Pattern.compile_direction hcompile)
  | raw result source letters =>
    refine stored ((Work.reads_flags? letters).quiet.stores fun flags after _ =>
      Work.stores_keep (Fragment.straight_plain ?_))
    cases flags <;> rfl
  | native result name =>
    refine stored ((Work.reads_lookupPattern name).quiet.stores fun p after hp =>
      Work.stores_keep ?_)
    have hvalue := h.values name _ (Work.lookupPattern_ok hp).1
    exact hvalue
  | copy result name =>
    exact stored (Work.stores_of_lookup fun v hv => Work.stores_keep (h.values name v hv))
  | decorate result name wrapping =>
    refine stored (Work.stores_of_lookup fun v hv => ?_)
    refine Work.reads_get.quiet.stores fun w' after hget => ?_
    refine (Work.quiet_onArchive _).stores fun g _ hg => Work.stores_keep ?_
    obtain ⟨archive, hdecorate, -⟩ := Work.onArchive_ok hg
    exact (h.values name v hv).congr (Fragment.decorate_direction hdecorate)
  | finish result name add remove direction =>
    refine stored (Work.stores_of_lookup fun v hv => ?_)
    refine (Work.reads_flags? add).quiet.stores fun add _ _ => ?_
    refine (Work.reads_flags? remove).quiet.stores fun remove _ _ => ?_
    refine Work.reads_get.quiet.stores fun w' _ _ => ?_
    refine (Work.quiet_onArchive _).stores fun p _ hp => Work.stores_keep ?_
    obtain ⟨archive, hfinish, -⟩ := Work.onArchive_ok hp
    obtain rfl : direction = none := by simpa [Step.oriented] using ho
    refine (h.values name v hv).congr ?_
    have htraits := (Fragment.finish_ok hfinish).2.1
    show p.traits.direction = _
    rw [htraits]
    exact v.toFragment.direction_getD rfl
  | force name question =>
    have hforce := h.force name question
    rwa [← Work.descent_self (Action.run (.force name question)) w d] at hforce
  | stance => exact kept ((Work.reads_get.bind fun _ => .pure _).quiet w)
  | reset => exact kept rfl
  | inspect name =>
    exact kept ((Work.reads_lookup name).quiet.bind (fun _ => Work.reads_get.quiet.bind fun _ =>
      (Work.Reads.pure _).quiet) w)
  | same first second =>
    refine kept (((Work.reads_lookupPattern first).bind fun _ =>
      (Work.reads_lookupPattern second).bind fun _ => .pure _).quiet w)
  | checkDirection name building =>
    refine kept (((Work.reads_lookupPattern name).bind fun p => ?_).quiet w)
    split
    · exact .pure _
    · exact .throw _
  | malformed before field =>
    exact kept (((Work.reads_requireAll before).bind fun _ => .throw _).quiet w)

end Splice
