import Splice.Proofs.Filing

/-!
# Actions keep values filed

Every action leaves filed values behind, as long as the sources that it brings
in can be composed. This holds as well where the action fails.
-/

namespace Splice

open Source

variable {α β : Type} {known : Catalogue} {f g : Fragment} {p : Pattern} {s : Text}
  {w : Workshop} {R : Catalogue → β → Prop}

-- ---------------------------------------------------------------------------
-- Acts that change nothing
-- ---------------------------------------------------------------------------

/-- An act that leaves the workshop as it is. -/
def Work.Reads (act : Work α) : Prop := ∀ w, (act.run w).2 = w

namespace Work

theorem Reads.pure (a : α) : Reads (pure a : Work α) := fun _ => rfl

theorem Reads.throw (failure : Failure) : Reads (throw failure : Work α) := fun _ => rfl

theorem Reads.bind {act : Work α} {next : α → Work β} (h : Reads act)
    (hn : ∀ a, Reads (next a)) : Reads (act >>= next) := by
  intro w
  have hrun : ((act >>= next).run w) = ExceptT.bindCont next (act.run w).1 (act.run w).2 := rfl
  rw [hrun, h w]
  cases (act.run w).1 with
  | ok a => exact hn a w
  | error e => rfl

theorem reads_get : Reads (get : Work Workshop) := fun _ => rfl

theorem reads_lookup (name : Name) : Reads (lookup name) :=
  reads_get.bind fun w => by
    cases w.bindings.lookup name with
    | some v => exact .pure v
    | none => exact .throw _

theorem reads_lookupPattern (name : Name) : Reads (lookupPattern name) :=
  (reads_lookup name).bind fun v => by
    cases v with
    | pattern p => exact .pure p
    | fragment f => exact .throw _

theorem reads_flags (letters : Text) : Reads (flags letters) := by
  unfold flags
  split
  · exact .pure _
  · exact .throw _

theorem reads_flags? (letters : Option Text) : Reads (flags? letters) := by
  cases letters with
  | none => exact .pure _
  | some letters => exact (reads_flags letters).bind fun _ => .pure _

theorem reads_require (r : Requirement) : Reads (require r) := by
  cases r with
  | defined name => exact (reads_lookup name).bind fun _ => .pure _
  | pattern name => exact (reads_lookupPattern name).bind fun _ => .pure _
  | flags letters => exact (reads_flags letters).bind fun _ => .pure _
  | malformed field => exact .throw _

theorem reads_requireAll (rs : List Requirement) : Reads (requireAll rs) := by
  induction rs with
  | nil => exact .pure ()
  | cons r rs ih =>
    have hcons : requireAll (r :: rs) = (require r >>= fun _ => requireAll rs) := rfl
    rw [hcons]
    exact (reads_require r).bind fun _ => ih

theorem reads_nested (answers : List Answer) (failure : Option Failure) :
    Reads (nested answers failure) := by
  cases failure with
  | none => exact .pure _
  | some f => exact .throw _

theorem conclude_behind (x : Item) (answers : List Answer) (failure : Option Failure)
    (w : Workshop) : (conclude x answers failure w).2 = w := by
  cases failure with
  | some f => rfl
  | none => exact reads_requireAll x.requirements w

theorem conclude_ok {x : Item} {answers : List Answer} {failure : Option Failure}
    {seen : Bindings} (h : (conclude x answers failure w).1.2 = .ok seen) :
    seen = w.bindings ∧ ((requireAll x.requirements).run w).1 = .ok () := by
  cases failure with
  | some f => cases h
  | none =>
    have hrun : conclude x answers none w =
        ((answers, ((requireAll x.requirements).run w).1.map fun _ =>
          ((requireAll x.requirements).run w).2.bindings),
          ((requireAll x.requirements).run w).2) := rfl
    rw [hrun, reads_requireAll] at h
    cases hr : ((requireAll x.requirements).run w).1 with
    | error f =>
      rw [hr] at h
      cases h
    | ok u =>
      rw [hr] at h
      exact ⟨(Except.ok.inj h).symm, rfl⟩

theorem run_get (next : Workshop → Work α) :
    ((get : Work Workshop) >>= next).run w = (next w).run w := rfl

theorem of_lookup {name : Name} {v : Value} (h : ((lookup name).run w).1 = .ok v) :
    w.bindings.lookup name = some v := by
  rw [lookup, run_get] at h
  cases hv : w.bindings.lookup name with
  | none =>
    rw [hv] at h
    cases h
  | some u =>
    rw [hv] at h
    exact congrArg _ (Except.ok.inj h)

end Work

-- ---------------------------------------------------------------------------
-- Shields
-- ---------------------------------------------------------------------------

theorem Workshop.leave_archive (w : Workshop) : w.leave.archive = w.archive := by
  unfold leave
  split <;> rfl

theorem Workshop.leave_bindings (w : Workshop) : w.leave.bindings = w.bindings := by
  unfold leave
  split <;> rfl

def Shield.leave (start w : Workshop) : Shield → Workshop
  | .reentrant | .scope => w.leave
  | .direction _ => { w with stance := { w.stance with direction := start.stance.direction } }

theorem Shield.leave_archive (shield : Shield) (start w : Workshop) :
    (shield.leave start w).archive = w.archive := by
  cases shield with
  | reentrant | scope => exact w.leave_archive
  | direction d => rfl

theorem Shield.leave_bindings (shield : Shield) (start w : Workshop) :
    (shield.leave start w).bindings = w.bindings := by
  cases shield with
  | reentrant | scope => exact w.leave_bindings
  | direction d => rfl

theorem Workshop.run_shielded (shield : Shield) (act : StateM Workshop α) (w : Workshop) :
    shielded shield act w =
      ((act (shield.enter w)).1, shield.leave w (act (shield.enter w)).2) := by
  cases shield <;> rfl

theorem Step.run_nested (shield : Shield) (steps : List Step) (w : Workshop) :
    (Step.nested shield steps).run.run w =
      let ended := Step.runAll steps (shield.enter w)
      (Work.nested ended.1.1 ended.1.2).run (shield.leave w ended.2) := by
  have hlift : (ExceptT.lift (Workshop.shielded shield (Step.runAll steps)) : Work _).run w =
      (.ok (Workshop.shielded shield (Step.runAll steps) w).1,
        (Workshop.shielded shield (Step.runAll steps) w).2) := rfl
  rw [Step.run, run_bind, hlift, Workshop.run_shielded]

theorem Step.nested_behind (shield : Shield) (steps : List Step) (w : Workshop) :
    ((Step.nested shield steps).run.run w).2 =
      shield.leave w (Step.runAll steps (shield.enter w)).2 := by
  rw [Step.run_nested]
  exact Work.reads_nested _ _ _

-- ---------------------------------------------------------------------------
-- Acts on filed values
-- ---------------------------------------------------------------------------

namespace Achieves

variable {act : Work α} {next : α → Work β}

theorem read (hw : w.Files known) (hr : act.Reads)
    (hn : ∀ a, (act.run w).1 = .ok a → Achieves known w (next a) R) :
    Achieves known w (act >>= next) R := by
  have hrun : (act >>= next).run w = ExceptT.bindCont next (act.run w).1 (act.run w).2 := rfl
  rw [Achieves, Advances, hrun, hr w]
  cases ho : (act.run w).1 with
  | ok a => exact hn a ho
  | error e => exact throw hw

theorem modify {change : Workshop → Workshop} {next : PUnit → Work β}
    (h : Achieves known (change w) (next ⟨⟩) R) :
    Achieves known w (modify change >>= next) R := h

theorem lookup {name : Name} {next : Value → Work β} (hw : w.Files known)
    (hn : ∀ v, w.bindings.lookup name = some v → v.Filed known → Achieves known w (next v) R) :
    Achieves known w (Work.lookup name >>= next) R :=
  read hw (Work.reads_lookup name) fun v hv =>
    hn v (Work.of_lookup hv) (hw.values.lookup (Work.of_lookup hv))

theorem keep {result : Option Name} {v : Value} (hw : w.Files known) (hv : v.Filed known) :
    Achieves known w (Work.keep result v) fun _ _ => True := by
  cases result with
  | none => exact ⟨known, known.extends_refl, hw, fun _ _ => trivial⟩
  | some name => exact ⟨known, known.extends_refl, hw.store name hv, fun _ _ => trivial⟩

end Achieves

-- ---------------------------------------------------------------------------
-- Making patterns
-- ---------------------------------------------------------------------------

/-- Making a pattern fails and changes nothing, or it adds an honest record for
a source that can be composed. -/
def Makes (act : ExceptT Error (StateM Archive) Pattern) (archive : Archive) : Prop :=
  (∃ e, act.run archive = (.error e, archive)) ∨
    ∃ p a, act.run archive = (.ok p, archive.push a) ∧ p.number = archive.size ∧
      Closed p.source ∧ Clear p.source ∧ a.Reports true p.source

theorem Pattern.makes_make {flags : Flags} {traits : Traits} {a : Analysis} {archive : Archive}
    (hc : Closed s) (hr : Clear s) (ha : a.Reports true s) :
    Makes (Pattern.make s flags traits a) archive := by
  by_cases h : Grammar.accepts flags.unicode s
  · refine .inr ⟨⟨archive.size, s, flags, traits⟩, a, ?_, rfl, hc, hr, ha⟩
    rw [make, if_pos h]
    rfl
  · refine .inl ⟨.invalidPattern s flags, ?_⟩
    rw [make, if_neg h]
    rfl

theorem Pattern.makes_compile {letters : Text} {archive : Archive} (hc : Closed s)
    (hr : Clear s) : Makes (Pattern.compile s letters) archive := by
  unfold compile
  split
  · exact .inl ⟨_, rfl⟩
  · exact makes_make hc hr (Analysis.reports_empty s)

theorem Source.Closed.agrees_promote (hc : Closed s) (p : Property α) :
    p.Agrees true s (Source.promote s) := by
  have hp := Source.padded_promote s true
  cases p with
  | captures => exact hc.agrees_captures hp
  | references => exact hc.agrees_references hp
  | alternates => exact hc.agrees_alternates hp
  | singleGroup => exact (Source.isSingleGroup_promote s).symm

theorem Fragment.Filed.reports_promote {archive : Archive} (hf : f.Filed known)
    (hk : known.Valid) (ha : archive.Reports true known) (hg : f.promote = .ok g) :
    Closed g.source ∧ Clear g.source ∧ (g.analysis archive).Reports true g.source := by
  unfold Fragment.promote at hg
  split at hg
  · simp at hg
  · obtain rfl := Except.ok.inj hg
    have hc := hf.closed hk
    have hp := Source.padded_promote f.source true
    exact ⟨hc.padded hp, (hf.clear hk).padded hp, fun α p =>
      (hf.reports ha α p).congr (hc.agrees_promote p)⟩

theorem Fragment.makes_finish {archive : Archive} (hf : f.Filed known) (hk : known.Valid)
    (ha : archive.Reports true known) (fold : Bool) (agreement : Agreement) (options : Finish) :
    Makes (f.finish fold agreement options) archive := by
  have hmake : ∀ g : Fragment, Closed g.source → Clear g.source →
      (g.analysis archive).Reports true g.source → ∀ flags traits,
        Makes (Pattern.make g.source flags traits (g.analysis archive)) archive :=
    fun g hc hr hg flags traits => Pattern.makes_make hc hr hg
  unfold finish
  simp only
  split
  · cases hg : f.promote with
    | error e => exact .inl ⟨e, rfl⟩
    | ok g =>
      obtain ⟨hc, hr, hg⟩ := hf.reports_promote hk ha hg
      exact hmake g hc hr hg _ _
  · exact hmake f (hf.closed hk) (hf.clear hk) (hf.reports ha) _ _

theorem Achieves.makes {act : ExceptT Error (StateM Archive) Pattern} (hw : w.Files known)
    (h : Makes act w.archive) :
    Achieves known w (Work.onArchive act) fun later p => (Value.pattern p).Filed later := by
  obtain ⟨e, he⟩ | ⟨p, a, hp, hn, hc, hr, ha⟩ := h
  · refine ⟨known, known.extends_refl, ?_, fun p h => ?_⟩
    · exact hw.congr (congrArg Prod.snd he) rfl
    · have hfail : (act.run w.archive).1 = .ok p := mapError_ok.mp h
      rw [he] at hfail
      cases hfail
  · have hsize := hw.archive.size
    have hk := hw.valid.extends_add (s := p.source) hsize
    refine ⟨known.add w.archive.size p.source, hk, ⟨?_, ?_, ?_⟩, fun q h => ?_⟩
    · exact hw.valid.add hsize hc hr
    · have harchive : ((Work.onArchive act).run w).2.archive = w.archive.push a :=
        congrArg Prod.snd hp
      rw [harchive]
      exact hw.archive.push ha
    · exact hw.values.mono hk
    · have hmade : (act.run w.archive).1 = .ok q := mapError_ok.mp h
      rw [hp] at hmade
      obtain rfl := Except.ok.inj hmade
      exact (Catalogue.source?_add ..).trans (if_pos hn)

-- ---------------------------------------------------------------------------
-- Questions
-- ---------------------------------------------------------------------------

namespace Fragment

theorem Filed.keeps_ask (hf : f.Filed known) (p : Property α) :
    Keeps (Archive.Reports true known) (f.ask p) fun r => f.Recorded true r.2 :=
  (Fragment.keeps_ask (hf.answers p)).mono fun _ hr => hr.2

theorem Filed.keeps_needsWrapping (hf : f.Filed known) (wide : Bool) :
    Keeps (Archive.Reports true known) (f.needsWrapping wide) fun r => f.Recorded true r.2 := by
  unfold needsWrapping
  split
  · exact .pure (.refl f)
  · exact .pure (.refl f)
  · exact (hf.keeps_ask _).bind fun _ hg => .pure hg

theorem Filed.keeps_find (hf : f.Filed known) (question : Question) :
    Keeps (Archive.Reports true known) (f.find question) fun r => f.Recorded true r.2 := by
  cases question with
  | captures => exact (hf.keeps_ask _).bind fun _ hg => .pure hg
  | references => exact (hf.keeps_ask _).bind fun _ hg => .pure hg
  | alternates => exact (hf.keeps_ask _).bind fun _ hg => .pure hg
  | singleGroup => exact (hf.keeps_ask _).bind fun _ hg => .pure hg
  | needsWrapping wide => exact (hf.keeps_needsWrapping wide).bind fun _ hg => .pure hg

theorem Filed.applies_yields (hf : f.Filed known) (wide : Bool) (occasion : Occasion) :
    Yields (Archive.Reports true known) (Wrapping.applies wide occasion f)
      fun r => f.Recorded true r.2 := by
  cases occasion with
  | always => exact .pure (.refl f)
  | quantifier =>
    refine (Yields.lift (hf.keeps_needsWrapping wide)).bind ?_
    rintro ⟨outcome, g⟩ hg
    exact (Yields.ofExcept fun _ _ => trivial).bind fun _ _ => .pure hg
  | disjunction => exact .lift (hf.keeps_ask _)

theorem Filed.decorate_yields (hf : f.Filed known) (wide : Bool) (wrapping : Wrapping) :
    Yields (Archive.Reports true known) (f.decorate wide wrapping) fun g =>
      f.Recorded true g ∨ ∃ source traits, g = .composite source traits .empty := by
  refine (hf.applies_yields _ _).bind ?_
  rintro ⟨delimited, g⟩ hg
  simp only
  split
  · exact .pure (.inl hg)
  · exact .pure (.inr ⟨_, _, rfl⟩)

end Fragment

theorem Pattern.keeps_ask (hp : (Value.pattern p).Filed known) (q : Property α) :
    Keeps (Archive.Reports true known) (p.ask q) fun _ => True :=
  (Archive.keeps_ask hp (q.agrees_refl _)).mono fun _ _ => trivial

namespace Achieves

theorem find (hw : w.Files known) (hp : (Value.pattern p).Filed known) (question : Question) :
    Achieves known w (p.find question) fun _ _ => True := by
  cases question with
  | needsWrapping wide => exact .throw hw
  | captures | references | alternates | singleGroup =>
    exact (filing hw (Pattern.keeps_ask hp _)).bind fun _ _ _ _ _ hf _ => .pure hf trivial

theorem force (hw : w.Files known) (name : Name) (question : Question) :
    Achieves known w (Work.force name question) fun _ _ => True := by
  refine lookup hw fun v _ hv => ?_
  cases v with
  | pattern p =>
    refine (find hw hv question).bind fun later finding after _ _ hf _ => ?_
    exact read hf Work.reads_get fun _ _ => .pure hf trivial
  | fragment f =>
    have hv : f.Filed known := hv
    refine (filing hw (hv.keeps_find question)).bind fun later r after _ hk hf hr => ?_
    obtain ⟨outcome, g⟩ := r
    have hg : (Value.fragment g).Filed later := (hv.mono hk).recorded hr
    have hs := hf.store name hg
    refine modify ?_
    cases outcome with
    | ok finding => exact read hs Work.reads_get fun _ _ => .pure hs trivial
    | error e => exact .throw hs

end Achieves

-- ---------------------------------------------------------------------------
-- Actions
-- ---------------------------------------------------------------------------

namespace Achieves

theorem finish (hw : w.Files known) (result : Option Name) (name : Name)
    (add remove : Option Text) (direction : Option Direction) :
    Achieves known w (Work.finish result name add remove direction) fun _ _ => True := by
  refine lookup hw fun v _ hv => ?_
  refine read hw (Work.reads_flags? add) fun add _ => ?_
  refine read hw (Work.reads_flags? remove) fun remove _ => ?_
  refine read hw Work.reads_get fun w' hw' => ?_
  obtain rfl := Except.ok.inj hw'
  refine (makes hw (Fragment.makes_finish hv hw.valid hw.archive _ _ _)).bind ?_
  exact fun later p after _ _ hf hp => keep hf hp

theorem decorate (hw : w.Files known) {result : Option Name} {name : Name} {wrapping : Wrapping}
    (hs : ∀ s ∈ (Action.decorate result name wrapping).sources w, Source.Composable s) :
    Achieves known w (Work.decorate result name wrapping) fun _ _ => True := by
  refine lookup hw fun v hbound hv => ?_
  refine read hw Work.reads_get fun w' hw' => ?_
  obtain rfl := Except.ok.inj hw'
  have hv : v.toFragment.Filed known := hv
  refine (onArchive hw (hv.decorate_yields _ wrapping)).bind fun later g after hrun hk hf hg => ?_
  refine keep hf ?_
  obtain hg | ⟨source, traits, rfl⟩ := hg
  · exact (hv.recorded hg).mono hk
  · have hsource : source ∈ (Action.decorate result name wrapping).sources w := by
      have hout : ((v.toFragment.decorate w.stance.agreement.wide wrapping).run w.archive).1 =
          .ok (.composite source traits .empty) := mapError_ok.mp (congrArg Prod.fst hrun)
      simp [Action.sources, hbound, hout, Except.toOption, Fragment.composite]
    exact ⟨(hs _ hsource).1, (hs _ hsource).2, Analysis.reports_empty _⟩

theorem action (hw : w.Files known) (a : Action) (hs : ∀ s ∈ a.sources w, Source.Composable s) :
    Achieves known w a.run fun _ _ => True := by
  cases a with
  | compile result source letters =>
    have hc := hs source (by simp [Action.sources])
    exact (makes hw (Pattern.makes_compile hc.1 hc.2)).bind fun _ _ _ _ _ hf hp => keep hf hp
  | raw result source letters =>
    have hc := hs source (by simp [Action.sources])
    refine read hw (Work.reads_flags? letters) fun flags _ => keep hw ?_
    exact ⟨hc.1, hc.2, Analysis.reports_empty _⟩
  | native result name =>
    have hpattern : Achieves known w (Work.lookupPattern name)
        fun later p => (Value.pattern p).Filed later := by
      refine lookup hw fun v _ hv => ?_
      cases v with
      | pattern p => exact .pure hw hv
      | fragment f => exact .throw hw
    exact hpattern.bind fun _ _ _ _ _ hf hp => keep hf hp
  | copy result name => exact lookup hw fun v _ hv => keep hw hv
  | decorate result name wrapping => exact decorate hw hs
  | finish result name add remove direction => exact finish hw ..
  | stance => exact read hw Work.reads_get fun _ _ => .pure hw trivial
  | reset =>
    have hreset : w.reset.Files known := hw.congr rfl rfl
    exact modify (.pure hreset trivial)
  | inspect name => exact lookup hw fun v _ hv => keep hw hv
  | force name question => exact force hw name question
  | same first second =>
    refine read hw (Work.reads_lookupPattern first) fun p _ => ?_
    exact read hw (Work.reads_lookupPattern second) fun q _ => .pure hw trivial
  | checkDirection name building =>
    refine read hw (Work.reads_lookupPattern name) fun p _ => ?_
    split
    · exact .pure hw trivial
    · exact .throw hw
  | malformed before field =>
    exact read hw (Work.reads_requireAll before) fun _ _ => .throw hw

end Achieves

end Splice
