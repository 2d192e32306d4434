import Splice.Proofs.Discipline
import Splice.Proofs.Moving
import Splice.Proofs.Offering
import Splice.Proofs.Staging

/-!
# Finishing again

A pattern that was made of an assembly can be assembled by itself and finished
again. It has nothing left to spell out, to promote, to wrap or to renumber, so
the second pattern is the first one over again.
-/

namespace Splice

open Source

variable {fold : Bool} {layout : Layout} {items : List Item} {w w₁ w₂ : Workshop}
  {p : Pattern} {archive : Archive}

-- ---------------------------------------------------------------------------
-- Patterns of assemblies
-- ---------------------------------------------------------------------------

/-- Assembles items and makes a pattern of what comes of them, under the flags
that they agree on. -/
def Work.compose (layout : Layout) (items : List Item) : Work Pattern := do
  let f ← assemble layout items
  let w ← get
  onArchive (f.finish w.fold w.stance.agreement ⟨none, none⟩)

structure Pattern.Composed (fold : Bool) (d : Direction) (a : Analysis) (p : Pattern) : Prop where
  accepted : Grammar.accepts p.flags.unicode p.source
  flags : ∃ agreement : Agreement, p.flags = agreement.merged fold
  wide : p.traits.wide = p.flags.unicode
  captures : ∃ n, a.captures = some n ∧ n < wordLimit
  references : ∃ r : References, a.references = some r ∧ (r.final → p.source ≠ []) ∧
    p.traits.direction = if r.present then d else .neutral

theorem Piece.join_ne_nil {alternation : Bool} {pieces : List Piece}
    (h : lastEndsInReference pieces) : join alternation pieces ≠ [] := by
  obtain ⟨q, hq, hsource⟩ : ∃ q ∈ pieces, q.source ≠ [] := by
    obtain ⟨q, hq, -⟩ := (Option.any_eq_true _ _).mp h
    exact ⟨q, List.mem_reverse.mp (List.mem_of_find?_eq_some hq), by
      simpa using List.find?_some hq⟩
  cases alternation with
  | false => exact fun hnil => hsource (sequence_eq_nil hnil q hq)
  | true =>
    match pieces with
    | [] => cases hq
    | [p] =>
      obtain rfl := List.mem_singleton.mp hq
      simpa [join, alternatives] using hsource
    | p :: p' :: rest =>
      change alternatives (p :: p' :: rest) ≠ []
      rw [alternatives_cons]
      simp

theorem Archive.analysis_push (archive : Archive) (a : Analysis) :
    Archive.analysis (archive.push a) archive.size = a := by
  simp [Archive.analysis]

theorem Pattern.make_run (source : Text) (flags : Flags) (traits : Traits) (a : Analysis)
    (archive : Archive) : (make source flags traits a).run archive =
      if Grammar.accepts flags.unicode source then
        (.ok ⟨archive.size, source, flags, traits⟩, archive.push a)
      else (.error (.invalidPattern source flags), archive) := by
  unfold make
  split <;> rfl

/-- Under the flags that are agreed on a pattern is made of a fragment as it stands. -/
theorem Fragment.finish_plain (agreement : Agreement) (f : Fragment) :
    (f.finish fold agreement ⟨none, none⟩).run archive =
      (Pattern.make f.source (agreement.merged fold)
        { f.traits?.getD .plain with wide := agreement.wide }
        (f.analysis archive)).run archive := by
  have hnarrow : (agreement.wide && !agreement.wide && !f.isWide) = false := by simp
  have hflags : (Finish.flags fold agreement ⟨none, none⟩) = agreement.merged fold := rfl
  have hwide : (agreement.merged fold).unicode = agreement.wide := rfl
  simp only [finish, hflags, hwide, hnarrow, Bool.false_eq_true, if_false]
  rfl

theorem Work.compose_ok (h : (compose layout items).run w = (.ok p, w₁)) :
    p.Composed w₁.fold w₁.stance.direction (w₁.archive.analysis p.number) := by
  obtain ⟨f, v, hf, h⟩ := run_bind_ok h
  obtain ⟨v', _, hv, h⟩ := run_bind_ok h
  obtain rfl : v = v' := Except.ok.inj (congrArg Prod.fst hv)
  obtain rfl := congrArg Prod.snd hv
  obtain ⟨archive, hfinish, rfl⟩ := onArchive_ok h
  obtain ⟨_, _, -, hf⟩ := run_bind_ok hf
  obtain ⟨_, _, -, hf⟩ := run_bind_ok hf
  obtain ⟨_, after, _, -, hrun, rfl⟩ := build_ok hf
  obtain ⟨n, rfl, hfits⟩ := assemble_toFragment hrun
  rw [Fragment.finish_plain, Pattern.make_run] at hfinish
  split at hfinish
  · rename_i haccepted
    obtain ⟨hp, rfl⟩ := Prod.mk.inj hfinish
    obtain rfl := Except.ok.inj hp
    refine ⟨haccepted, ⟨_, rfl⟩, rfl, ?_, ?_⟩ <;> simp only [Archive.analysis_push]
    · exact ⟨_, rfl, Nat.lt_of_le_of_lt (Nat.le_add_left ..) hfits⟩
    · exact ⟨_, rfl, Piece.join_ne_nil, rfl⟩
  · cases congrArg Prod.fst hfinish

-- ---------------------------------------------------------------------------
-- Assembled once more
-- ---------------------------------------------------------------------------

theorem Archive.ask_recorded {α : Type} {n : Nat} {q : Property α} {answer : α}
    (h : (archive.analysis n).get? q = some answer) (s : Text) :
    Archive.ask n q s archive = (answer, archive) := by
  have hask : (archive.analysis n).ask q s = (answer, archive.analysis n) := by
    rw [Analysis.ask, h]
  have hset : archive.setIfInBounds n (archive.analysis n) = archive := by
    refine Array.ext_getElem? fun i => ?_
    rw [Array.getElem?_setIfInBounds]
    split
    · rename_i hi
      subst hi
      split
      · rename_i hlt
        simp [Archive.analysis, hlt]
      · rename_i hlt
        simp [Nat.not_lt.mp hlt]
    · rfl
  rw [Archive.ask, hask]
  exact Prod.ext rfl hset

theorem Fragment.ask_recorded {α : Type} {q : Property α} {answer : α}
    (h : (archive.analysis p.number).get? q = some answer) :
    (native p).ask q archive = ((answer, native p), archive) := by
  have hask := Archive.ask_recorded h p.source
  change (((Archive.ask p.number q p.source archive).1, native p),
    (Archive.ask p.number q p.source archive).2) = _
  rw [hask]

theorem Fragment.number_recorded {n : Nat} {r : References} (hm : MarkerFree p.source)
    (hn : (archive.analysis p.number).captures = some n)
    (hr : (archive.analysis p.number).references = some r) :
    ((native p).number 0).run archive = (.ok (⟨p.source, r.final⟩, n, r.present), archive) := by
  have asked : ∀ {β : Type} (q : Property β) (answer : β),
      (archive.analysis p.number).get? q = some answer →
        ExceptT.run (liftM ((native p).ask q) : ExceptT Error (StateM Archive) _) archive =
          (.ok (answer, native p), archive) := by
    intro β q answer h
    change (Except.ok ((native p).ask q archive).1, ((native p).ask q archive).2) = _
    rw [ask_recorded h]
  have hcount : (do
      let x ← (native p).ask .captures
      return (⟨x.2.source, r.final⟩, x.1, r.present) :
        ExceptT Error (StateM Archive) (Piece × Nat × Bool)).run archive =
          (.ok (⟨p.source, r.final⟩, n, r.present), archive) := by
    rw [run_bind, asked .captures n hn]
    rfl
  rw [number, run_bind, asked .references r hr]
  simp only
  split
  · have hzero : Source.renumber (native p).source 0 = .ok p.source := renumber_zero hm
    rw [run_bind, hzero]
    exact hcount
  · rw [run_bind]
    exact hcount

namespace Pattern.Composed

variable {d : Direction} {a : Analysis}

theorem adapt (hp : p.Composed fold d a) :
    (Fragment.native p).adapt fold p.flags.unicode = .ok (.native p) := by
  obtain ⟨agreement, hflags⟩ := hp.flags
  have hdot : p.flags.dotAll = false := by rw [hflags]; rfl
  have hline : (fold && p.flags.multiline) = false := by
    rw [hflags]
    cases fold <;> rfl
  have hemulate : (Fragment.native p).emulate fold = .native p := by
    simp [Fragment.emulate, Fragment.native, hdot, hline]
  have hwide : (Fragment.native p).isWide = p.flags.unicode := hp.wide
  cases hu : p.flags.unicode <;> simp [Fragment.adapt, hemulate, hwide, hu]

theorem merged (hp : p.Composed fold d a) : p.demand.agreement.merged fold = p.flags := by
  obtain ⟨agreement, hflags⟩ := hp.flags
  rw [Pattern.demand, Demand.agreement, hflags]
  cases fold <;> simp [Agreement.merged]

theorem not_opposes (hp : p.Composed fold d a) : p.traits.direction.opposes d = false := by
  obtain ⟨r, -, -, hdirection⟩ := hp.references
  rw [hdirection]
  split <;> cases d <;> rfl

theorem toFragment {stance : Stance} {n : Nat} {r : References}
    (hp : p.Composed fold stance.direction a) (hr : a.references = some r) :
    Numbered.toFragment ⟨false, false, 0⟩ stance (p.traits.direction != .neutral)
        ⟨[⟨p.source, r.final⟩], n, r.present⟩ =
      .composite p.source ⟨p.traits.direction, stance.agreement.wide, stance.agreement.ignoreCase,
        stance.agreement.multiline⟩ ⟨some n, some r, none, none⟩ := by
  obtain ⟨r', hr', hfinal, hdirection⟩ := hp.references
  obtain rfl : r = r' := Option.some.inj (hr.symm.trans hr')
  have hpresent : (p.traits.direction != .neutral || r.present) = r.present := by
    cases hpresent : r.present with
    | true => exact Bool.or_true _
    | false =>
      rw [hpresent] at hdirection
      simp [hdirection]
  have hends : Piece.lastEndsInReference [⟨p.source, r.final⟩] = r.final := by
    cases hfin : r.final with
    | true => simp [Piece.lastEndsInReference, hfinal hfin]
    | false =>
      simp only [Piece.lastEndsInReference, List.reverse_singleton, List.find?_singleton]
      split <;> rfl
  simp only [Numbered.toFragment, hpresent, hends, ← hdirection]
  rfl

theorem assemble {stance : Stance} {n : Nat} {r : References}
    (hp : p.Composed fold stance.direction (archive.analysis p.number))
    (hm : MarkerFree p.source) (hs : stance.agreement.wide = p.flags.unicode)
    (hn : (archive.analysis p.number).captures = some n) (hfits : n < wordLimit)
    (hr : (archive.analysis p.number).references = some r) :
    (Splice.assemble fold stance ⟨false, false, 0⟩ (p.traits.direction != .neutral)
        [.native p]).run archive =
      (.ok (.composite p.source ⟨p.traits.direction, stance.agreement.wide,
        stance.agreement.ignoreCase, stance.agreement.multiline⟩ ⟨some n, some r, none, none⟩),
        archive) := by
  have hadapted : [Fragment.native p].mapM (Fragment.adapt fold stance.agreement.wide) =
      Except.ok [.native p] := by
    rw [hs, List.mapM_cons, hp.adapt]
    rfl
  have hnumbered : (Fragment.numberAll 0 [.native p]).run archive =
      (.ok ⟨[⟨p.source, r.final⟩], n, r.present⟩, archive) := by
    obtain ⟨behind, hbehind⟩ := Word.exists_toNat hfits
    have hsum : Word.add 0 n = .ok behind :=
      Word.add_eq_ok.mpr (hbehind.trans (Nat.zero_add n).symm)
    rw [Fragment.numberAll, run_bind, Fragment.number_recorded hm hn hr]
    simp only
    rw [hsum]
    change (Except.ok (Numbered.mk _ _ _), archive) = _
    rw [Nat.add_zero, Bool.or_false]
  rw [Splice.assemble, hadapted, run_bind, ← hp.toFragment hr]
  change (Fragment.numberAll 0 [.native p] >>= fun numbered =>
    pure (numbered.toFragment ⟨false, false, 0⟩ stance (p.traits.direction != .neutral))).run
      archive = _
  rw [run_bind, hnumbered]
  rfl

end Pattern.Composed

theorem Work.onArchive_run {α : Type} {act : ExceptT Error (StateM Archive) α} {a : α}
    (h : act.run w.archive = (.ok a, archive)) :
    (onArchive act).run w = (.ok a, { w with archive := archive }) := by
  have hrun : (onArchive act).run w =
      ((act.run w.archive).1.mapError Failure.ofError,
        { w with archive := (act.run w.archive).2 }) := rfl
  rw [hrun, h]
  rfl

theorem Work.admitFragment_fresh (hf : w.stance.agreement = .fresh)
    (hd : p.traits.direction.opposes w.stance.direction = false) :
    (admitFragment (.native p)).run w = (.ok (.native p, p.traits.direction != .neutral),
      { w with stance := { w.stance with agreement := p.demand.agreement } }) := by
  have hadmits : Stance.admitPattern w.fold p w.stance = (.ok (p.traits.direction != .neutral),
      { w.stance with agreement := p.demand.agreement }) := by
    rw [Stance.admitPattern, hf, Agreement.hear_fresh, Direction.check, hd]
    rfl
  have hpattern : (admitPattern p).run w =
      ((Stance.admitPattern w.fold p w.stance).1.mapError Failure.ofError,
        { w with stance := (Stance.admitPattern w.fold p w.stance).2 }) := rfl
  rw [hadmits] at hpattern
  change (admitPattern p >>= fun directed => pure (Fragment.native p, directed)).run w = _
  rw [run_bind, hpattern]
  rfl

-- ---------------------------------------------------------------------------
-- Finished once more
-- ---------------------------------------------------------------------------

/-- A workshop in which work goes on in the same direction, with all that has
been recorded. -/
structure Workshop.Resumes (before after : Workshop) : Prop where
  fold : after.fold = before.fold
  direction : after.stance.direction = before.stance.direction
  records : ∀ {α : Type} (n : Nat) (q : Property α) (answer : α),
    (before.archive.analysis n).get? q = some answer →
      (after.archive.analysis n).get? q = some answer

theorem Pattern.Composed.resumed {w w' : Workshop} (hw : w.Resumes w')
    (hp : p.Composed w.fold w.stance.direction (w.archive.analysis p.number)) :
    p.Composed w'.fold w'.stance.direction (w'.archive.analysis p.number) where
  accepted := hp.accepted
  flags := hw.fold ▸ hp.flags
  wide := hp.wide
  captures := by
    obtain ⟨n, hn, hfits⟩ := hp.captures
    exact ⟨n, hw.records _ .captures n hn, hfits⟩
  references := by
    obtain ⟨r, hr, hfinal, hdirection⟩ := hp.references
    exact ⟨r, hw.records _ .references r hr, hfinal, hw.direction ▸ hdirection⟩

/-- Two patterns that differ at most in what is known of their alternatives, of
their groups, and of the flags that their parts asked for. -/
structure Pattern.Repeats (p q : Pattern) (a b : Analysis) : Prop where
  source : q.source = p.source
  flags : q.flags = p.flags
  direction : q.traits.direction = p.traits.direction
  wide : q.traits.wide = p.traits.wide
  captures : ∃ n, a.captures = some n ∧ b.captures = some n
  references : ∃ r, a.references = some r ∧ b.references = some r

theorem Work.assemble_composed {n : Nat} {r : References} (hf : w.stance.agreement = .fresh)
    (hp : p.Composed w.fold w.stance.direction (w.archive.analysis p.number))
    (hm : MarkerFree p.source) (hn : (w.archive.analysis p.number).captures = some n)
    (hfits : n < wordLimit)
    (hr : (w.archive.analysis p.number).references = some r) :
    (assemble ⟨false, false, 0⟩ [.pattern p]).run w =
      (.ok (.composite p.source ⟨p.traits.direction, p.demand.agreement.wide,
        p.demand.agreement.ignoreCase, p.demand.agreement.multiline⟩ ⟨some n, some r, none, none⟩),
        { w with stance := { w.stance with agreement := p.demand.agreement } }) := by
  have hbegin : w.beginAssembly = w := by
    unfold Workshop.beginAssembly Workshop.reset Stance.reset
    split <;> simp [← hf]
  let directed := p.traits.direction != .neutral
  let stance : Stance := { w.stance with agreement := p.demand.agreement }
  have hresolve : ∀ wrap, (Item.resolveAll w.bindings wrap [.pattern p]).run w =
      (.ok [(.native p, directed)], { w with stance := stance }) := by
    intro wrap
    rw [Item.resolveAll, Item.resolve, run_bind, admitFragment_fresh hf hp.not_opposes]
    simp only
    rw [Item.resolveAll]
    rfl
  have hstance : p.Composed w.fold stance.direction (w.archive.analysis p.number) := hp
  have hassemble := hstance.assemble hm rfl hn hfits hr
  have hrun : (assemble ⟨false, false, 0⟩ [.pattern p]).run w =
      (build ⟨false, false, 0⟩ 1 fun wrap => Item.resolveAll w.bindings wrap [.pattern p]).run
        w.beginAssembly := rfl
  have hparts : ([(Fragment.native p, directed)] : List Part).any Prod.snd = directed :=
    Bool.or_false _
  rw [hrun, hbegin, build, run_bind, hresolve]
  change (onArchive (Splice.assemble w.fold stance ⟨false, false, 0⟩
    (([(Fragment.native p, directed)] : List Part).any Prod.snd) [.native p])).run
      { w with stance := stance } = _
  rw [hparts]
  exact onArchive_run hassemble

theorem Work.compose_composed (hf : w.stance.agreement = .fresh)
    (hp : p.Composed w.fold w.stance.direction (w.archive.analysis p.number))
    (hm : MarkerFree p.source) :
    ∃ q w', (compose ⟨false, false, 0⟩ [.pattern p]).run w = (.ok q, w') ∧
      p.Repeats q (w.archive.analysis p.number) (w'.archive.analysis q.number) := by
  obtain ⟨n, hn, hfits⟩ := hp.captures
  obtain ⟨r, hr, -⟩ := hp.references
  let agreement := p.demand.agreement
  let traits : Traits :=
    ⟨p.traits.direction, agreement.wide, agreement.ignoreCase, agreement.multiline⟩
  let a : Analysis := ⟨some n, some r, none, none⟩
  let w' : Workshop := { w with stance := { w.stance with agreement := agreement } }
  have hfinish : ((Fragment.composite p.source traits a).finish w.fold agreement ⟨none, none⟩).run
      w.archive = (.ok ⟨w.archive.size, p.source, p.flags, traits⟩, w.archive.push a) := by
    rw [Fragment.finish_plain, Pattern.make_run, hp.merged]
    exact if_pos hp.accepted
  refine ⟨⟨w.archive.size, p.source, p.flags, traits⟩, { w' with archive := w.archive.push a },
    ?_, ?_⟩
  · rw [compose, run_bind, assemble_composed hf hp hm hn hfits hr]
    exact onArchive_run hfinish
  · refine ⟨rfl, rfl, rfl, hp.wide.symm, ⟨n, hn, ?_⟩, r, hr, ?_⟩ <;> rw [Archive.analysis_push]

theorem Work.steady_compose (layout : Layout) (items : List Item) (start : Workshop) :
    Yields start.Steady (compose layout items) fun _ => True := by
  have hassemble : Yields start.Steady (assemble layout items) fun _ => True :=
    reads_get.steady.bind fun w _ => (steady_modify fun _ hw => hw.beginAssembly).bind fun _ _ =>
      steady_build fun wrap => Item.steadyAll items w.bindings wrap start
  exact hassemble.bind fun f _ => reads_get.steady.bind fun _ _ => steady_onArchive _

/-- Whatever is assembled and finished in a scope, the pattern is assembled and
finished to itself in a later scope in the same direction. -/
theorem Work.compose_again (h : (isolated (compose layout items)).run w = (.ok p, w₁))
    (hm : MarkerFree p.source) (hw : w₁.Resumes w₂) :
    ∃ q w₃, (isolated (compose ⟨false, false, 0⟩ [.pattern p])).run w₂ = (.ok q, w₃) ∧
      p.Repeats q (w₁.archive.analysis p.number) (w₃.archive.analysis q.number) := by
  have hrun : ∀ (layout : Layout) (items : List Item) (w : Workshop),
      (isolated (compose layout items)).run w = (((compose layout items).run w.enter.reset).1,
        w.remembering ((compose layout items).run w.enter.reset).2) := fun layout items w =>
    Prod.ext rfl (Shield.leave_remembers .scope (by simp)
      (steady_compose layout items w.enter.reset _ (.refl _)).2)
  have hsteady := (steady_compose layout items w.enter _ (Workshop.Steady.refl w.enter).reset).2
  rw [hrun] at h
  obtain ⟨hp, rfl⟩ := Prod.mk.inj h
  have hcomposed := compose_ok (Prod.ext hp rfl : (compose layout items).run w.enter.reset =
    (.ok p, ((compose layout items).run w.enter.reset).2))
  rw [hsteady.fold, hsteady.direction] at hcomposed
  let w₁ := w.remembering ((compose layout items).run w.enter.reset).2
  change p.Composed w₁.fold w₁.stance.direction (w₁.archive.analysis p.number) at hcomposed
  obtain ⟨n, hn, -⟩ := hcomposed.captures
  obtain ⟨r, hr, -⟩ := hcomposed.references
  have hresumed : p.Composed w₂.fold w₂.stance.direction (w₂.archive.analysis p.number) :=
    Pattern.Composed.resumed (w := w₁) hw hcomposed
  obtain ⟨q, after, hagain, hrepeats⟩ :=
    compose_composed (w := w₂.enter.reset) rfl hresumed hm
  rw [hrun, hagain]
  refine ⟨q, _, rfl, { hrepeats with captures := ⟨n, hn, ?_⟩, references := ⟨r, hr, ?_⟩ }⟩
  · obtain ⟨n', hn', hq⟩ := hrepeats.captures
    rw [Option.some.inj ((hw.records _ .captures n hn).symm.trans hn')]
    exact hq
  · obtain ⟨r', hr', hq⟩ := hrepeats.references
    rw [Option.some.inj ((hw.records _ .references r hr).symm.trans hr')]
    exact hq

theorem Workshop.Resumes.refl (w : Workshop) : w.Resumes w := ⟨rfl, rfl, fun _ _ _ h => h⟩

/-- What a reference moved behind a group and a digit kept apart from it come to
is finished to itself. -/
theorem Work.compose_again_mirror :
    ∃ p w₁ q w₃, p.source = "(a)\\2(?:)7".toList ∧ p.traits.direction = .forward ∧
      (isolated (compose ⟨false, false, 1⟩ [.named "mirror", .literal ['7']])).run .withMirror =
        (.ok p, w₁) ∧
      (isolated (compose ⟨false, false, 0⟩ [.pattern p])).run w₁ = (.ok q, w₃) ∧
      p.Repeats q (w₁.archive.analysis p.number) (w₃.archive.analysis q.number) := by
  let p : Pattern := ⟨1, "(a)\\2(?:)7".toList, .empty, ⟨.forward, false, some false, some false⟩⟩
  have hfree : MarkerFree p.source := by decide +kernel
  have hrun := run_ok (isolated (compose ⟨false, false, 1⟩ [.named "mirror", .literal ['7']]))
    .withMirror p (by decide +kernel)
  obtain ⟨q, w₃, hagain, hrepeats⟩ := compose_again hrun hfree (.refl _)
  exact ⟨p, _, q, w₃, rfl, rfl, hrun, hagain, hrepeats⟩

end Splice
