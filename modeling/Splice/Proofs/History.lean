import Splice.Proofs.Discipline
import Splice.Proofs.Newborn

/-!
# History does not matter

An assembly that nothing surrounds starts from fresh flags, and so do steps in a
scope of their own. What a program did before, whether it failed or not, shows
in nothing that they answer but the cells that views show as filled.
-/

namespace Splice

variable {known : Catalogue} {w n : Workshop}

/-- A step that starts from fresh flags, where nothing surrounds it. -/
inductive Step.Fresh : Step → Prop
  | assemble (result : Option Name) (items : List Item) (layout : Layout) :
      Fresh (.assemble result items layout)
  | scope (steps : List Step) : Fresh (.nested .scope steps)

instance (w : Workshop) : Decidable w.Closed :=
  inferInstanceAs (Decidable (∀ e ∈ w.bindings, Source.Closed e.2.toFragment.source))

-- ---------------------------------------------------------------------------
-- What is left of a history
-- ---------------------------------------------------------------------------

theorem Work.run_fst_congr {α β : Type} {act : Work α} {next : α → Work β} {w w' : Workshop}
    (hr : act.Reads) (ha : (act.run w).1 = (act.run w').1)
    (hn : ∀ a, ((next a).run w).1 = ((next a).run w').1) :
    ((act >>= next).run w).1 = ((act >>= next).run w').1 := by
  have hfst : ∀ w, ((act >>= next).run w).1 =
      (ExceptT.bindCont next (act.run w).1 w).1 := by
    intro w
    have hrun : (act >>= next).run w = ExceptT.bindCont next (act.run w).1 (act.run w).2 := rfl
    rw [hrun, hr w]
  rw [hfst, hfst, ha]
  cases (act.run w').1 with
  | ok a => exact hn a
  | error e => rfl

theorem Work.requireAll_congr {w w' : Workshop} (h : w.bindings = w'.bindings)
    (requirements : List Requirement) :
    ((requireAll requirements).run w).1 = ((requireAll requirements).run w').1 := by
  have hlookup : ∀ name, ((lookup name).run w).1 = ((lookup name).run w').1 := by
    intro name
    rw [lookup, run_get, run_get, h]
    cases w'.bindings.lookup name <;> rfl
  have hpattern : ∀ name, ((lookupPattern name).run w).1 = ((lookupPattern name).run w').1 :=
    fun name => run_fst_congr (reads_lookup name) (hlookup name) fun v => by cases v <;> rfl
  have hflags : ∀ letters, ((flags letters).run w).1 = ((flags letters).run w').1 := by
    intro letters
    unfold flags
    split <;> rfl
  induction requirements with
  | nil => rfl
  | cons r rs ih =>
    have hrequire : ((require r).run w).1 = ((require r).run w').1 := by
      cases r with
      | defined name => exact run_fst_congr (reads_lookup name) (hlookup name) fun _ => rfl
      | pattern name => exact run_fst_congr (reads_lookupPattern name) (hpattern name) fun _ => rfl
      | flags letters => exact run_fst_congr (reads_flags letters) (hflags letters) fun _ => rfl
      | malformed field => rfl
    have hboth : ((require r >>= fun _ => requireAll rs).run w).1 =
        ((require r >>= fun _ => requireAll rs).run w').1 :=
      run_fst_congr (reads_require r) hrequire fun _ => ih
    exact hboth

/-- Workshops with values that answer alike, in which nothing else is the same
but what they are configured with. -/
structure Workshop.Kindred (known : Catalogue) (w n : Workshop) : Prop
    extends w.Concur known n where
  fold : w.fold = n.fold
  direction : w.stance.direction = n.stance.direction
  saved : w.saved = []
  saved' : n.saved = []

theorem Workshop.Kindred.reset (h : w.Kindred known n) {x y : List Stance}
    (hxy : x.isEmpty = y.isEmpty) : Workshop.Paired known x y
      { w with stance := w.stance.reset, saved := x, builders := [] }
      { n with stance := n.stance.reset, saved := y, builders := [] } where
  archive := h.archive
  bindings := h.bindings
  fold := h.fold
  stance := by rw [Stance.reset, Stance.reset, h.direction]
  saved := rfl
  saved' := rfl
  level := hxy
  builders := .nil

def Step.closing (r : List Answer × Option Failure) : Except Failure Answer :=
  match r.2 with
  | none => .ok (.nested r.1)
  | some f => .error { f with steps := some r.1 }

theorem Step.closing_eq (r : List Answer × Option Failure) (w : Workshop) :
    ((Work.nested r.1 r.2).run w).1 = closing r := by
  obtain ⟨answers, _ | f⟩ := r <;> rfl

theorem Ended.closing {r r' : List Answer × Option Failure} (h : Ended r r') :
    Echo Answer.Alike (Step.closing r) (Step.closing r') := by
  obtain ⟨l, e⟩ := r
  obtain ⟨l', e'⟩ := r'
  obtain ⟨ha, he⟩ := h
  cases he with
  | none => exact .ok (.nested ha)
  | some he => exact .error ⟨he.cause, .some ha, he.builders⟩

theorem Step.Fresh.echo {step : Step} (hs : step.Fresh) (hb : step.byName)
    (h : w.Kindred known n) : Echo Answer.Alike (step.run.run w).1 (step.run.run n).1 := by
  cases hs with
  | assemble result items layout =>
    have hpaired := h.reset (x := []) (y := []) rfl
    obtain ⟨_, -, -, hrequired⟩ := Abides.requireAll hpaired (Item.requirementsAll items)
    have hrequire : ∀ w : Workshop, ((Work.requireAll (Item.requirementsAll items)).run
        { w with stance := w.stance.reset, saved := [], builders := [] }).1 =
          ((Work.requireAll (Item.requirementsAll items)).run w).1 := by
      intro w
      apply Work.requireAll_congr
      rfl
    rw [hrequire, hrequire] at hrequired
    have hbegin : ∀ w : Workshop, w.saved = [] →
        Workshop.beginAssembly { w with builders := [] } =
          { w with stance := w.stance.reset, saved := [], builders := [] } := by
      intro w hsaved
      simp [Workshop.beginAssembly, Workshop.reset, hsaved]
    have hassemble : Abides known [] [] { w with builders := [] } { n with builders := [] }
        (Work.assemble layout items) (Work.assemble layout items)
        fun later f g => f.Concur later g := by
      refine .get (.modify ?_)
      rw [hbegin w h.saved, hbegin n h.saved']
      exact .build fun wrap => Item.abidesAll items hb wrap hpaired h.bindings
    have hlogged := (hassemble.bind fun later f g _ _ _ hf hfg =>
      Abides.keep hf result (.fragment hfg)).echo_logged
    have hrun : ∀ w, ((Work.requireAll (Item.requirementsAll items)).run w) =
        (((Work.requireAll (Item.requirementsAll items)).run w).1, w) :=
      fun w => Prod.ext rfl (Work.reads_requireAll _ w)
    rw [Step.run_assemble, run_bind, run_bind, hrun w, hrun n]
    revert hrequired
    generalize ((Work.requireAll (Item.requirementsAll items)).run w).1 = o,
      ((Work.requireAll (Item.requirementsAll items)).run n).1 = o'
    rintro (- | he)
    · exact hlogged
    · exact .error he
  | scope steps =>
    have hpaired := h.reset (x := [w.stance]) (y := [n.stance]) rfl
    obtain ⟨_, -, -, hended⟩ := Step.abidesAll steps hb hpaired
    have hrun : ∀ w : Workshop, w.saved = [] →
        ((Step.nested .scope steps).run.run w).1 = Step.closing (Step.runAll steps
          { w with stance := w.stance.reset, saved := [w.stance], builders := [] }).1 := by
      intro w hsaved
      have henter : Workshop.reset (Workshop.enter { w with builders := [] }) =
          { w with stance := w.stance.reset, saved := [w.stance], builders := [] } := by
        simp [Workshop.enter, Workshop.reset, hsaved]
      obtain ⟨later, hlog⟩ := Step.unlogged (.nested .scope steps) w []
      have hclosing : ((Step.nested .scope steps).run.run w).1 =
          ((Step.nested .scope steps).run.run { w with builders := [] }).1 :=
        (congrArg Prod.fst hlog).symm
      rw [hclosing, Step.run_nested, ← henter]
      exact Step.closing_eq _ _
    rw [hrun w h.saved, hrun n h.saved']
    exact hended.closing

theorem runProgram_kindred {fold : Bool} {program : List Step} (hb : Step.byNameAll program)
    (hc : ∀ m ∈ programEndings program (.new fold), m.after.Closed) :
    ∃ known, ((runProgram program).run (.new fold)).2.Kindred known (.newborn fold program) := by
  obtain ⟨known, hf⟩ := runProgram_stocked hb (Workshop.stocked_new fold) hc
  obtain ⟨hfold, hsaved, hdirection⟩ := runProgram_steady program (.new fold)
  obtain ⟨archive, bindings, hnewborn⟩ :=
    Moment.foldl_bear (programEndings program (.new fold)) (.new fold)
  refine ⟨known, { hf with fold := ?_, direction := ?_, saved := hsaved, saved' := ?_ }⟩ <;>
    rw [Workshop.newborn, hnewborn]
  · exact hfold
  · exact hdirection
  · rfl

/-- A step that starts from fresh flags answers behind a program as it does in a
new workshop, in which every value has only the cells that were filled when the
value was made. All that it takes is that the values of the program have closed
sources. -/
theorem runProgram_newborn (fold : Bool) (program : List Step) (step : Step)
    (hb : Step.byNameAll program) (hs : step.byName) (hf : step.Fresh)
    (hc : ∀ m ∈ programEndings program (.new fold), m.after.Closed) :
    Echo Answer.Alike (step.run.run ((runProgram program).run (.new fold)).2).1
      (step.run.run (.newborn fold program)).1 := by
  obtain ⟨known, h⟩ := runProgram_kindred hb hc
  exact hf.echo hs h

def askedProgram : List Step :=
  [ .action (.compile (some "pair") "(a)\\1".toList none),
    .action (.compile (some "loud") ['x'] (some ['i'])),
    .action (.raw (some "tail") "b|c".toList none),
    .action (.force "pair" .captures),
    .action (.force "tail" .alternates),
    .assemble none [.named "loud", .named "pair"] ⟨false, false, 0⟩ ]

def pairAndTail : Step := .assemble none [.named "pair", .named "tail"] ⟨false, false, 0⟩

/-- The flags and the cells that the program leaves make no difference. -/
theorem runProgram_newborn_asked :
    Echo Answer.Alike
      (pairAndTail.run.run ((runProgram askedProgram).run (.new false)).2).1
      (pairAndTail.run.run (.newborn false askedProgram)).1 ∧
      (pairAndTail.run.run (.newborn false askedProgram)).1.isOk ∧
      ((runProgram askedProgram).run (.new false)).2.stance.agreement.ignoreCase = some true ∧
      (((runProgram askedProgram).run (.new false)).2.archive.analysis 0).captures = some 1 ∧
      ((Workshop.newborn false askedProgram).archive.analysis 0).captures = none ∧
      ((runProgram askedProgram).run (.new false)).2.bindings.lookup "tail" =
        some (.fragment (.composite "b|c".toList .plain { Analysis.empty with
          alternates := some true })) ∧
      (Workshop.newborn false askedProgram).bindings.lookup "tail" =
        some (.fragment (.composite "b|c".toList .plain .empty)) := by
  have hclosed : ∀ m ∈ programEndings askedProgram (.new false), m.after.Closed := by
    decide +kernel
  refine ⟨runProgram_newborn false askedProgram pairAndTail rfl rfl (.assemble ..) hclosed, ?_⟩
  decide +kernel

end Splice
