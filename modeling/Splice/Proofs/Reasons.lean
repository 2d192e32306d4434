import Splice.Program.Run
import Splice.Proofs.Acts

/-!
# Reasons to fail

Flags that do not match are found where an item of an assembly is checked, and
nowhere else: fitting, numbering, wrapping and finishing fail for other reasons
(`Error.IsOther`). A failure for flags behind such an act is therefore a failure
of what comes before it or after it.
-/

namespace Splice

variable {σ ε α β γ : Type} {fold wide : Bool} {f : Fragment}

-- ---------------------------------------------------------------------------
-- Reasons to fail
-- ---------------------------------------------------------------------------

theorem run_bind_error {act : ExceptT ε (StateM σ) α} {next : α → ExceptT ε (StateM σ) β}
    {s s' : σ} {e : ε} (h : (act >>= next).run s = (.error e, s')) :
    act.run s = (.error e, s') ∨
      ∃ a between, act.run s = (.ok a, between) ∧ (next a).run between = (.error e, s') := by
  rw [run_bind] at h
  cases hact : act.run s with
  | mk outcome between =>
    rw [hact] at h
    cases outcome with
    | ok a => exact .inr ⟨a, between, rfl, h⟩
    | error e' =>
      obtain ⟨he, rfl⟩ := Prod.mk.inj h
      obtain rfl : e' = e := Except.error.inj he
      exact .inl rfl

def FailsBy (Reason : ε → Prop) (act : ExceptT ε (StateM σ) α) : Prop :=
  ∀ s e after, act.run s = (.error e, after) → Reason e

namespace FailsBy

variable {Reason : ε → Prop} {act : ExceptT ε (StateM σ) α} {next : α → ExceptT ε (StateM σ) β}
  {s s' : σ} {e : ε}

theorem pure (a : α) : FailsBy Reason (pure a : ExceptT ε (StateM σ) α) :=
  fun _ _ _ h => by cases congrArg Prod.fst h

theorem throw (h : Reason e) : FailsBy Reason (throw e : ExceptT ε (StateM σ) α) := by
  intro s e' after hrun
  obtain rfl : e = e' := Except.error.inj (congrArg Prod.fst hrun)
  exact h

theorem bindYields {Q : α → Prop} (hq : Yields (fun _ => True) act Q) (h : FailsBy Reason act)
    (hn : ∀ a, Q a → FailsBy Reason (next a)) : FailsBy Reason (act >>= next) := by
  intro s e after hrun
  obtain hact | ⟨a, between, hact, hnext⟩ := run_bind_error hrun
  · exact h _ _ _ hact
  · exact hn a ((hq s trivial).1 a (congrArg Prod.fst hact)) _ _ _ hnext

theorem bind (h : FailsBy Reason act) (hn : ∀ a, FailsBy Reason (next a)) :
    FailsBy Reason (act >>= next) :=
  bindYields (Q := fun _ => True) (fun _ _ => ⟨fun _ _ => trivial, trivial⟩) h fun a _ => hn a

theorem lift (act : StateM σ α) : FailsBy Reason (liftM act : ExceptT ε (StateM σ) α) :=
  fun _ _ _ h => by cases congrArg Prod.fst h

theorem ofExcept {outcome : Except ε α} (h : ∀ e, outcome = .error e → Reason e) :
    FailsBy Reason (liftM outcome : ExceptT ε (StateM σ) α) :=
  fun _ e _ hrun => h e (congrArg Prod.fst hrun)

theorem mapM {act : γ → ExceptT ε (StateM σ) α} (h : ∀ c, FailsBy Reason (act c)) (l : List γ) :
    FailsBy Reason (l.mapM act) := by
  induction l with
  | nil =>
    rw [List.mapM_nil]
    exact .pure _
  | cons c l ih =>
    rw [List.mapM_cons]
    exact (h c).bind fun _ => ih.bind fun _ => .pure _

theorem before (hn : ∀ a, FailsBy Reason (next a)) (he : ¬ Reason e)
    (h : (act >>= next).run s = (.error e, s')) : act.run s = (.error e, s') := by
  obtain h | ⟨a, between, -, hnext⟩ := run_bind_error h
  · exact h
  · exact absurd (hn a _ _ _ hnext) he

theorem behind (hact : FailsBy Reason act) (he : ¬ Reason e)
    (h : (act >>= next).run s = (.error e, s')) :
    ∃ a between, act.run s = (.ok a, between) ∧ (next a).run between = (.error e, s') := by
  obtain h | hnext := run_bind_error h
  · exact absurd (hact _ _ _ h) he
  · exact hnext

end FailsBy

theorem exists_of_mapM_error {act : γ → Except ε α} {l : List γ} {e : ε}
    (h : l.mapM act = .error e) : ∃ c ∈ l, act c = .error e := by
  induction l with
  | nil =>
    rw [List.mapM_nil] at h
    cases h
  | cons c l ih =>
    rw [List.mapM_cons] at h
    cases hc : act c with
    | error e' =>
      rw [hc] at h
      obtain rfl : e' = e := Except.error.inj h
      exact ⟨c, List.mem_cons_self, hc⟩
    | ok a =>
      rw [hc] at h
      cases hl : l.mapM act with
      | error e' =>
        rw [hl] at h
        obtain rfl : e' = e := Except.error.inj h
        obtain ⟨d, hd, he⟩ := ih hl
        exact ⟨d, List.mem_cons_of_mem _ hd, he⟩
      | ok as =>
        rw [hl] at h
        cases h

-- ---------------------------------------------------------------------------
-- Flags that do not match
-- ---------------------------------------------------------------------------

/-- An error about flags on which a piece and the others disagree. -/
def Error.isFlagMismatch : Error → Bool
  | .caseMismatch _ | .multilineMismatch _ => true
  | _ => false

def Error.IsOther (e : Error) : Prop := e.isFlagMismatch = false

theorem Direction.check_error {found building : Direction} {source : Text} {e : Error}
    (h : found.check building source = .error e) : e.IsOther := by
  unfold check at h
  split at h
  · obtain rfl := Except.error.inj h
    rfl
  · cases h

def Failure.IsOther (f : Failure) : Prop := ∀ e, f.cause = .error e → e.IsOther

theorem Failure.isOther_ofError {e : Error} (h : e.IsOther) : (ofError e).IsOther := by
  intro e' he
  obtain rfl : e = e' := Cause.error.inj he
  exact h

structure Failure.IsMismatch (failure : Failure) (e : Error) : Prop where
  cause_eq : failure.cause = .error e
  mismatch : e.isFlagMismatch

theorem Failure.IsMismatch.not_other {failure : Failure} {e : Error} (h : failure.IsMismatch e) :
    ¬ failure.IsOther := by
  intro hother
  have hno := hother e h.cause_eq
  rw [Error.IsOther, h.mismatch] at hno
  cases hno

-- ---------------------------------------------------------------------------
-- Fragments
-- ---------------------------------------------------------------------------

theorem Word.isOther_add {m : Word} {n : Nat} {e : Error} (h : Word.add m n = .error e) :
    e.IsOther := by
  obtain ⟨-, rfl⟩ := Word.add_eq_error.mp h
  rfl

namespace Source

theorem isOther_renumber {s : Text} {offset : Word} {e : Error}
    (h : renumber s offset = .error e) : e.IsOther := by
  have hreference : ∀ {n}, backReference n = .error e → e.IsOther := by
    intro n hn
    unfold backReference at hn
    split at hn
    · obtain rfl := Except.error.inj hn
      rfl
    · cases hn
  cases htexts : (lex s).mapM (Token.renumber offset) with
  | ok texts =>
    rw [renumber, htexts] at h
    cases h
  | error e' =>
    rw [renumber, htexts] at h
    obtain rfl : e' = e := Except.error.inj h
    obtain ⟨t, -, ht⟩ := exists_of_mapM_error htexts
    unfold Token.renumber at ht
    split at ht
    · rw [shiftedReference_eq] at ht
      split at ht
      · obtain rfl := Except.error.inj ht
        split <;> rfl
      · cases ht
    · split at ht
      · obtain rfl := Except.error.inj ht
        rfl
      · exact hreference ht
    · cases ht
    · cases ht

theorem isOther_wrapsGiven {s : Text} {isGroup assertion : Bool} {e : Error}
    (h : wrapsGiven s isGroup assertion = .error e) : e.IsOther := by
  unfold wrapsGiven at h
  split at h
  · cases h
  · split at h
    · obtain rfl := Except.error.inj h
      rfl
    · cases h

end Source

namespace Fragment

theorem isOther_promote {e : Error} (h : f.promote = .error e) : e.IsOther := by
  unfold promote at h
  split at h
  · obtain rfl := Except.error.inj h
    rfl
  · cases h

theorem isOther_adapt {e : Error} (h : f.adapt fold wide = .error e) : e.IsOther := by
  unfold adapt at h
  simp only at h
  split at h
  · exact isOther_promote h
  · cases h

theorem failsBy_number (count : Word) (f : Fragment) :
    FailsBy Error.IsOther (f.number count) := by
  refine (FailsBy.lift _).bind fun ⟨references, f⟩ => ?_
  dsimp only
  split <;> refine .bind ?_ fun source => (FailsBy.lift _).bind fun _ => .pure _
  · exact .ofExcept fun _ h => Source.isOther_renumber h
  · exact .pure _

theorem failsBy_numberAll (count : Word) (fs : List Fragment) :
    FailsBy Error.IsOther (numberAll count fs) := by
  induction fs generalizing count with
  | nil => exact .pure _
  | cons f fs ih =>
    exact (failsBy_number count f).bind fun _ =>
      (FailsBy.ofExcept fun _ h => Word.isOther_add h).bind fun behind =>
        (ih behind).bind fun _ => .pure _

theorem failsBy_assemble (fold : Bool) (stance : Stance) (layout : Layout) (directed : Bool)
    (fs : List Fragment) : FailsBy Error.IsOther (assemble fold stance layout directed fs) := by
  unfold assemble
  refine .bind (.ofExcept fun e h => ?_) fun adapted => ?_
  · obtain ⟨f, -, hf⟩ := exists_of_mapM_error h
    exact isOther_adapt hf
  · split <;> refine .bind ?_ fun fs => (failsBy_numberAll layout.offset fs).bind fun _ => .pure _
    · exact .mapM (fun _ => .lift _) _
    · exact .pure _

theorem keeps_needsWrapping (wide : Bool) (f : Fragment) :
    Keeps (fun _ => True) (f.needsWrapping wide) fun r => ∀ e, r.1 = .error e → e.IsOther := by
  unfold needsWrapping
  split
  · refine .pure fun e he => ?_
    obtain rfl := Except.error.inj he
    rfl
  · refine .pure fun e he => ?_
    cases he
  · have hask : Keeps (fun _ => True) (f.ask .singleGroup) fun _ => True :=
      fun _ _ => ⟨trivial, trivial⟩
    exact hask.bind fun _ _ => .pure fun e he => Source.isOther_wrapsGiven he

theorem failsBy_decorate (wide : Bool) (wrapping : Wrapping) (f : Fragment) :
    FailsBy Error.IsOther (f.decorate wide wrapping) := by
  refine .bind ?_ fun ⟨delimited, g⟩ => ?_
  · unfold Wrapping.applies
    split
    · exact .pure _
    · refine .bindYields (.lift (keeps_needsWrapping _ f)) (.lift _) fun ⟨outcome, g⟩ h => ?_
      exact (FailsBy.ofExcept h).bind fun _ => .pure _
    · exact .lift _
  · dsimp only
    split <;> exact .pure _

theorem keeps_find (f : Fragment) (question : Question) :
    Keeps (fun _ => True) (f.find question) fun r => ∀ e, r.1 = .error e → e.IsOther := by
  have hask : ∀ {α : Type} (p : Property α), Keeps (fun _ => True) (f.ask p) fun _ => True :=
    fun _ _ _ => ⟨trivial, trivial⟩
  cases question with
  | captures | references | alternates | singleGroup =>
    exact (hask _).bind fun _ _ => .pure fun e he => by cases he
  | needsWrapping wide =>
    refine (f.keeps_needsWrapping wide).bind fun ⟨outcome, g⟩ h => .pure fun e he => ?_
    cases outcome with
    | ok wraps => cases he
    | error e' =>
      obtain rfl : e' = e := Except.error.inj he
      exact h e' rfl

theorem failsBy_make (source : Text) (flags : Flags) (traits : Traits) (analysis : Analysis) :
    FailsBy Error.IsOther (Pattern.make source flags traits analysis) := by
  unfold Pattern.make
  split
  · exact (FailsBy.lift _).bind fun _ => (FailsBy.lift _).bind fun _ => .pure _
  · exact .throw rfl

theorem failsBy_compile (source letters : Text) :
    FailsBy Error.IsOther (Pattern.compile source letters) := by
  unfold Pattern.compile
  split
  · exact .throw rfl
  · exact failsBy_make _ _ _ _

theorem failsBy_finish (fold : Bool) (agreement : Agreement) (options : Finish) (f : Fragment) :
    FailsBy Error.IsOther (f.finish fold agreement options) := by
  unfold finish
  dsimp only
  split <;> refine .bind ?_ fun g => (FailsBy.lift _).bind fun _ => failsBy_make _ _ _ _
  · exact .ofExcept fun _ h => isOther_promote h
  · exact .pure _

end Fragment

-- ---------------------------------------------------------------------------
-- Actions
-- ---------------------------------------------------------------------------

namespace Work

theorem failsBy_fail {cause : Cause} (h : ∀ e, cause ≠ .error e) :
    FailsBy Failure.IsOther (fail cause : Work α) :=
  .throw fun e he => absurd he (h e)

theorem failsBy_onArchive {act : ExceptT Error (StateM Archive) α}
    (h : FailsBy Error.IsOther act) : FailsBy Failure.IsOther (onArchive act) := by
  intro w failure after hrun
  have houtcome : (act.run w.archive).1.mapError Failure.ofError = .error failure :=
    congrArg Prod.fst hrun
  cases hact : act.run w.archive with
  | mk outcome archive =>
    rw [hact] at houtcome
    cases outcome with
    | ok a => cases houtcome
    | error e =>
      obtain rfl : Failure.ofError e = failure := Except.error.inj houtcome
      exact Failure.isOther_ofError (h _ _ _ hact)

theorem failsBy_filing (act : StateM Archive α) : FailsBy Failure.IsOther (filing act) :=
  fun _ _ _ h => by cases congrArg Prod.fst h

theorem failsBy_get : FailsBy Failure.IsOther (get : Work Workshop) :=
  fun _ _ _ h => by cases congrArg Prod.fst h

theorem failsBy_modify (change : Workshop → Workshop) :
    FailsBy Failure.IsOther (modify change : Work PUnit) :=
  fun _ _ _ h => by cases congrArg Prod.fst h

theorem failsBy_lookup (name : Name) : FailsBy Failure.IsOther (lookup name) := by
  refine failsBy_get.bind fun w => ?_
  split
  · exact .pure _
  · exact failsBy_fail (by simp)

theorem failsBy_lookupPattern (name : Name) : FailsBy Failure.IsOther (lookupPattern name) := by
  refine (failsBy_lookup name).bind fun v => ?_
  split
  · exact .pure _
  · exact failsBy_fail (by simp)

theorem failsBy_flags (letters : Text) : FailsBy Failure.IsOther (flags letters) := by
  unfold flags
  split
  · exact .pure _
  · exact .throw (Failure.isOther_ofError rfl)

theorem failsBy_flags? (letters : Option Text) : FailsBy Failure.IsOther (flags? letters) := by
  cases letters with
  | none => exact .pure _
  | some letters => exact (failsBy_flags letters).bind fun _ => .pure _

theorem failsBy_require (r : Requirement) : FailsBy Failure.IsOther (require r) := by
  cases r with
  | defined name => exact (failsBy_lookup name).bind fun _ => .pure _
  | pattern name => exact (failsBy_lookupPattern name).bind fun _ => .pure _
  | flags letters => exact (failsBy_flags letters).bind fun _ => .pure _
  | malformed field => exact failsBy_fail (by simp)

theorem failsBy_requireAll (requirements : List Requirement) :
    FailsBy Failure.IsOther (requireAll requirements) := by
  induction requirements with
  | nil => exact .pure _
  | cons r rest ih => exact (failsBy_require r).bind fun _ => ih

theorem failsBy_keep (result : Option Name) (value : Value) :
    FailsBy Failure.IsOther (keep result value) := by
  cases result with
  | none => exact failsBy_get.bind fun _ => .pure _
  | some name => exact (failsBy_modify _).bind fun _ => failsBy_get.bind fun _ => .pure _

theorem failsBy_find (p : Pattern) (question : Question) :
    FailsBy Failure.IsOther (p.find question) := by
  cases question with
  | needsWrapping wide => exact failsBy_fail (by simp)
  | captures | references | alternates | singleGroup =>
    exact (failsBy_filing _).bind fun _ => .pure _

theorem yields_find (f : Fragment) (question : Question) :
    Yields (fun _ => True) (filing (f.find question)) fun r =>
      ∀ e, r.1 = .error e → e.IsOther := by
  intro w _
  refine ⟨fun r hr => ?_, trivial⟩
  obtain rfl := Except.ok.inj hr
  exact (f.keeps_find question w.archive trivial).1

theorem failsBy_force (name : Name) (question : Question) :
    FailsBy Failure.IsOther (force name question) := by
  refine (failsBy_lookup name).bind fun v => ?_
  cases v with
  | pattern p =>
    exact (failsBy_find p question).bind fun _ => failsBy_get.bind fun _ => .pure _
  | fragment f =>
    refine .bindYields (yields_find f question) (failsBy_filing _) fun ⟨outcome, g⟩ h => ?_
    refine (failsBy_modify _).bind fun _ => ?_
    cases outcome with
    | ok finding => exact failsBy_get.bind fun _ => .pure _
    | error e => exact .throw (Failure.isOther_ofError (h e rfl))

theorem failsBy_action (a : Action) : FailsBy Failure.IsOther a.run := by
  cases a with
  | compile result source letters =>
    exact (failsBy_onArchive (Fragment.failsBy_compile _ _)).bind fun _ => failsBy_keep _ _
  | raw result source letters => exact (failsBy_flags? letters).bind fun _ => failsBy_keep _ _
  | native result name => exact (failsBy_lookupPattern name).bind fun _ => failsBy_keep _ _
  | copy result name => exact (failsBy_lookup name).bind fun _ => failsBy_keep _ _
  | decorate result name wrapping =>
    refine (failsBy_lookup name).bind fun v => failsBy_get.bind fun w => ?_
    exact (failsBy_onArchive (Fragment.failsBy_decorate _ _ _)).bind fun _ => failsBy_keep _ _
  | finish result name add remove direction =>
    refine (failsBy_lookup name).bind fun v => ?_
    refine (failsBy_flags? add).bind fun _ => (failsBy_flags? remove).bind fun _ => ?_
    refine failsBy_get.bind fun w => ?_
    exact (failsBy_onArchive (Fragment.failsBy_finish _ _ _ _)).bind fun _ => failsBy_keep _ _
  | stance => exact failsBy_get.bind fun _ => .pure _
  | reset => exact (failsBy_modify _).bind fun _ => .pure _
  | inspect name => exact (failsBy_lookup name).bind fun _ => failsBy_keep _ _
  | force name question => exact failsBy_force name question
  | same first second =>
    exact (failsBy_lookupPattern first).bind fun _ =>
      (failsBy_lookupPattern second).bind fun _ => .pure _
  | checkDirection name building =>
    refine (failsBy_lookupPattern name).bind fun p => ?_
    split
    · exact .pure _
    · rename_i e he
      exact .throw (Failure.isOther_ofError (Direction.check_error he))
  | malformed before field =>
    exact (failsBy_requireAll before).bind fun _ => failsBy_fail (by simp)

end Work

end Splice
