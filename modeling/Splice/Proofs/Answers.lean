import Splice.Program.Run
import Splice.Proofs.Acts

/-!
# What a run that answers has done

Each lemma takes the answer of one operation apart: what the operation has
asked of its parts, and where its answer comes from.
-/

namespace Splice

open Source

variable {α : Type} {fold : Bool} {layout : Layout} {archive archive' : Archive}
  {w w' : Workshop} {f g : Fragment} {p : Pattern}

theorem Work.run_ok {σ ε : Type} (act : ExceptT ε (StateM σ) α) (w : σ) (a : α)
    (h : (act.run w).1.toOption = some a) : act.run w = (.ok a, (act.run w).2) := by
  refine Prod.ext ?_ rfl
  generalize (act.run w).1 = outcome at h
  cases outcome with
  | ok b => exact congrArg _ (Option.some.inj h)
  | error e => simp [Except.toOption] at h

-- ---------------------------------------------------------------------------
-- Patterns and fragments
-- ---------------------------------------------------------------------------

theorem Pattern.make_ok {source : Text} {flags : Flags} {traits : Traits} {a : Analysis}
    (h : (make source flags traits a).run archive = (.ok p, archive')) :
    Grammar.accepts flags.unicode source ∧ p = ⟨archive.size, source, flags, traits⟩ := by
  unfold make at h
  split at h
  · exact ⟨‹_›, (Except.ok.inj (congrArg Prod.fst h)).symm⟩
  · cases congrArg Prod.fst h

theorem Fragment.promote_ok : f.promote = .ok g ↔
    hasWideProblem f.source = false ∧ g = { f with source := Source.promote f.source } := by
  unfold promote
  cases hasWideProblem f.source <;> simp [eq_comm]

/-- A finished pattern stands for the source of its fragment, which is promoted
if the caller alone asks for wide mode, and keeps its other traits. -/
theorem Fragment.finish_ok {agreement : Agreement} {options : Finish}
    (h : (f.finish fold agreement options).run archive = (.ok p, archive')) :
    p.flags = options.flags fold agreement ∧
      p.traits = { f.traits?.getD .plain with
        direction := options.direction.getD (f.traits?.getD .plain).direction
        wide := p.flags.unicode } ∧
      if p.flags.unicode && !agreement.wide && !f.isWide then
        hasWideProblem f.source = false ∧ p.source = Source.promote f.source
      else p.source = f.source := by
  unfold finish at h
  simp only at h
  split at h <;> rename_i hasked
  · obtain ⟨g, _, hg, h⟩ := run_bind_ok h
    obtain ⟨_, _, -, h⟩ := run_bind_ok h
    obtain ⟨-, rfl⟩ := Pattern.make_ok h
    obtain ⟨hfine, rfl⟩ := promote_ok.mp (congrArg Prod.fst hg)
    exact ⟨rfl, rfl, by rw [if_pos hasked]; exact ⟨hfine, rfl⟩⟩
  · obtain ⟨g, _, hg, h⟩ := run_bind_ok h
    obtain ⟨_, _, -, h⟩ := run_bind_ok h
    obtain ⟨-, rfl⟩ := Pattern.make_ok h
    obtain rfl : f = g := Except.ok.inj (congrArg Prod.fst hg)
    exact ⟨rfl, rfl, by rw [if_neg hasked]⟩

-- ---------------------------------------------------------------------------
-- Records aside
-- ---------------------------------------------------------------------------

/-- Where a fragment came from, without what is recorded about it. -/
def Origin.unrecorded : Origin → Origin
  | .composite traits _ => .composite traits .empty
  | origin => origin

namespace Fragment

/-- Fragments that differ at most in what is recorded about them. -/
structure SameBut (f g : Fragment) : Prop where
  source : g.source = f.source
  origin : g.origin.unrecorded = f.origin.unrecorded

theorem sameBut_refl (f : Fragment) : f.SameBut f := ⟨rfl, rfl⟩

theorem SameBut.traits (h : f.SameBut g) : g.traits? = f.traits? := by
  have ho := h.origin
  unfold traits?
  cases hf : f.origin <;> cases hg : g.origin <;> simp_all [Origin.unrecorded]

theorem sameBut_ask (p : Property α) (f : Fragment) (archive : Archive) :
    f.SameBut (f.ask p archive).1.2 := by
  obtain ⟨source, _ | _ | _⟩ := f <;> exact ⟨rfl, rfl⟩

theorem sameBut_needsWrapping (wide : Bool) (f : Fragment) (archive : Archive) :
    f.SameBut (f.needsWrapping wide archive).1.2 := by
  unfold needsWrapping
  cases repeatability wide f.source with
  | nothing => exact sameBut_refl f
  | whole => exact sameBut_refl f
  | wholeIfGroup assertion => exact sameBut_ask .singleGroup f archive

theorem applies_ok {wide delimited : Bool} {occasion : Occasion}
    (h : (Wrapping.applies wide occasion f).run archive = (.ok (delimited, g), archive')) :
    f.SameBut g := by
  unfold Wrapping.applies at h
  cases occasion with
  | always =>
    obtain ⟨-, rfl⟩ := Prod.mk.inj (Except.ok.inj (congrArg Prod.fst h))
    exact sameBut_refl f
  | quantifier =>
    obtain ⟨⟨outcome, f'⟩, _, hasked, h⟩ := run_bind_ok h
    obtain ⟨_, _, -, h⟩ := run_bind_ok h
    obtain ⟨-, rfl⟩ := Prod.mk.inj (Except.ok.inj (congrArg Prod.fst h))
    have hf : f' = (f.needsWrapping wide archive).1.2 :=
      congrArg Prod.snd (Except.ok.inj (congrArg Prod.fst hasked)).symm
    exact hf ▸ sameBut_needsWrapping wide f archive
  | disjunction =>
    have hg : g = (f.ask .alternates archive).1.2 :=
      congrArg Prod.snd (Except.ok.inj (congrArg Prod.fst h)).symm
    exact hg ▸ sameBut_ask .alternates f archive

theorem decorate_ok {wide : Bool} {wrapping : Wrapping}
    (h : (f.decorate wide wrapping).run archive = (.ok g, archive')) :
    f.SameBut g ∨ ∃ source,
      g = .composite source (f.traits?.getD { Traits.plain with wide := wide }) .empty := by
  unfold decorate at h
  obtain ⟨⟨delimited, f'⟩, _, happlies, h⟩ := run_bind_ok h
  have hsame := applies_ok happlies
  simp only at h
  split at h
  · obtain rfl := Except.ok.inj (congrArg Prod.fst h)
    exact .inl hsame
  · obtain rfl := Except.ok.inj (congrArg Prod.fst h)
    exact .inr ⟨_, by rw [hsame.traits]⟩

end Fragment

-- ---------------------------------------------------------------------------
-- Assemblies
-- ---------------------------------------------------------------------------

theorem Fragment.numberAll_fits {count : Word} {fs : List Fragment} {n : Numbered}
    (h : (numberAll count fs).run archive = (.ok n, archive')) :
    count.toNat + n.captures < wordLimit := by
  induction fs generalizing count n archive archive' with
  | nil =>
    obtain rfl := Except.ok.inj (congrArg Prod.fst h)
    exact count.toNat_lt
  | cons f fs ih =>
    obtain ⟨⟨piece, captures, present⟩, _, -, h⟩ := run_bind_ok h
    obtain ⟨behind, _, hbehind, h⟩ := run_bind_ok h
    obtain ⟨others, _, hothers, h⟩ := run_bind_ok h
    have hsum := Word.add_eq_ok.mp (congrArg Prod.fst hbehind)
    have hfits := ih hothers
    rw [← Except.ok.inj (congrArg Prod.fst h)]
    simp only
    omega

theorem assemble_toFragment {stance : Stance} {directed : Bool} {fs : List Fragment}
    (h : (assemble fold stance layout directed fs).run archive = (.ok f, archive')) :
    ∃ n : Numbered, f = n.toFragment layout stance directed ∧
      layout.offset.toNat + n.captures < wordLimit := by
  obtain ⟨_, _, -, h⟩ := run_bind_ok h
  simp only at h
  split at h <;>
  · obtain ⟨_, _, -, h⟩ := run_bind_ok h
    obtain ⟨n, _, hn, h⟩ := run_bind_ok h
    exact ⟨n, (Except.ok.inj (congrArg Prod.fst h)).symm, Fragment.numberAll_fits hn⟩

namespace Work

theorem onArchive_ok {act : ExceptT Error (StateM Archive) α} {a : α}
    (h : (onArchive act).run w = (.ok a, w')) :
    ∃ archive, act.run w.archive = (.ok a, archive) ∧ w' = { w with archive := archive } := by
  have hrun : (onArchive act).run w =
      ((act.run w.archive).1.mapError Failure.ofError,
        { w with archive := (act.run w.archive).2 }) := rfl
  rw [hrun] at h
  exact ⟨_, Prod.ext (mapError_ok.mp (congrArg Prod.fst h)) rfl, (congrArg Prod.snd h).symm⟩

theorem build_ok {count : Nat} {resolve : Bool → Work (List Part)}
    (h : (build layout count resolve).run w = (.ok f, w')) :
    ∃ parts after archive, (resolve (layout.wrap || 1 < count)).run w = (.ok parts, after) ∧
      (Splice.assemble after.fold after.stance { layout with wrap := layout.wrap || 1 < count }
        (parts.any Prod.snd) (parts.map Prod.fst)).run after.archive = (.ok f, archive) ∧
      w' = { after with archive := archive } := by
  obtain ⟨parts, after, hparts, h⟩ := run_bind_ok h
  obtain ⟨start, _, hstart, h⟩ := run_bind_ok h
  obtain rfl : after = start := Except.ok.inj (congrArg Prod.fst hstart)
  obtain rfl := congrArg Prod.snd hstart
  obtain ⟨archive, hrun, rfl⟩ := onArchive_ok h
  exact ⟨parts, after, archive, hparts, hrun, rfl⟩

end Work

end Splice
