import Splice.Proofs.Answers
import Splice.Proofs.Hearing

/-!
# Decorated fragments and their flags

A decorated fragment asks for the flags in its traits. A composite is offered
under its traits anyway, so decorating it changes nothing for the fragments that
it is combined with. A native fragment is offered under the flags of its
pattern, and keeps to them only if the traits of the pattern record them.
-/

namespace Splice

variable {fold wide : Bool} {archive archive' : Archive} {wrapping : Wrapping} {f g : Fragment}

-- ---------------------------------------------------------------------------
-- Offers
-- ---------------------------------------------------------------------------

/-- An error without the text by which it shows a piece. -/
def Error.unshown : Error → Error
  | .caseMismatch _ => .caseMismatch []
  | .multilineMismatch _ => .multilineMismatch []
  | e => e

/-- Offers a fragment as an item to an agreement, while no direction is being
built, so that any direction fits. -/
def Fragment.offer (fold : Bool) (a : Agreement) (f : Fragment) :
    Except Error Unit × Agreement :=
  let (outcome, s) := match f.origin with
    | .native p => Stance.admitPattern fold p ⟨a, .neutral⟩
    | .literal => (.ok false, ⟨a, .neutral⟩)
    | .composite traits _ => Stance.admitComposite fold f.source traits ⟨a, .neutral⟩
  (outcome.map fun _ => (), s.agreement)

namespace Agreement

/-- Two ways of hearing that accept and reject alike, with the same kind of
error, and leave the same flags behind. What is agreed on about `m` does not
matter where line anchors are folded. -/
structure Concurs (fold : Bool) (r r' : Except Error Unit × Agreement) : Prop where
  outcome : r.1.mapError Error.unshown = r'.1.mapError Error.unshown
  ignoreCase : r.2.ignoreCase = r'.2.ignoreCase
  wide : r.2.wide = r'.2.wide
  multiline : fold = false → r.2.multiline = r'.2.multiline

structure Matches (fold : Bool) (d d' : Demand) : Prop where
  ignoreCase : d.ignoreCase = d'.ignoreCase
  wide : d.wide = d'.wide
  multiline : fold = false → d.multiline = d'.multiline

theorem hear_fresh (fold : Bool) (shown : Text) (d : Demand) :
    fresh.hear fold shown d = (.ok (), d.agreement) := by
  simp [hear, fresh, conflicts, Demand.agreement]

theorem concurs_hear {d d' : Demand} (h : Matches fold d d') (a : Agreement) (shown shown' : Text) :
    Concurs fold (a.hear fold shown d) (a.hear fold shown' d') := by
  obtain ⟨i, m, w⟩ := d
  obtain ⟨i', m', w'⟩ := d'
  obtain ⟨rfl, rfl, hm⟩ : i = i' ∧ w = w' ∧ (fold = false → m = m') :=
    ⟨h.ignoreCase, h.wide, h.multiline⟩
  unfold hear
  cases hcase : conflicts a.ignoreCase i with
  | true => exact ⟨rfl, rfl, rfl, fun _ => rfl⟩
  | false =>
    cases fold with
    | true => exact ⟨rfl, rfl, rfl, by simp⟩
    | false =>
      obtain rfl := hm rfl
      cases hmode : conflicts a.multiline m <;>
        constructor <;> simp [hmode, Except.mapError, Error.unshown]

theorem concurs_hear_iff {d d' : Demand} (shown shown' : Text) :
    (∀ a : Agreement, Concurs fold (a.hear fold shown d) (a.hear fold shown' d')) ↔
      Matches fold d d' := by
  refine ⟨fun h => ?_, fun h a => concurs_hear h a shown shown'⟩
  obtain ⟨-, hi, hw, hm⟩ := h fresh
  rw [hear_fresh, hear_fresh] at hi hw hm
  exact ⟨hi, hw, hm⟩

end Agreement

namespace Fragment

def shown (f : Fragment) : Text :=
  match f.origin with
  | .native p => p.display
  | _ => Error.slashed f.source []

theorem offer_eq (fold : Bool) (a : Agreement) (f : Fragment) :
    f.offer fold a = a.hear fold f.shown f.demand := by
  obtain ⟨source, origin⟩ := f
  have unopposed : ∀ d : Direction, d.opposes .neutral = false := fun d => by cases d <;> rfl
  cases origin with
  | native p =>
    show ((Stance.admitPattern fold p ⟨a, .neutral⟩).1.map _,
      (Stance.admitPattern fold p ⟨a, .neutral⟩).2.agreement) = a.hear fold p.display p.demand
    unfold Stance.admitPattern
    simp only
    cases h : a.hear fold p.display p.demand with
    | mk outcome b => cases outcome <;> simp [Direction.check, unopposed] <;> rfl
  | literal => simp [offer, demand, Agreement.hear, conflicts]; rfl
  | composite traits record =>
    show ((Stance.admitComposite fold source traits ⟨a, .neutral⟩).1.map _,
      (Stance.admitComposite fold source traits ⟨a, .neutral⟩).2.agreement) =
        a.hear fold (Error.slashed source []) traits.demand
    unfold Stance.admitComposite
    simp only [Direction.check, unopposed]
    cases h : a.hear fold (Error.slashed source []) traits.demand with
    | mk outcome b => cases outcome <;> rfl

-- ---------------------------------------------------------------------------
-- Decoration
-- ---------------------------------------------------------------------------

def isNative (f : Fragment) : Bool :=
  match f.origin with
  | .native _ => true
  | _ => false

def RecordsFlags (fold : Bool) (f : Fragment) : Prop :=
  match f.origin with
  | .native p => p.traits.ignoreCase = some p.flags.ignoreCase ∧ p.traits.wide = p.flags.unicode ∧
      (fold = false → p.traits.multiline = some p.flags.multiline)
  | _ => True

theorem SameBut.demand (h : f.SameBut g) : g.demand = f.demand ∧ g.isNative = f.isNative := by
  have ho := h.origin
  unfold Fragment.demand isNative
  cases hf : f.origin <;> cases hg : g.origin <;> simp_all [Origin.unrecorded]

/-- A decorated fragment is accepted and rejected like the fragment itself, and
leaves the same flags behind, exactly if it is still the native fragment, or if
the traits of the fragment record the flags under which it is offered. -/
theorem decorate_offers (fold : Bool) (hl : f.isLiteral = false)
    (h : (f.decorate wide wrapping).run archive = (.ok g, archive')) :
    (∀ a : Agreement, Agreement.Concurs fold (g.offer fold a) (f.offer fold a)) ↔
      g.isNative ∨ f.RecordsFlags fold := by
  simp only [offer_eq, Agreement.concurs_hear_iff]
  obtain hsame | ⟨source, rfl⟩ := decorate_ok h
  · obtain ⟨hdemand, hnative⟩ := hsame.demand
    refine ⟨fun _ => ?_, fun _ => ⟨by rw [hdemand], by rw [hdemand], fun _ => by rw [hdemand]⟩⟩
    unfold isNative RecordsFlags at *
    cases ho : f.origin <;> simp_all
  · obtain ⟨fs, origin⟩ := f
    cases origin with
    | literal => cases hl
    | composite traits record =>
      exact ⟨fun _ => .inr trivial, fun _ => ⟨rfl, rfl, fun _ => rfl⟩⟩
    | native p =>
      constructor
      · rintro ⟨hi, hw, hm⟩
        exact .inr ⟨hi, hw, hm⟩
      · rintro (hnative | ⟨hi, hw, hm⟩)
        · cases hnative
        · exact ⟨hi, hw, hm⟩

/-- A repeated piece keeps its flag `i`, because the pattern has been finished
with it. In a fresh workshop that pattern is rejected behind a narrow one. -/
theorem decorate_offers_finished :
    let p : Pattern := ⟨0, "ab".toList, Flags.empty.insert .ignoreCase,
      ⟨.neutral, false, some true, some false⟩⟩
    let g : Fragment := .composite "(?:ab)*".toList p.traits .empty
    let a : Agreement := ⟨some false, none, true⟩
    Except.toOption ((decorate false ⟨.quantifier, "(?:".toList, [')'], some ['*']⟩ (.native p)).run
        #[.empty]).1 = some g ∧
      g.offer false a = (.error (.caseMismatch "/(?:ab)*/".toList), a) ∧
      Agreement.Concurs false (g.offer false a) ((native p).offer false a) := by
  intro p g a
  have hrun := Work.run_ok
    (decorate false ⟨.quantifier, "(?:".toList, [')'], some ['*']⟩ (.native p)) #[.empty] g
    (by decide +kernel)
  refine ⟨by decide +kernel, by decide +kernel, ?_⟩
  exact (decorate_offers false rfl hrun).mpr (.inr ⟨rfl, rfl, fun _ => rfl⟩) a

end Fragment

end Splice
