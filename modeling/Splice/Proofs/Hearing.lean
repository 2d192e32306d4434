import Mathlib
import Splice.Fragment

/-!
# What assemblies agree on

A stance hears the demands of fragments one behind the other and fails at the
first conflict. Whether some fragments are heard, and what is agreed on then,
does not change if they agree among themselves beforehand and are heard as one.
-/

namespace Splice

variable {fold : Bool}

-- ---------------------------------------------------------------------------
-- Demands
-- ---------------------------------------------------------------------------

/-- A value that is agreed on and one that is asked for, unless they conflict. -/
def settled (strict : Bool) (agreed asked : Option Bool) : Option (Option Bool) :=
  if strict && conflicts agreed asked then none else some (asked.or agreed)

theorem settled_assoc {strict : Bool} {a b c e : Option Bool} :
    (∃ ab, settled strict a b = some ab ∧ settled strict ab c = some e) ↔
      ∃ bc, settled strict b c = some bc ∧ settled strict a bc = some e := by
  revert strict a b c e
  decide

def Demand.agreement (d : Demand) : Agreement := ⟨d.ignoreCase, d.multiline, d.wide⟩

namespace Agreement

def heard (fold : Bool) (a : Agreement) (d : Demand) : Option Agreement :=
  (settled true a.ignoreCase d.ignoreCase).bind fun ignoreCase =>
    (settled (!fold) a.multiline d.multiline).map fun multiline =>
      ⟨ignoreCase, multiline, a.wide || d.wide⟩

theorem hear_cases (fold : Bool) (shown : Text) (a : Agreement) (d : Demand) :
    (∃ b, a.heard fold d = some b ∧ a.hear fold shown d = (.ok (), b)) ∨
      a.heard fold d = none ∧ ∃ e b, a.hear fold shown d = (.error e, b) := by
  unfold heard hear settled
  cases conflicts a.ignoreCase d.ignoreCase with
  | true => exact .inr ⟨rfl, _, _, rfl⟩
  | false =>
    cases hc : !fold && conflicts a.multiline d.multiline with
    | true => exact .inr ⟨rfl, .multilineMismatch shown, _, by simp [hc]; rfl⟩
    | false => exact .inl ⟨_, rfl, by simp [hc]⟩

def demand (a : Agreement) : Demand := ⟨a.ignoreCase, a.multiline, a.wide⟩

theorem heard_fresh (d : Demand) : fresh.heard fold d = some d.agreement := by
  simp [heard, settled, fresh, conflicts, Demand.agreement]

theorem heard_nothing (a : Agreement) : a.heard fold ⟨none, none, false⟩ = some a := by
  obtain ⟨i, m, w⟩ := a
  cases i <;> cases m <;> simp [heard, settled, conflicts]

theorem heard_eq_some {a c : Agreement} {d : Demand} : a.heard fold d = some c ↔
    settled true a.ignoreCase d.ignoreCase = some c.ignoreCase ∧
      settled (!fold) a.multiline d.multiline = some c.multiline ∧ (a.wide || d.wide) = c.wide := by
  obtain ⟨i, m, w⟩ := c
  simp [heard, Option.bind_eq_some_iff]

theorem heard_assoc (fold : Bool) (a b : Agreement) (d : Demand) :
    (a.heard fold b.demand).bind (·.heard fold d) =
      (b.heard fold d).bind fun c => a.heard fold c.demand := by
  ext e
  simp only [Option.bind_eq_some_iff, heard_eq_some, demand]
  constructor
  · rintro ⟨⟨i, m, w⟩, ⟨hi, hm, hw⟩, hi', hm', hw'⟩
    obtain ⟨i', hbi, hai⟩ := settled_assoc.mp ⟨i, hi, hi'⟩
    obtain ⟨m', hbm, ham⟩ := settled_assoc.mp ⟨m, hm, hm'⟩
    exact ⟨⟨i', m', b.wide || d.wide⟩, ⟨hbi, hbm, rfl⟩, hai, ham,
      by rw [← hw', ← hw, Bool.or_assoc]⟩
  · rintro ⟨⟨i, m, w⟩, ⟨hi, hm, hw⟩, hi', hm', hw'⟩
    obtain ⟨i', hbi, hai⟩ := settled_assoc.mpr ⟨i, hi, hi'⟩
    obtain ⟨m', hbm, ham⟩ := settled_assoc.mpr ⟨m, hm, hm'⟩
    exact ⟨⟨i', m', a.wide || b.wide⟩, ⟨hbi, hbm, rfl⟩, hai, ham,
      by rw [← hw', ← hw, Bool.or_assoc]⟩

end Agreement

-- ---------------------------------------------------------------------------
-- Fragments
-- ---------------------------------------------------------------------------

namespace Fragment

/-- What a fragment asks of the flags of the whole. A literal asks for nothing. -/
def demand (f : Fragment) : Demand :=
  match f.origin with
  | .native p => p.demand
  | .literal => ⟨none, none, false⟩
  | .composite t _ => t.demand

def direction (f : Fragment) : Direction := (f.traits?.map Traits.direction).getD .neutral

/-- Whether a fragment is tied to a direction. -/
def tied (f : Fragment) : Bool := f.direction != .neutral

def heard (fold : Bool) (s : Stance) (f : Fragment) : Option Stance :=
  if f.direction.opposes s.direction then none
  else (s.agreement.heard fold f.demand).map fun a => { s with agreement := a }

def heardAll (fold : Bool) (s : Stance) (fs : List Fragment) : Option Stance :=
  fs.foldlM (heard fold) s

variable {f : Fragment} {fs gs : List Fragment} {s t : Stance}

theorem heardAll_cons (s : Stance) (f : Fragment) (fs : List Fragment) :
    heardAll fold s (f :: fs) = (f.heard fold s).bind (heardAll fold · fs) := by
  simp [heardAll, List.foldlM_cons, bind]

theorem heardAll_append (s : Stance) (fs gs : List Fragment) :
    heardAll fold s (fs ++ gs) = (heardAll fold s fs).bind (heardAll fold · gs) := by
  simp [heardAll, List.foldlM_append, bind]

theorem heard_eq_some (h : f.heard fold s = some t) :
    ∃ a, s.agreement.heard fold f.demand = some a ∧ t = { s with agreement := a } := by
  unfold heard at h
  split at h
  · simp at h
  · obtain ⟨a, ha, rfl⟩ := Option.map_eq_some_iff.mp h
    exact ⟨a, ha, rfl⟩

theorem admitPattern_cases (p : Pattern) (s : Stance) :
    (∃ t, (native p).heard fold s = some t ∧ s.admitPattern fold p = (.ok (native p).tied, t)) ∨
      (native p).heard fold s = none ∧ ∃ e t, s.admitPattern fold p = (.error e, t) := by
  have hd : (native p).direction = p.traits.direction := rfl
  have hm : (native p).demand = p.demand := rfl
  unfold heard Stance.admitPattern
  rw [hd, hm]
  obtain ⟨a, ha, hear⟩ | ⟨ha, e, a, hear⟩ := s.agreement.hear_cases fold p.display p.demand
  · rw [ha, hear]
    cases ho : p.traits.direction.opposes s.direction with
    | true => exact .inr ⟨rfl, _, _, by simp [Direction.check, ho]; exact ⟨rfl, rfl⟩⟩
    | false => exact .inl ⟨_, rfl, by simp [Direction.check, ho, tied, hd]⟩
  · rw [ha, hear]
    exact .inr ⟨by simp, _, _, rfl⟩

theorem admitComposite_cases (source : Text) (t : Traits) (a : Analysis) (s : Stance) :
    (∃ u, (composite source t a).heard fold s = some u ∧
        s.admitComposite fold source t = (.ok (composite source t a).tied, u)) ∨
      (composite source t a).heard fold s = none ∧
        ∃ e u, s.admitComposite fold source t = (.error e, u) := by
  have hd : (composite source t a).direction = t.direction := rfl
  have hm : (composite source t a).demand = t.demand := rfl
  unfold heard Stance.admitComposite
  rw [hd, hm]
  cases ho : t.direction.opposes s.direction with
  | true => exact .inr ⟨rfl, _, _, by simp [Direction.check, ho]; exact ⟨rfl, rfl⟩⟩
  | false =>
    obtain ⟨b, hb, hear⟩ | ⟨hb, e, b, hear⟩ :=
      s.agreement.hear_cases fold (Error.slashed source []) t.demand
    · exact .inl ⟨{ s with agreement := b }, by simp [hb],
        by simp [Direction.check, hear, tied, hd, ho, Except.map]⟩
    · exact .inr ⟨by simp [hb], e, { s with agreement := b },
        by simp [Direction.check, hear, ho, Except.map]⟩

theorem heard_narrow (h : f.heard fold s = some t) (hf : f.demand.wide = false)
    (hs : s.agreement.wide = false) : t.agreement.wide = false := by
  obtain ⟨a, ha, rfl⟩ := heard_eq_some h
  rw [← (Agreement.heard_eq_some.mp ha).2.2, hs, hf]
  rfl

theorem heardAll_fresh (s : Stance) (fs : List Fragment) :
    heardAll fold s fs = (heardAll fold s.reset fs).bind fun t =>
      (s.agreement.heard fold t.agreement.demand).map fun a => { s with agreement := a } := by
  induction fs generalizing s with
  | nil => simp [heardAll, Stance.reset, Agreement.demand, Agreement.fresh, Agreement.heard_nothing]
  | cons f fs ih =>
    rw [heardAll_cons, heardAll_cons]
    by_cases ho : f.direction.opposes s.direction
    · simp [heard, ho, Stance.reset]
    · have hfirst : ∀ a, f.heard fold { s with agreement := a } =
          (a.heard fold f.demand).map fun a => { s with agreement := a } := by
        intro a
        simp [heard, ho]
      rw [show f.heard fold s = _ from hfirst s.agreement,
        show f.heard fold s.reset = _ from hfirst .fresh, Agreement.heard_fresh]
      have hrest : ∀ a, heardAll fold { s with agreement := a } fs =
          (heardAll fold s.reset fs).bind fun t =>
            (a.heard fold t.agreement.demand).map fun a => { s with agreement := a } :=
        fun a => ih { s with agreement := a }
      simp only [Option.map_some, Option.bind_some, Option.bind_map, Function.comp_def, hrest]
      cases heardAll fold s.reset fs with
      | none => simp
      | some t =>
        have hassoc := congrArg (Option.map fun a => { s with agreement := a })
          (Agreement.heard_assoc fold s.agreement f.demand.agreement t.agreement.demand)
        have hdemand : f.demand.agreement.demand = f.demand := rfl
        simpa [Option.map_bind, Option.bind_map, Function.comp_def, hdemand] using hassoc

theorem heardAll_reset (h : heardAll fold s fs = some t) : t.reset = s.reset := by
  induction fs generalizing s with
  | nil =>
    obtain rfl := Option.some.inj h
    rfl
  | cons f fs ih =>
    rw [heardAll_cons] at h
    obtain ⟨u, hu, h⟩ := Option.bind_eq_some_iff.mp h
    obtain ⟨a, -, rfl⟩ := heard_eq_some hu
    have hrest := ih h
    exact hrest

theorem heardAll_direction (h : heardAll fold s fs = some t) : t.direction = s.direction := by
  have hreset : t.reset.direction = s.reset.direction := congrArg _ (heardAll_reset h)
  exact hreset

/-- A fragment stands for others that agreed on what it asks for, in the same direction. -/
theorem heardAll_standing (ht : heardAll fold s.reset gs = some t)
    (hd : f.demand = t.agreement.demand)
    (hf : f.direction = .neutral ∨ f.direction = s.direction) (before after : List Fragment) :
    heardAll fold s (before ++ f :: after) = heardAll fold s (before ++ (gs ++ after)) := by
  rw [heardAll_append, heardAll_append]
  cases hu : heardAll fold s before with
  | none => rfl
  | some u =>
    have hreset := heardAll_reset hu
    have hdirection := heardAll_direction hu
    have hopposes : f.direction.opposes u.direction = false := by
      rw [hdirection]
      obtain hf | hf := hf <;> rw [hf]
      · rfl
      · cases s.direction <;> rfl
    rw [Option.bind_some, Option.bind_some, heardAll_cons, heardAll_append, heardAll_fresh u gs,
      hreset, ht, Option.bind_some, heard, hd, if_neg (by simp [hopposes])]

theorem heardAll_eq_none (h : heardAll fold s.reset gs = none) (before after : List Fragment) :
    heardAll fold s (before ++ (gs ++ after)) = none := by
  rw [heardAll_append]
  cases hu : heardAll fold s before with
  | none => rfl
  | some u => rw [Option.bind_some, heardAll_append, heardAll_fresh u gs, heardAll_reset hu, h]; rfl

theorem heardAll_narrow (h : heardAll fold s fs = some t) (hf : ∀ f ∈ fs, f.demand.wide = false)
    (hs : s.agreement.wide = false) : t.agreement.wide = false := by
  induction fs generalizing s with
  | nil =>
    obtain rfl := Option.some.inj h
    exact hs
  | cons f fs ih =>
    rw [List.forall_mem_cons] at hf
    rw [heardAll_cons] at h
    obtain ⟨u, hu, h⟩ := Option.bind_eq_some_iff.mp h
    exact ih h hf.2 (heard_narrow hu hf.1 hs)

end Fragment

end Splice
