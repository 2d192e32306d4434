import Mathlib

/-!
# Reasoning about acts

What may fail succeeds where each of its steps does. Composition is written as
acts that change a state as well. `Keeps` and `Yields` say of an act that it
keeps an invariant of the state, whatever comes of it, and that its answer
satisfies a condition. `Settles` says what comes of it, failures included.
-/

namespace Splice

variable {σ ε α β : Type} {I : σ → Prop}

-- ---------------------------------------------------------------------------
-- Outcomes
-- ---------------------------------------------------------------------------

section

variable {outcome : Except ε α} {a : α} {b : β}

theorem bind_ok {next : α → Except ε β} :
    (outcome >>= next) = .ok b ↔ ∃ a, outcome = .ok a ∧ next a = .ok b := by
  cases outcome <;> simp [bind, Except.bind]

theorem pure_ok {a' : α} : (pure a : Except ε α) = .ok a' ↔ a = a' := by
  simp [pure, Except.pure]

theorem map_ok {f : α → β} : outcome.map f = .ok b ↔ ∃ a, outcome = .ok a ∧ f a = b := by
  cases outcome <;> simp [Except.map]

theorem mapError_ok {δ : Type} {f : ε → δ} : outcome.mapError f = .ok a ↔ outcome = .ok a := by
  cases outcome <;> simp [Except.mapError]

variable {f g : α → Except ε β} {l : List α} {r : List β}

theorem mapM_cons_ok (h : (a :: l).mapM f = .ok r) :
    ∃ b rest, f a = .ok b ∧ l.mapM f = .ok rest ∧ r = b :: rest := by
  simp only [List.mapM_cons, bind_ok, pure_ok] at h
  obtain ⟨b, hb, rest, hr, rfl⟩ := h
  exact ⟨b, rest, hb, hr, rfl⟩

theorem mapM_ok (h : l.mapM f = .ok r) : List.Forall₂ (fun a b => f a = .ok b) l r := by
  induction l generalizing r with
  | nil =>
    obtain rfl := pure_ok.mp h
    exact .nil
  | cons a l ih =>
    obtain ⟨b, rest, hb, hr, rfl⟩ := mapM_cons_ok h
    exact .cons hb (ih hr)

theorem exists_of_mapM_ok (h : l.mapM f = .ok r) : ∀ a ∈ l, ∃ b, f a = .ok b := by
  induction l generalizing r with
  | nil => simp
  | cons a l ih =>
    obtain ⟨b, rest, hb, hr, -⟩ := mapM_cons_ok h
    exact List.forall_mem_cons.mpr ⟨⟨b, hb⟩, ih hr⟩

theorem exists_mapM_ok (h : ∀ a ∈ l, ∃ b, f a = .ok b) : ∃ r, l.mapM f = .ok r := by
  induction l with
  | nil => exact ⟨[], rfl⟩
  | cons a l ih =>
    rw [List.forall_mem_cons] at h
    obtain ⟨⟨b, hb⟩, hl⟩ := h
    obtain ⟨r, hr⟩ := ih hl
    exact ⟨b :: r, by rw [List.mapM_cons, hb, hr]; rfl⟩

theorem mapM_congr (h : ∀ a ∈ l, f a = g a) : l.mapM f = l.mapM g := by
  induction l with
  | nil => rfl
  | cons a l ih =>
    rw [List.forall_mem_cons] at h
    rw [List.mapM_cons, List.mapM_cons, h.1, ih h.2]

end

-- ---------------------------------------------------------------------------
-- Acts
-- ---------------------------------------------------------------------------

/-- An act that keeps `I` and answers with `Q`. -/
def Keeps (I : σ → Prop) (act : StateM σ α) (Q : α → Prop) : Prop :=
  ∀ s, I s → Q (act s).1 ∧ I (act s).2

/-- An act that keeps `I` and, unless it fails, answers with `Q`. -/
def Yields (I : σ → Prop) (act : ExceptT ε (StateM σ) α) (Q : α → Prop) : Prop :=
  Keeps I act.run fun outcome => ∀ a, outcome = .ok a → Q a

theorem run_bind (act : ExceptT ε (StateM σ) α) (next : α → ExceptT ε (StateM σ) β) (s : σ) :
    (act >>= next).run s = match act.run s with
      | (.ok a, after) => (next a).run after
      | (.error e, after) => (.error e, after) := by
  have hrun : (act >>= next).run s = ExceptT.bindCont next (act.run s).1 (act.run s).2 := rfl
  rw [hrun]
  generalize act.run s = r
  obtain ⟨outcome, after⟩ := r
  cases outcome <;> rfl

theorem run_bind_ok {act : ExceptT ε (StateM σ) α} {next : α → ExceptT ε (StateM σ) β}
    {s s' : σ} {b : β} (h : (act >>= next).run s = (.ok b, s')) :
    ∃ a after, act.run s = (.ok a, after) ∧ (next a).run after = (.ok b, s') := by
  rw [run_bind] at h
  generalize act.run s = r at h
  obtain ⟨outcome, after⟩ := r
  cases outcome with
  | error e => cases congrArg Prod.fst h
  | ok a => exact ⟨a, after, rfl, h⟩

namespace Keeps

variable {act : StateM σ α} {next : α → StateM σ β} {P Q : α → Prop} {R : β → Prop}

theorem pure {a : α} (h : Q a) : Keeps I (pure a : StateM σ α) Q := fun _ hs => ⟨h, hs⟩

theorem bind (h : Keeps I act Q) (hn : ∀ a, Q a → Keeps I (next a) R) :
    Keeps I (act >>= next) R := fun s hs => hn _ (h s hs).1 _ (h s hs).2

theorem mono (h : Keeps I act P) (hq : ∀ a, P a → Q a) : Keeps I act Q :=
  fun s hs => ⟨hq _ (h s hs).1, (h s hs).2⟩

end Keeps

namespace Yields

variable {act : ExceptT ε (StateM σ) α} {next : α → ExceptT ε (StateM σ) β} {P Q : α → Prop}
  {R : β → Prop}

theorem pure {a : α} (h : Q a) : Yields I (pure a : ExceptT ε (StateM σ) α) Q :=
  Keeps.pure fun b hb => by
    obtain rfl := Except.ok.inj hb
    exact h

theorem throw (e : ε) : Yields I (throw e : ExceptT ε (StateM σ) α) Q :=
  Keeps.pure fun _ h => by cases h

theorem bind (h : Yields I act Q) (hn : ∀ a, Q a → Yields I (next a) R) :
    Yields I (act >>= next) R := by
  have hrun : (act >>= next).run = act.run >>= ExceptT.bindCont next := rfl
  rw [Yields, hrun]
  refine Keeps.bind h fun outcome ho => ?_
  cases outcome with
  | error e => exact Keeps.pure fun _ h => by cases h
  | ok a => exact hn a (ho a rfl)

theorem mono (h : Yields I act P) (hq : ∀ a, P a → Q a) : Yields I act Q :=
  Keeps.mono h fun _ ho a ha => hq a (ho a ha)

theorem lift {act : StateM σ α} (h : Keeps I act Q) :
    Yields I (liftM act : ExceptT ε (StateM σ) α) Q :=
  Keeps.bind h fun a ha => Keeps.pure fun b hb => by
    obtain rfl := Except.ok.inj hb
    exact ha

theorem ofExcept {e : Except ε α} (h : ∀ a, e = .ok a → Q a) :
    Yields I (liftM e : ExceptT ε (StateM σ) α) Q := Keeps.pure h

theorem mapM {γ : Type} {f : γ → ExceptT ε (StateM σ) α} {Q : γ → α → Prop} {l : List γ}
    (h : ∀ c ∈ l, Yields I (f c) (Q c)) : Yields I (l.mapM f) (List.Forall₂ Q l) := by
  induction l with
  | nil =>
    rw [List.mapM_nil]
    exact .pure .nil
  | cons c l ih =>
    rw [List.forall_mem_cons] at h
    rw [List.mapM_cons]
    exact h.1.bind fun a ha => (ih h.2).bind fun as has => .pure (.cons ha has)

end Yields

/-- Outcomes that fail alike, or answer with what is related by `R`. -/
inductive Alike (R : α → β → Prop) : Except ε α → Except ε β → Prop
  | ok {a : α} {b : β} (h : R a b) : Alike R (.ok a) (.ok b)
  | error (e : ε) : Alike R (.error e) (.error e)

/-- An act that keeps `I` and comes to what `e` says, up to `R`. -/
def Settles (I : σ → Prop) (act : ExceptT ε (StateM σ) α) (R : α → β → Prop)
    (e : Except ε β) : Prop :=
  Keeps I act.run fun outcome => Alike R outcome e

namespace Settles

variable {γ δ : Type} {act : ExceptT ε (StateM σ) α} {next : α → ExceptT ε (StateM σ) γ}
  {R : α → β → Prop} {T : γ → δ → Prop} {e : Except ε β} {f : β → Except ε δ}

theorem pure {a : α} {b : β} (h : R a b) :
    Settles I (pure a : ExceptT ε (StateM σ) α) R (.ok b) := Keeps.pure (.ok h)

theorem ofExcept {e : Except ε α} {e' : Except ε β} (h : Alike R e e') :
    Settles I (liftM e : ExceptT ε (StateM σ) α) R e' := Keeps.pure h

theorem lift {act : StateM σ α} {b : β} (h : Keeps I act (R · b)) :
    Settles I (liftM act : ExceptT ε (StateM σ) α) R (.ok b) :=
  Keeps.bind h fun _ ha => Keeps.pure (.ok ha)

theorem bind (h : Settles I act R e) (hn : ∀ a b, R a b → Settles I (next a) T (f b)) :
    Settles I (act >>= next) T (e >>= f) := by
  have hrun : (act >>= next).run = act.run >>= ExceptT.bindCont next := rfl
  rw [Settles, hrun]
  refine Keeps.bind h fun outcome ho => ?_
  cases ho with
  | ok hab => exact hn _ _ hab
  | error x => exact Keeps.pure (.error x)

theorem after {act : StateM σ α} {Q : α → Prop} {g : Except ε δ} (h : Keeps I act Q)
    (hn : ∀ a, Q a → Settles I (next a) T g) :
    Settles I ((liftM act : ExceptT ε (StateM σ) α) >>= next) T g :=
  bind (f := fun _ : Unit => g) (lift (b := ()) h) fun a _ ha => hn a ha

theorem mapM {γ δ : Type} {S : γ → δ → Prop} {act : γ → ExceptT ε (StateM σ) α}
    {e : δ → Except ε β} {l : List γ} {r : List δ} (h : List.Forall₂ S l r)
    (hn : ∀ c d, S c d → Settles I (act c) R (e d)) :
    Settles I (l.mapM act) (List.Forall₂ R) (r.mapM e) := by
  induction h with
  | nil =>
    rw [List.mapM_nil, List.mapM_nil]
    exact .pure .nil
  | cons hcd _ ih =>
    rw [List.mapM_cons, List.mapM_cons]
    exact (hn _ _ hcd).bind fun a b hab => ih.bind fun as bs habs => .pure (.cons hab habs)

end Settles

theorem Alike.refl (e : Except ε α) : Alike (fun a b => a = b ∧ e = .ok a) e e := by
  cases e with
  | ok a => exact .ok ⟨rfl, rfl⟩
  | error x => exact .error x

theorem Alike.mapM {γ : Type} {R : α → β → Prop} {f : γ → Except ε α} {g : γ → Except ε β}
    {l : List γ} (h : ∀ c ∈ l, Alike R (f c) (g c)) :
    Alike (List.Forall₂ R) (l.mapM f) (l.mapM g) := by
  induction l with
  | nil => exact .ok .nil
  | cons c l ih =>
    rw [List.forall_mem_cons] at h
    obtain ⟨hc, hl⟩ := h
    replace ih := ih hl
    rw [List.mapM_cons, List.mapM_cons]
    revert hc ih
    generalize f c = x, g c = y, l.mapM f = xs, l.mapM g = ys
    rintro (hab | e) ih
    · cases ih with
      | ok habs => exact .ok (.cons hab habs)
      | error e => exact .error e
    · exact .error e

theorem Alike.eq {e e' : Except ε α} (h : Alike Eq e e') : e = e' := by
  cases h with
  | ok hab => rw [hab]
  | error x => rfl

end Splice
