import Splice.Proofs.Actions
import Splice.Proofs.Carrying

/-!
# Records that answer alike

Two records of a source may differ in what they hold and still answer alike: a
closed source decides the answer that only one of them holds. Acts that run side
by side on such records answer alike as well, and leave such records behind.
-/

namespace Splice

open Source

variable {α β γ δ ε σ τ : Type}

-- ---------------------------------------------------------------------------
-- Acts side by side
-- ---------------------------------------------------------------------------

/-- Two acts that keep a relation between their states and answer with `Q`. -/
def Abreast (I : σ → τ → Prop) (act : StateM σ α) (act' : StateM τ β) (Q : α → β → Prop) :
    Prop :=
  ∀ s t, I s t → Q (act s).1 (act' t).1 ∧ I (act s).2 (act' t).2

/-- The same of acts that may fail. They fail alike. -/
def Together (I : σ → τ → Prop) (act : ExceptT ε (StateM σ) α) (act' : ExceptT ε (StateM τ) β)
    (R : α → β → Prop) : Prop :=
  Abreast I act.run act'.run (Alike R)

variable {I : σ → τ → Prop}

namespace Abreast

variable {act : StateM σ α} {act' : StateM τ β} {next : α → StateM σ γ} {next' : β → StateM τ δ}
  {P Q : α → β → Prop} {R : γ → δ → Prop}

theorem pure {a : α} {b : β} (h : Q a b) :
    Abreast I (pure a : StateM σ α) (pure b : StateM τ β) Q := fun _ _ hs => ⟨h, hs⟩

theorem bind (h : Abreast I act act' Q) (hn : ∀ a b, Q a b → Abreast I (next a) (next' b) R) :
    Abreast I (act >>= next) (act' >>= next') R :=
  fun s t hs => hn _ _ (h s t hs).1 _ _ (h s t hs).2

theorem mono (h : Abreast I act act' P) (hq : ∀ a b, P a b → Q a b) : Abreast I act act' Q :=
  fun s t hs => ⟨hq _ _ (h s t hs).1, (h s t hs).2⟩

end Abreast

namespace Together

variable {act : ExceptT ε (StateM σ) α} {act' : ExceptT ε (StateM τ) β}
  {next : α → ExceptT ε (StateM σ) γ} {next' : β → ExceptT ε (StateM τ) δ}
  {Q : α → β → Prop} {R : γ → δ → Prop}

theorem pure {a : α} {b : β} (h : Q a b) :
    Together I (pure a : ExceptT ε (StateM σ) α) (pure b : ExceptT ε (StateM τ) β) Q :=
  Abreast.pure (.ok h)

theorem bind (h : Together I act act' Q) (hn : ∀ a b, Q a b → Together I (next a) (next' b) R) :
    Together I (act >>= next) (act' >>= next') R := by
  have hrun : Together I (act >>= next) (act' >>= next') R = Abreast I
    (act.run >>= ExceptT.bindCont next) (act'.run >>= ExceptT.bindCont next') (Alike R) := rfl
  rw [hrun]
  refine Abreast.bind h fun outcome outcome' ho => ?_
  cases ho with
  | ok hab => exact hn _ _ hab
  | error e => exact Abreast.pure (.error e)

theorem lift {act : StateM σ α} {act' : StateM τ β} (h : Abreast I act act' Q) :
    Together I (liftM act : ExceptT ε (StateM σ) α) (liftM act' : ExceptT ε (StateM τ) β) Q :=
  Abreast.bind h fun _ _ hab => Abreast.pure (.ok hab)

theorem ofExcept {e : Except ε α} {e' : Except ε β} (h : Alike Q e e') :
    Together I (liftM e : ExceptT ε (StateM σ) α) (liftM e' : ExceptT ε (StateM τ) β) Q :=
  Abreast.pure h

theorem mapM {S : γ → δ → Prop} {f : γ → ExceptT ε (StateM σ) α} {g : δ → ExceptT ε (StateM τ) β}
    {l : List γ} {r : List δ} (h : List.Forall₂ S l r)
    (hn : ∀ c d, S c d → Together I (f c) (g d) Q) :
    Together I (l.mapM f) (r.mapM g) (List.Forall₂ Q) := by
  induction h with
  | nil =>
    rw [List.mapM_nil, List.mapM_nil]
    exact .pure .nil
  | cons hcd _ ih =>
    rw [List.mapM_cons, List.mapM_cons]
    exact (hn _ _ hcd).bind fun a b hab => ih.bind fun as bs habs => .pure (.cons hab habs)

end Together

theorem Alike.mapM₂ {S : γ → δ → Prop} {Q : α → β → Prop} {f : γ → Except ε α} {g : δ → Except ε β}
    {l : List γ} {r : List δ} (h : List.Forall₂ S l r) (hn : ∀ c d, S c d → Alike Q (f c) (g d)) :
    Alike (List.Forall₂ Q) (l.mapM f) (r.mapM g) := by
  induction h with
  | nil => exact .ok .nil
  | @cons c d l r hcd _ ih =>
    have hhead := hn c d hcd
    rw [List.mapM_cons, List.mapM_cons]
    revert hhead ih
    generalize f c = x, g d = y, l.mapM f = xs, r.mapM g = ys
    rintro ih (hab | e)
    · cases ih with
      | ok habs => exact .ok (.cons hab habs)
      | error e => exact .error e
    · exact .error e

-- ---------------------------------------------------------------------------
-- Records
-- ---------------------------------------------------------------------------

variable {q : Property α} {r : Property β} {s t : Text} {a b : Analysis}

/-- A text that is closed and answers as another does, if the other is closed. -/
def Property.Carries (q : Property α) (s t : Text) : Prop :=
  Closed s → Closed t ∧ q.compute s = q.compute t

theorem Property.carries_refl (q : Property α) (s : Text) : q.Carries s s := fun h => ⟨h, rfl⟩

theorem Property.Carries.trans {u : Text} (h : q.Carries s t) (h' : q.Carries t u) :
    q.Carries s u := fun hs => ⟨(h' (h hs).1).1, (h hs).2.trans (h' (h hs).1).2⟩

/-- Two questions are the same, or recording an answer to one of them does not
touch what is recorded about the other. -/
theorem Property.same_or_apart (q : Property α) (r : Property β) :
    (∃ h : α = β, h ▸ q = r) ∨
      ∀ (a : Analysis) answer, (a.set q answer).get? r = a.get? r := by
  cases q <;> cases r <;> first
    | exact .inl ⟨rfl, rfl⟩
    | exact .inr fun _ _ => rfl

namespace Analysis

/-- Two records that answer a question about a source alike. They hold the same,
or the source is closed and decides the answer that one of them does not hold. -/
def Concurs (q : Property α) (s : Text) (a b : Analysis) : Prop :=
  a.get? q = b.get? q ∨
    Closed s ∧ (a.get? q).getD (q.compute s) = (b.get? q).getD (q.compute s)

theorem Concurs.refl (q : Property α) (s : Text) (a : Analysis) : a.Concurs q s a := .inl rfl

theorem Concurs.congr (h : a.Concurs q s b) (ht : q.Carries s t) : a.Concurs q t b := by
  obtain h | ⟨hs, h⟩ := h
  · exact .inl h
  · obtain ⟨hclosed, hcompute⟩ := ht hs
    exact .inr ⟨hclosed, hcompute ▸ h⟩

theorem Concurs.answer (h : a.Concurs q s b) : (a.ask q s).1 = (b.ask q s).1 := by
  rw [ask_fst, ask_fst]
  obtain h | ⟨-, h⟩ := h
  · rw [h]
  · exact h

theorem get?_ask_apart (h : ∀ (a : Analysis) answer, (a.set q answer).get? r = a.get? r)
    (a : Analysis) (t : Text) : (a.ask q t).2.get? r = a.get? r := by
  unfold ask
  cases a.get? q with
  | some answer => rfl
  | none => exact h a _

theorem Concurs.ask (h : a.Concurs q s b) (ht : q.Carries s t) (hr : a.Concurs r s b) :
    (a.ask q t).1 = (b.ask q t).1 ∧ (a.ask q t).2.Concurs r s (b.ask q t).2 := by
  have hanswer := (h.congr ht).answer
  refine ⟨hanswer, ?_⟩
  obtain ⟨rfl, rfl⟩ | hapart := q.same_or_apart r
  · exact .inl (by rw [get_ask, get_ask, hanswer])
  · rwa [Concurs, get?_ask_apart hapart, get?_ask_apart hapart]

theorem Concurs.learn (hs : Closed s) (ht : q.Carries s t) (hr : a.Concurs r s b) :
    (a.ask q t).2.Concurs r s b := by
  obtain ⟨rfl, rfl⟩ | hapart := q.same_or_apart r
  · unfold Analysis.ask
    cases ha : a.get? q with
    | some answer => exact hr
    | none =>
      refine .inr ⟨hs, ?_⟩
      simp only [get_set, Option.getD_some, ← (ht hs).2]
      obtain hr | ⟨-, hr⟩ := hr
      · rw [← hr, ha]
        rfl
      · rw [← hr, ha]
        rfl
  · rwa [Concurs, get?_ask_apart hapart]

end Analysis

-- ---------------------------------------------------------------------------
-- Archives and fragments
-- ---------------------------------------------------------------------------

variable {known : Catalogue} {A B : Archive} {f g : Fragment}

structure Archive.Concur (known : Catalogue) (A B : Archive) : Prop where
  size : A.size = B.size
  fresh : ∀ n s, known.source? n = some s → n < A.size
  records : ∀ n s, known.source? n = some s → ∀ (α : Type) (q : Property α),
    (A.analysis n).Concurs q s (B.analysis n)

/-- A relation of archives under which questions about texts that known sources
carry over to are answered alike. -/
def Archive.Faithful (known : Catalogue) (I : Archive → Archive → Prop) : Prop :=
  ∀ (n : Nat) (s t : Text) (α : Type) (q : Property α), known.source? n = some s →
    q.Carries s t → Abreast I (Archive.ask n q t) (Archive.ask n q t) Eq

theorem Archive.ask_snd (n : Nat) (q : Property α) (t : Text) (A : Archive) :
    (ask n q t A).2 = A.setIfInBounds n ((A.analysis n).ask q t).2 := rfl

theorem Archive.faithful_concur (known : Catalogue) : Faithful known (Concur known) := by
  intro n s t α q hn ht A B h
  obtain ⟨hanswer, -⟩ := (h.records n s hn α q).ask ht (h.records n s hn α q)
  refine ⟨hanswer, ?_, fun m u hm => ?_, fun m u hm β r => ?_⟩
  · rw [ask_snd, ask_snd, Array.size_setIfInBounds, Array.size_setIfInBounds, h.size]
  · rw [ask_snd, Array.size_setIfInBounds]
    exact h.fresh m u hm
  · rw [ask_snd, ask_snd, analysis_setIfInBounds, analysis_setIfInBounds, h.size]
    split
    · rename_i hnm
      obtain ⟨rfl, -⟩ := hnm
      obtain rfl := Option.some.inj (hn.symm.trans hm)
      exact ((h.records n s hn α q).ask ht (h.records n s hn β r)).2
    · exact h.records m u hm β r

theorem Archive.faithful_learn (hc : ∀ n s, known.source? n = some s → Closed s) (B : Archive) :
    Faithful known fun A A' => A = A' ∧ A.Concur known B := by
  rintro n s t α q hn ht A _ ⟨rfl, h⟩
  refine ⟨rfl, rfl, ?_, fun m u hm => ?_, fun m u hm β r => ?_⟩
  · rw [ask_snd, Array.size_setIfInBounds, h.size]
  · rw [ask_snd, Array.size_setIfInBounds]
    exact h.fresh m u hm
  · rw [ask_snd, analysis_setIfInBounds]
    split
    · rename_i hnm
      obtain ⟨rfl, -⟩ := hnm
      obtain rfl := Option.some.inj (hn.symm.trans hm)
      exact (h.records n s hn β r).learn (hc n s hn) ht
    · exact h.records m u hm β r

inductive Fragment.Concurs (known : Catalogue) (q : Property α) : Fragment → Fragment → Prop
  | native {p : Pattern} {s t : Text} (hn : known.source? p.number = some s)
      (ht : q.Carries s t) : Concurs known q ⟨t, .native p⟩ ⟨t, .native p⟩
  | literal (t : Text) : Concurs known q ⟨t, .literal⟩ ⟨t, .literal⟩
  | composite {t : Text} {traits : Traits} {a b : Analysis} (h : a.Concurs q t b) :
      Concurs known q ⟨t, .composite traits a⟩ ⟨t, .composite traits b⟩

/-- Two fragments of which every question is answered alike. -/
def Fragment.Concur (known : Catalogue) (f g : Fragment) : Prop :=
  ∀ (α : Type) (q : Property α), f.Concurs known q g

namespace Fragment

theorem Concurs.source (h : f.Concurs known q g) : g.source = f.source := by cases h <;> rfl

theorem Concurs.traits? (h : f.Concurs known q g) : g.traits? = f.traits? := by cases h <;> rfl

theorem Concurs.isLiteral (h : f.Concurs known q g) : g.isLiteral = f.isLiteral := by
  cases h <;> rfl

theorem Concurs.isWide (h : f.Concurs known q g) : g.isWide = f.isWide := by
  rw [Fragment.isWide, h.traits?, Fragment.isWide]

theorem Concurs.respelled (h : f.Concurs known q g) (ht : q.Carries f.source t) :
    ({ f with source := t } : Fragment).Concurs known q { g with source := t } := by
  cases h with
  | native hn hs => exact .native hn (hs.trans ht)
  | literal s => exact .literal t
  | composite h => exact .composite (h.congr ht)

theorem Concur.source (h : f.Concur known g) : g.source = f.source := (h _ .captures).source

theorem concur_composite (known : Catalogue) (t : Text) (traits : Traits) (a : Analysis) :
    (composite t traits a).Concur known (composite t traits a) :=
  fun _ q => .composite (.refl q t a)

theorem concur_literal (known : Catalogue) (t : Text) : (literal t).Concur known (literal t) :=
  fun _ _ => .literal _

theorem concur_native {p : Pattern} (hn : known.source? p.number = some p.source) :
    (native p).Concur known (native p) := fun _ q => .native hn (q.carries_refl _)

-- ---------------------------------------------------------------------------
-- Questions
-- ---------------------------------------------------------------------------

variable {I : Archive → Archive → Prop}

structure Heeds (known : Catalogue) (f g f' g' : Fragment) : Prop where
  source : f'.source = f.source
  concurs : ∀ (α : Type) (q : Property α), f.Concurs known q g → f'.Concurs known q g'

theorem Heeds.refl (f g : Fragment) : Heeds known f g f g := ⟨rfl, fun _ _ h => h⟩

theorem Concurs.ask (hI : Archive.Faithful known I) (h : f.Concurs known q g) :
    Abreast I (f.ask q) (g.ask q) fun x y => x.1 = y.1 ∧ Heeds known f g x.2 y.2 := by
  cases h with
  | native hn ht =>
    exact (hI _ _ _ _ q hn ht).bind fun _ _ ha => .pure ⟨ha, .refl _ _⟩
  | literal t => exact .pure ⟨rfl, .refl _ _⟩
  | @composite t traits a b h =>
    have hask := fun β (r : Property β) (hr : a.Concurs r t b) => h.ask (q.carries_refl t) hr
    refine .pure ⟨(hask _ q h).1, rfl, fun β r hr => ?_⟩
    cases hr with
    | composite hr => exact .composite (hask β r hr).2

theorem Concur.ask (hI : Archive.Faithful known I) (h : f.Concur known g) (q : Property α) :
    Abreast I (f.ask q) (g.ask q) fun x y => x.1 = y.1 ∧ x.2.Concur known y.2 :=
  (Concurs.ask hI (h α q)).mono fun _ _ hx => ⟨hx.1, fun β r => hx.2.concurs β r (h β r)⟩

theorem Concur.needsWrapping (hI : Archive.Faithful known I) (h : f.Concur known g) (wide : Bool) :
    Abreast I (f.needsWrapping wide) (g.needsWrapping wide)
      fun x y => x.1 = y.1 ∧ x.2.Concur known y.2 := by
  unfold Fragment.needsWrapping
  rw [h.source]
  split
  · exact .pure ⟨rfl, h⟩
  · exact .pure ⟨rfl, h⟩
  · refine (h.ask hI .singleGroup).bind ?_
    rintro ⟨b, f'⟩ ⟨_, g'⟩ ⟨rfl, hx⟩
    exact .pure ⟨rfl, hx⟩

theorem Concur.find (hI : Archive.Faithful known I) (h : f.Concur known g) (question : Question) :
    Abreast I (f.find question) (g.find question) fun x y => x.1 = y.1 ∧ x.2.Concur known y.2 := by
  cases question with
  | needsWrapping wide =>
    refine (h.needsWrapping hI wide).bind ?_
    rintro ⟨outcome, f'⟩ ⟨_, g'⟩ ⟨rfl, hx⟩
    exact .pure ⟨rfl, hx⟩
  | captures | references | alternates | singleGroup =>
    refine (h.ask hI _).bind ?_
    rintro ⟨answer, f'⟩ ⟨_, g'⟩ ⟨rfl, hx⟩
    exact .pure ⟨rfl, hx⟩

theorem Concur.decorate (hI : Archive.Faithful known I) (h : f.Concur known g) (wide : Bool)
    (wrapping : Wrapping) : Together I (f.decorate wide wrapping) (g.decorate wide wrapping)
      (Concur known) := by
  have happlies : Together I (Wrapping.applies (wide || f.isWide) wrapping.occasion f)
      (Wrapping.applies (wide || f.isWide) wrapping.occasion g)
      fun x y => x.1 = y.1 ∧ x.2.Concur known y.2 := by
    unfold Wrapping.applies
    split
    · exact .pure ⟨rfl, h⟩
    · refine (Together.lift (h.needsWrapping hI _)).bind ?_
      rintro ⟨outcome, f'⟩ ⟨_, g'⟩ ⟨rfl, hx⟩
      refine (Together.ofExcept (Alike.refl outcome)).bind ?_
      rintro b _ ⟨rfl, -⟩
      exact .pure ⟨rfl, hx⟩
    · exact .lift (h.ask hI .alternates)
  unfold Fragment.decorate
  rw [(h _ .captures).isWide]
  refine happlies.bind ?_
  rintro ⟨b, f'⟩ ⟨_, g'⟩ ⟨rfl, hx⟩
  simp only
  split
  · exact .pure hx
  · rw [hx.source, (hx _ .captures).traits?]
    exact .pure (concur_composite known _ _ _)

-- ---------------------------------------------------------------------------
-- Assembling
-- ---------------------------------------------------------------------------

structure Fit (known : Catalogue) (f g : Fragment) : Prop where
  captures : f.Concurs known .captures g
  references : f.Concurs known .references g
  alternates : f.Concurs known .alternates g

theorem Heeds.fit {f' g' : Fragment} (h : Heeds known f g f' g') (hf : f.Fit known g) :
    f'.Fit known g' where
  captures := h.concurs _ _ hf.captures
  references := h.concurs _ _ hf.references
  alternates := h.concurs _ _ hf.alternates

theorem Respelled.carries {f' : Fragment} (h : f.Respelled f') :
    Property.captures.Carries f.source f'.source ∧
      Property.references.Carries f.source f'.source ∧
        Property.alternates.Carries f.source f'.source := by
  have hp := h.padded true
  exact ⟨fun hc => ⟨hc.padded hp, hc.agrees_captures hp⟩,
    fun hc => ⟨hc.padded hp, hc.agrees_references hp rfl⟩,
    fun hc => ⟨hc.padded hp, hc.agrees_alternates hp⟩⟩

theorem Concurs.adapt (h : f.Concurs known q g) (fold wide : Bool) :
    g.adapt fold wide =
      (f.adapt fold wide).map fun f' => ({ g with source := f'.source } : Fragment) := by
  have hself : ∀ f : Fragment, f.adapt fold wide =
      (f.adapt fold wide).map fun f' => ({ f with source := f'.source } : Fragment) := by
    intro f
    cases hf : f.adapt fold wide with
    | error e => rfl
    | ok f' =>
      refine congrArg Except.ok ?_
      rw [← adapt_origin hf]
  cases h with
  | native hn ht => exact hself _
  | literal t => exact hself _
  | @composite t traits a b h =>
    have hflat : ∀ a : Analysis, Fragment.adapt fold wide ⟨t, .composite traits a⟩ =
        if wide && !traits.wide then Fragment.promote ⟨t, .composite traits a⟩
        else .ok ⟨t, .composite traits a⟩ := by
      intro a
      cases wide <;> rfl
    rw [hflat, hflat]
    cases wide && !traits.wide with
    | true =>
      simp only [if_true, Fragment.promote]
      cases Source.hasWideProblem t <;> rfl
    | false => rfl

theorem Concur.adapt (h : f.Concur known g) (fold wide : Bool) :
    Alike (Fit known) (f.adapt fold wide) (g.adapt fold wide) := by
  rw [(h _ .captures).adapt]
  cases hf : f.adapt fold wide with
  | error e => exact .error e
  | ok f' =>
    obtain ⟨hcaptures, hreferences, halternates⟩ := (respelled_adapt hf).carries
    have hsame : f' = { f with source := f'.source } := by rw [← adapt_origin hf]
    refine .ok ⟨?_, ?_, ?_⟩ <;> rw [hsame]
    · exact (h _ .captures).respelled hcaptures
    · exact (h _ .references).respelled hreferences
    · exact (h _ .alternates).respelled halternates

theorem Fit.protect (hI : Archive.Faithful known I) (h : f.Fit known g) :
    Abreast I f.protect g.protect (Fit known) := by
  refine (h.alternates.ask hI).bind ?_
  rintro ⟨b, f'⟩ ⟨_, g'⟩ ⟨rfl, hx⟩
  have hfit := hx.fit h
  cases b with
  | true =>
    have hsame : g'.grouped = f'.grouped := by
      rw [Fragment.grouped, hfit.captures.source, hfit.captures.traits?, Fragment.grouped]
    have hgrouped := concur_composite known f'.grouped.source (f'.traits?.getD .plain) .empty
    simp only [if_true, hsame]
    exact .pure ⟨hgrouped _ _, hgrouped _ _, hgrouped _ _⟩
  | false => exact .pure hfit

theorem Fit.number (hI : Archive.Faithful known I) (h : f.Fit known g) (count : Word) :
    Together I (f.number count) (g.number count) Eq := by
  refine (Together.lift (h.references.ask hI)).bind ?_
  rintro ⟨answer, f'⟩ ⟨_, g'⟩ ⟨rfl, hx⟩
  have hcaptures := (hx.fit h).captures
  have hcounted : ∀ t, Property.captures.Carries f'.source t → Together I
      (do
        let x ← ({ f' with source := t } : Fragment).ask .captures
        return (⟨x.2.source, answer.final⟩, x.1, answer.present) :
        ExceptT Error (StateM Archive) (Piece × Nat × Bool))
      (do
        let x ← ({ g' with source := t } : Fragment).ask .captures
        return (⟨x.2.source, answer.final⟩, x.1, answer.present)) Eq := by
    intro t ht
    have hrespelled := hcaptures.respelled ht
    refine (Together.lift (hrespelled.ask hI)).bind ?_
    rintro ⟨n, f''⟩ ⟨_, g''⟩ ⟨rfl, hy⟩
    exact .pure (by rw [(hy.concurs _ _ hrespelled).source])
  simp only
  rw [hcaptures.source]
  split
  · refine (Together.ofExcept (Alike.refl _)).bind ?_
    rintro t _ ⟨rfl, ht⟩
    exact hcounted t fun hc => ⟨hc.renumbered ht, hc.captures_renumber ht⟩
  · exact hcounted _ (Property.carries_refl _ _)

theorem numberAll_together (hI : Archive.Faithful known I) {fs gs : List Fragment}
    (h : List.Forall₂ (Fit known) fs gs) (count : Word) :
    Together I (numberAll count fs) (numberAll count gs) Eq := by
  induction h generalizing count with
  | nil => exact .pure rfl
  | cons h _ ih =>
    refine (h.number hI count).bind ?_
    rintro ⟨piece, captures, present⟩ _ rfl
    refine (Together.ofExcept (Alike.refl _)).bind ?_
    rintro behind _ ⟨rfl, -⟩
    refine (ih behind).bind ?_
    rintro others _ rfl
    exact .pure rfl

end Fragment

theorem assemble_together {I : Archive → Archive → Prop} (hI : Archive.Faithful known I)
    {fs gs : List Fragment} (h : List.Forall₂ (Fragment.Concur known) fs gs) (fold : Bool)
    (stance : Stance) (layout : Layout) (directed : Bool) :
    Together I (assemble fold stance layout directed fs) (assemble fold stance layout directed gs)
      (Fragment.Concur known) := by
  have hadapt : Alike (List.Forall₂ (Fragment.Fit known))
      (fs.mapM (Fragment.adapt fold stance.agreement.wide))
      (gs.mapM (Fragment.adapt fold stance.agreement.wide)) :=
    .mapM₂ h fun f g hfg => hfg.adapt fold stance.agreement.wide
  have numbered : ∀ fs gs, List.Forall₂ (Fragment.Fit known) fs gs → Together I
      (do
        let numbered ← Fragment.numberAll layout.offset fs
        return numbered.toFragment layout stance directed)
      (do
        let numbered ← Fragment.numberAll layout.offset gs
        return numbered.toFragment layout stance directed) (Fragment.Concur known) := by
    intro fs gs hfit
    refine (Fragment.numberAll_together hI hfit layout.offset).bind ?_
    rintro n _ rfl
    exact .pure (Fragment.concur_composite known _ _ _)
  refine (Together.ofExcept hadapt).bind fun fs gs hfit => ?_
  simp only
  split
  · exact (Together.mapM hfit fun f g hfg => .lift (hfg.protect hI)).bind numbered
  · exact numbered fs gs hfit

-- ---------------------------------------------------------------------------
-- Finishing
-- ---------------------------------------------------------------------------

theorem Property.Agrees.compute {s t : Text} (h : q.Agrees true s t) :
    q.compute s = q.compute t := by
  cases q with
  | references => exact h rfl
  | captures | alternates | singleGroup => exact h

theorem Property.carries_promote (q : Property α) (s : Text) : q.Carries s (Source.promote s) := by
  intro hc
  exact ⟨hc.padded (Source.padded_promote s true), (hc.agrees_promote q).compute⟩

/-- Making a pattern fails alike in two archives and changes neither of them, or
it makes one pattern, for which it adds records that answer alike. -/
def Mints (act act' : ExceptT Error (StateM Archive) Pattern) (A B : Archive) : Prop :=
  (∃ e, act.run A = (.error e, A) ∧ act'.run B = (.error e, B)) ∨
    ∃ p a b, act.run A = (.ok p, A.push a) ∧ act'.run B = (.ok p, B.push b) ∧
      p.number = A.size ∧ ∀ (α : Type) (q : Property α), a.Concurs q p.source b

theorem Pattern.mints_make {s : Text} (hs : A.size = B.size)
    (hab : ∀ (α : Type) (q : Property α), a.Concurs q s b) (flags : Flags) (traits : Traits) :
    Mints (make s flags traits a) (make s flags traits b) A B := by
  unfold make
  split
  · refine .inr ⟨⟨A.size, s, flags, traits⟩, a, b, rfl, ?_, rfl, hab⟩
    rw [hs]
    rfl
  · exact .inl ⟨_, rfl, rfl⟩

theorem Pattern.mints_compile (hs : A.size = B.size) (s letters : Text) :
    Mints (compile s letters) (compile s letters) A B := by
  unfold compile
  split
  · exact .inl ⟨_, rfl, rfl⟩
  · exact mints_make hs (fun _ q => .refl q s .empty) _ _

namespace Fragment

theorem Concur.analysis (h : f.Concur known g) (hab : A.Concur known B) (q : Property α) :
    (f.analysis A).Concurs q f.source (g.analysis B) := by
  cases h α q with
  | native hn ht => exact (hab.records _ _ hn α q).congr ht
  | literal t => exact .refl q t .empty
  | composite h' => exact h'

theorem Concur.mints_finish (h : f.Concur known g) (hab : A.Concur known B) (fold : Bool)
    (agreement : Agreement) (options : Finish) :
    Mints (f.finish fold agreement options) (g.finish fold agreement options) A B := by
  have hmake : ∀ s t, t = s →
      (∀ (α : Type) (q : Property α), (f.analysis A).Concurs q s (g.analysis B)) →
      Mints (Pattern.make s (options.flags fold agreement)
          { f.traits?.getD .plain with
            direction := options.direction.getD (f.traits?.getD .plain).direction
            wide := (options.flags fold agreement).unicode } (f.analysis A))
        (Pattern.make t (options.flags fold agreement)
          { g.traits?.getD .plain with
            direction := options.direction.getD (g.traits?.getD .plain).direction
            wide := (options.flags fold agreement).unicode } (g.analysis B)) A B := by
    rintro s _ rfl hs
    rw [(h _ .captures).traits?]
    exact Pattern.mints_make hab.size hs _ _
  unfold Fragment.finish Fragment.promote
  simp only [(h _ .captures).isWide, h.source]
  split
  · split
    · exact .inl ⟨_, rfl, rfl⟩
    · exact hmake _ _ rfl fun _ q => (h.analysis hab q).congr (q.carries_promote f.source)
  · exact hmake _ _ h.source fun _ q => h.analysis hab q

end Fragment

end Splice
