import Splice.Proofs.Likeness
import Splice.Proofs.Logging

/-!
# Workshops in tandem

Two workshops that differ only in the cells that their records have filled go
through every step alike: they answer alike or fail alike, and differ in nothing
else behind it. Each may have stances of its own saved underneath, to which no
step gets down.
-/

namespace Splice

open Source

variable {α β γ δ : Type} {known later : Catalogue} {A B : Archive} {f g : Fragment}
  {v u : Value} {l r : Bindings} {w b : Workshop} {x y : List Stance} {name : Name}

-- ---------------------------------------------------------------------------
-- Answers
-- ---------------------------------------------------------------------------

/-- Views that may show different cells as filled, but answer every question alike. -/
structure View.Alike (v u : View) : Prop where
  kind : v.kind = u.kind
  source : v.source = u.source
  traits : v.traits = u.traits
  answers : ∀ (α : Type) (q : Property α),
    (v.analysis.ask q v.source).1 = (u.analysis.ask q u.source).1

/-- Answers that are equal but for the cells that views show as filled. -/
inductive Answer.Alike : Answer → Answer → Prop
  | made {v u : View} {bs cs : List (List Answer)} (h : v.Alike u)
      (hb : List.Forall₂ (List.Forall₂ Alike) bs cs) : Alike (.made v bs) (.made u cs)
  | stance (s : Stance) : Alike (.stance s) (.stance s)
  | done : Alike .done .done
  | nested {l r : List Answer} (h : List.Forall₂ Alike l r) : Alike (.nested l) (.nested r)
  | forced {v u : View} (finding : Finding) (h : v.Alike u) :
      Alike (.forced finding v) (.forced finding u)
  | same (b : Bool) : Alike (.same b) (.same b)
  | directed (b : Bool) : Alike (.directed b) (.directed b)
  | failed {l r : Option (List Answer)} {bs cs : List (List Answer)} (cause : Cause)
      (h : Option.Rel (List.Forall₂ Alike) l r)
      (hb : List.Forall₂ (List.Forall₂ Alike) bs cs) :
      Alike (.failed cause l bs) (.failed cause r cs)

def Answer.attach (log : List (List Answer)) : Answer → Answer
  | .made view _ => .made view log
  | answer => answer

theorem Answer.Alike.attach {a c : Answer} (h : a.Alike c) {bs cs : List (List Answer)}
    (hb : List.Forall₂ (List.Forall₂ Answer.Alike) bs cs) :
    (a.attach bs).Alike (c.attach cs) := by
  cases h with
  | made hv _ => exact .made hv hb
  | stance s => exact .stance s
  | done => exact .done
  | nested h => exact .nested h
  | forced finding h => exact .forced finding h
  | same b => exact .same b
  | directed b => exact .directed b
  | failed cause h hb => exact .failed cause h hb

theorem Work.run_logged (act : Work Answer) (w : Workshop) :
    ((logged act).run w).1 =
      ((act.run { w with builders := [] }).1.map
        (·.attach (act.run { w with builders := [] }).2.builders)).mapError
          fun e => { e with builders := (act.run { w with builders := [] }).2.builders } := by
  cases hr : act.run { w with builders := [] } with
  | mk o after =>
    have hact : act { w with builders := [] } = (o, after) := hr
    cases o with
    | error e => simp [logged, ExceptT.run, ExceptT.mk, hact, Except.map, Except.mapError]
    | ok a =>
      cases a <;>
        simp [logged, ExceptT.run, ExceptT.mk, hact, Except.map, Except.mapError, Answer.attach]

structure Failure.Alike (e e' : Failure) : Prop where
  cause : e.cause = e'.cause
  steps : Option.Rel (List.Forall₂ Answer.Alike) e.steps e'.steps
  builders : List.Forall₂ (List.Forall₂ Answer.Alike) e.builders e'.builders

namespace Failure

theorem alike_ofCause (cause : Cause) : (ofCause cause).Alike (ofCause cause) :=
  ⟨rfl, .none, .nil⟩

theorem Alike.answer {e e' : Failure} (h : e.Alike e') : e.answer.Alike e'.answer := by
  obtain ⟨cause, hs, hb⟩ := h
  rw [Failure.answer, Failure.answer, ← cause]
  exact .failed e.cause hs hb

end Failure

inductive Echo (Q : α → β → Prop) : Except Failure α → Except Failure β → Prop
  | ok {a : α} {b : β} (h : Q a b) : Echo Q (.ok a) (.ok b)
  | error {e e' : Failure} (h : e.Alike e') : Echo Q (.error e) (.error e')

-- ---------------------------------------------------------------------------
-- Values
-- ---------------------------------------------------------------------------

theorem Fragment.Concurs.mono {q : Property α} (h : f.Concurs known q g)
    (hk : later.Extends known) : f.Concurs later q g := by
  cases h with
  | native hn ht => exact .native (hk _ _ hn) ht
  | literal t => exact .literal t
  | composite h => exact .composite h

theorem Fragment.Concur.mono (h : f.Concur known g) (hk : later.Extends known) :
    f.Concur later g := fun α q => (h α q).mono hk

inductive Value.Concur (known : Catalogue) : Value → Value → Prop
  | pattern {p : Pattern} (hn : known.source? p.number = some p.source) :
      Concur known (.pattern p) (.pattern p)
  | fragment {f g : Fragment} (h : f.Concur known g) : Concur known (.fragment f) (.fragment g)

namespace Value.Concur

theorem toFragment (h : v.Concur known u) : v.toFragment.Concur known u.toFragment := by
  cases h with
  | pattern hn => exact Fragment.concur_native hn
  | fragment h => exact h

theorem mono (h : v.Concur known u) (hk : later.Extends known) : v.Concur later u := by
  cases h with
  | pattern hn => exact .pattern (hk _ _ hn)
  | fragment h => exact .fragment (h.mono hk)

theorem view (h : v.Concur known u) (hab : A.Concur known B) : (v.view A).Alike (u.view B) := by
  have hanalysis := fun α (q : Property α) => h.toFragment.analysis hab q
  have hsource := h.toFragment.source
  cases h with
  | pattern hn => exact ⟨rfl, rfl, rfl, fun α q => (hanalysis α q).answer⟩
  | @fragment f g h =>
    refine ⟨?_, hsource.symm, ?_, fun α q => ?_⟩
    · cases h _ .captures <;> rfl
    · rw [Value.view, Value.view, (h _ .captures).traits?]
    · have hs : g.source = f.source := hsource
      rw [Value.view, Value.view, hs]
      exact (hanalysis α q).answer

end Value.Concur

structure Part.Concur (known : Catalogue) (p q : Part) : Prop where
  fragment : p.1.Concur known q.1
  directed : p.2 = q.2

theorem Part.Concur.mono {p q : Part} (h : Part.Concur known p q) (hk : later.Extends known) :
    Part.Concur later p q := ⟨h.fragment.mono hk, h.directed⟩

def Bindings.Concur (known : Catalogue) (l r : Bindings) : Prop :=
  List.Forall₂ (fun b c => b.1 = c.1 ∧ b.2.Concur known c.2) l r

namespace Bindings.Concur

theorem mono (h : l.Concur known r) (hk : later.Extends known) : l.Concur later r :=
  List.Forall₂.imp (fun _ _ hb => ⟨hb.1, hb.2.mono hk⟩) h

theorem lookup (h : l.Concur known r) (name : Name) :
    Option.Rel (Value.Concur known) (l.lookup name) (r.lookup name) := by
  induction h with
  | nil => exact .none
  | @cons b c l r hb _ ih =>
    obtain ⟨first, v⟩ := b
    obtain ⟨second, u⟩ := c
    obtain ⟨hname, hv⟩ := hb
    obtain rfl : first = second := hname
    rw [List.lookup_cons, List.lookup_cons]
    split
    · exact .some hv
    · exact ih

end Bindings.Concur

theorem Archive.Concur.push (h : A.Concur known B) {a c : Analysis}
    (hl : ∀ n s, later.source? n = some s → known.source? n = some s ∨
      n = A.size ∧ ∀ (α : Type) (q : Property α), a.Concurs q s c) :
    Archive.Concur later (A.push a) (B.push c) := by
  refine ⟨by rw [Array.size_push, Array.size_push, h.size], fun n s hn => ?_, fun n s hn α q => ?_⟩
  · rw [Array.size_push]
    obtain hn | ⟨rfl, -⟩ := hl n s hn
    · exact Nat.lt_succ_of_lt (h.fresh n s hn)
    · exact Nat.lt_succ_self _
  · unfold Archive.analysis
    rw [Array.getElem?_push, Array.getElem?_push, ← h.size]
    obtain hn | ⟨rfl, hac⟩ := hl n s hn
    · rw [if_neg (Nat.ne_of_lt (h.fresh n s hn)), if_neg (Nat.ne_of_lt (h.fresh n s hn))]
      exact h.records n s hn α q
    · rw [if_pos rfl, if_pos rfl]
      exact hac α q

theorem Archive.Concur.extends_add (h : A.Concur known B) (s : Text) :
    (known.add A.size s).Extends known := by
  intro n t hn
  rw [Catalogue.source?_add, if_neg (Nat.ne_of_lt (h.fresh n t hn)), hn]

theorem Archive.Concur.add (h : A.Concur known B) {s : Text} {a c : Analysis}
    (hac : ∀ (α : Type) (q : Property α), a.Concurs q s c) :
    Archive.Concur (known.add A.size s) (A.push a) (B.push c) := by
  refine h.push fun n t hn => ?_
  rw [Catalogue.source?_add] at hn
  split at hn
  · obtain rfl := Option.some.inj hn
    exact .inr ⟨‹_›, hac⟩
  · exact .inl hn

-- ---------------------------------------------------------------------------
-- Workshops
-- ---------------------------------------------------------------------------

structure Workshop.Concur (known : Catalogue) (w b : Workshop) : Prop where
  archive : w.archive.Concur known b.archive
  bindings : w.bindings.Concur known b.bindings

/-- Workshops that differ only in the cells that are filled, above the stances
`x` and `y` that are saved in them. -/
structure Workshop.Paired (known : Catalogue) (x y : List Stance) (w b : Workshop) : Prop
    extends w.Concur known b where
  fold : w.fold = b.fold
  stance : w.stance = b.stance
  saved : w.saved = x
  saved' : b.saved = y
  level : x.isEmpty = y.isEmpty
  builders : List.Forall₂ (List.Forall₂ Answer.Alike) w.builders b.builders

namespace Workshop.Paired

theorem restance (h : w.Paired known x y b) (stance : Stance) :
    Workshop.Paired known x y { w with stance := stance } { b with stance := stance } :=
  { h with stance := rfl }

theorem reset (h : w.Paired known x y b) : w.reset.Paired known x y b.reset := by
  rw [Workshop.reset, Workshop.reset, ← h.stance]
  exact h.restance w.stance.reset

theorem beginAssembly (h : w.Paired known x y b) :
    w.beginAssembly.Paired known x y b.beginAssembly := by
  rw [Workshop.beginAssembly, Workshop.beginAssembly, h.saved, h.saved', ← h.level]
  split
  · exact h.reset
  · exact h

theorem enter (h : w.Paired known x y b) :
    w.enter.Paired known (w.stance :: x) (b.stance :: y) b.enter :=
  { h with
    saved := congrArg (w.stance :: ·) h.saved
    saved' := congrArg (b.stance :: ·) h.saved'
    level := rfl }

theorem store (h : w.Paired known x y b) (name : Name) (hv : v.Concur known u) :
    (w.store name v).Paired known x y (b.store name u) :=
  { h with bindings := .cons ⟨rfl, hv⟩ h.bindings }

end Workshop.Paired

-- ---------------------------------------------------------------------------
-- Acts in tandem
-- ---------------------------------------------------------------------------

/-- Two acts that leave workshops paired, and answer with `Q`. -/
def Tandem (known : Catalogue) (x y : List Stance) (w b : Workshop) (act : StateM Workshop α)
    (act' : StateM Workshop β) (Q : Catalogue → α → β → Prop) : Prop :=
  ∃ later : Catalogue, later.Extends known ∧ (act w).2.Paired later x y (act' b).2 ∧
    Q later (act w).1 (act' b).1

/-- The same of acts that may fail. They fail alike. -/
def Abides (known : Catalogue) (x y : List Stance) (w b : Workshop) (act : Work α)
    (act' : Work β) (Q : Catalogue → α → β → Prop) : Prop :=
  Tandem known x y w b act.run act'.run fun later => Echo (Q later)

namespace Tandem

variable {act : StateM Workshop α} {act' : StateM Workshop β} {next : α → StateM Workshop γ}
  {next' : β → StateM Workshop δ} {Q : Catalogue → α → β → Prop} {R : Catalogue → γ → δ → Prop}

theorem pure {a : α} {c : β} (hw : w.Paired known x y b) (h : Q known a c) :
    Tandem known x y w b (pure a : StateM Workshop α) (pure c : StateM Workshop β) Q :=
  ⟨known, known.extends_refl, hw, h⟩

theorem bind (h : Tandem known x y w b act act' Q)
    (hn : ∀ later : Catalogue, later.Extends known → (act w).2.Paired later x y (act' b).2 →
      Q later (act w).1 (act' b).1 → Tandem later x y (act w).2 (act' b).2 (next (act w).1)
        (next' (act' b).1) R) :
    Tandem known x y w b (act >>= next) (act' >>= next') R := by
  obtain ⟨later, hk, hf, hq⟩ := h
  obtain ⟨last, hl, hg, hr⟩ := hn later hk hf hq
  exact ⟨last, hl.trans hk, hg, hr⟩

theorem reentrant (h : Tandem known (w.stance :: x) (b.stance :: y) w.enter b.enter act act' Q)
    (hw : w.Paired known x y b) :
    Tandem known x y w b (Workshop.reentrant act) (Workshop.reentrant act') Q := by
  obtain ⟨later, hk, hf, hq⟩ := h
  have hleave : (act w.enter).2.leave.Paired later x y (act' b.enter).2.leave := by
    unfold Workshop.leave
    rw [hf.saved, hf.saved']
    exact { hf with stance := hw.stance, saved := rfl, saved' := rfl, level := hw.level }
  exact ⟨later, hk, hleave, hq⟩

theorem facing (d : Direction)
    (h : Tandem known x y { w with stance := { w.stance with direction := d } }
      { b with stance := { b.stance with direction := d } } act act' Q)
    (hw : w.Paired known x y b) :
    Tandem known x y w b (Workshop.facing d act) (Workshop.facing d act') Q := by
  obtain ⟨later, hk, hf, hq⟩ := h
  refine ⟨later, hk, { hf with stance := ?_ }, hq⟩
  exact congrArg₂ (fun s s' : Stance => { s with direction := s'.direction }) hf.stance hw.stance

end Tandem

namespace Abides

variable {act : Work α} {act' : Work β} {next : α → Work γ} {next' : β → Work δ}
  {Q : Catalogue → α → β → Prop} {R : Catalogue → γ → δ → Prop}

theorem pure {a : α} {c : β} (hw : w.Paired known x y b) (h : Q known a c) :
    Abides known x y w b (pure a : Work α) (pure c : Work β) Q := Tandem.pure hw (.ok h)

theorem throw {e e' : Failure} (hw : w.Paired known x y b) (h : e.Alike e') :
    Abides known x y w b (throw e : Work α) (throw e' : Work β) Q := Tandem.pure hw (.error h)

theorem fail {cause : Cause} (hw : w.Paired known x y b) :
    Abides known x y w b (Work.fail cause : Work α) (Work.fail cause : Work β) Q :=
  throw hw (Failure.alike_ofCause cause)

theorem bind (h : Abides known x y w b act act' Q)
    (hn : ∀ later a c after after', later.Extends known → after.Paired later x y after' →
      Q later a c → Abides later x y after after' (next a) (next' c) R) :
    Abides known x y w b (act >>= next) (act' >>= next') R := by
  have hrun : (act >>= next).run = act.run >>= ExceptT.bindCont next := rfl
  have hrun' : (act' >>= next').run = act'.run >>= ExceptT.bindCont next' := rfl
  rw [Abides, hrun, hrun']
  refine Tandem.bind h fun later hk hf hq => ?_
  revert hq
  generalize (act.run w).1 = o, (act'.run b).1 = o'
  rintro (hq | he)
  · exact hn later _ _ _ _ hk hf hq
  · exact Tandem.pure hf (.error he)

theorem lift {act : StateM Workshop α} {act' : StateM Workshop β}
    (h : Tandem known x y w b act act' Q) :
    Abides known x y w b (ExceptT.lift act) (ExceptT.lift act') Q := by
  obtain ⟨later, hk, hf, hq⟩ := h
  exact ⟨later, hk, hf, .ok hq⟩

theorem get {next : Workshop → Work γ} {next' : Workshop → Work δ}
    (h : Abides known x y w b (next w) (next' b) R) :
    Abides known x y w b ((get : Work Workshop) >>= next) ((get : Work Workshop) >>= next') R := h

theorem modify {change change' : Workshop → Workshop} {next : PUnit → Work γ}
    {next' : PUnit → Work δ}
    (h : Abides known x y (change w) (change' b) (next ⟨⟩) (next' ⟨⟩) R) :
    Abides known x y w b (modify change >>= next) (modify change' >>= next') R := h

theorem onStance (hw : w.Paired known x y b) (act : Stance → Except Error α × Stance) :
    Abides known x y w b (Work.onStance act) (Work.onStance act) fun _ => Eq := by
  refine ⟨known, known.extends_refl, ?_, ?_⟩
  · have hafter : ∀ w, ((Work.onStance act).run w).2 = { w with stance := (act w.stance).2 } :=
      fun _ => rfl
    rw [hafter, hafter, ← hw.stance]
    exact hw.restance _
  · have hout : ∀ w, ((Work.onStance act).run w).1 =
        (act w.stance).1.mapError Failure.ofError := fun _ => rfl
    rw [hout, hout, ← hw.stance]
    cases (act w.stance).1 with
    | ok a => exact .ok rfl
    | error e => exact .error (Failure.alike_ofCause _)

theorem onArchive {act : ExceptT Error (StateM Archive) α}
    {act' : ExceptT Error (StateM Archive) β} {Q : Catalogue → α → β → Prop}
    (hw : w.Paired known x y b) (h : Together (Archive.Concur known) act act' (Q known)) :
    Abides known x y w b (Work.onArchive act) (Work.onArchive act') Q := by
  obtain ⟨hq, hab⟩ := h _ _ hw.archive
  refine ⟨known, known.extends_refl, { hw with archive := hab }, ?_⟩
  have hout : ∀ {α : Type} (act : ExceptT Error (StateM Archive) α) (w : Workshop),
      ((Work.onArchive act).run w).1 = (act.run w.archive).1.mapError Failure.ofError :=
    fun _ _ => rfl
  rw [hout, hout]
  revert hq
  generalize (act.run w.archive).1 = o, (act'.run b.archive).1 = o'
  rintro (hq | e)
  · exact .ok hq
  · exact .error (Failure.alike_ofCause _)

theorem filing {act : StateM Archive α} {act' : StateM Archive β} {Q : Catalogue → α → β → Prop}
    (hw : w.Paired known x y b) (h : Abreast (Archive.Concur known) act act' (Q known)) :
    Abides known x y w b (Work.filing act) (Work.filing act') Q := by
  obtain ⟨hq, hab⟩ := h _ _ hw.archive
  exact ⟨known, known.extends_refl, { hw with archive := hab }, .ok hq⟩

theorem mint {act act' : ExceptT Error (StateM Archive) Pattern} (hw : w.Paired known x y b)
    (h : Mints act act' w.archive b.archive) :
    Abides known x y w b (Work.onArchive act) (Work.onArchive act') fun later p q =>
      p = q ∧ later.source? p.number = some p.source := by
  have hrun : ∀ (act : ExceptT Error (StateM Archive) Pattern) (w : Workshop),
      (Work.onArchive act).run w = ((act.run w.archive).1.mapError Failure.ofError,
        { w with archive := (act.run w.archive).2 }) := fun _ _ => rfl
  rw [Abides, Tandem, hrun, hrun]
  obtain ⟨e, he, he'⟩ | ⟨p, a, c, hp, hp', hn, hac⟩ := h
  · rw [he, he']
    exact ⟨known, known.extends_refl, hw, .error (Failure.alike_ofCause _)⟩
  · rw [hp, hp']
    have hk := hw.archive.extends_add p.source
    refine ⟨known.add w.archive.size p.source, hk, ?_, .ok ⟨rfl, ?_⟩⟩
    · exact { hw with archive := hw.archive.add hac, bindings := hw.bindings.mono hk }
    · rw [Catalogue.source?_add, if_pos hn]

-- ---------------------------------------------------------------------------
-- Looking at variables
-- ---------------------------------------------------------------------------

theorem lookup (hw : w.Paired known x y b) (name : Name) :
    Abides known x y w b (Work.lookup name) (Work.lookup name) Value.Concur := by
  refine get ?_
  have h := hw.bindings.lookup name
  revert h
  generalize w.bindings.lookup name = o, b.bindings.lookup name = o'
  rintro (hv | -)
  · exact .pure hw hv
  · exact .fail hw

theorem lookupPattern (hw : w.Paired known x y b) (name : Name) :
    Abides known x y w b (Work.lookupPattern name) (Work.lookupPattern name) fun later p q =>
      p = q ∧ later.source? p.number = some p.source := by
  refine (lookup hw name).bind fun later v u after after' _ hf hv => ?_
  cases hv with
  | pattern hn => exact .pure hf ⟨rfl, hn⟩
  | fragment h => exact .fail hf

theorem flags (hw : w.Paired known x y b) (letters : Text) :
    Abides known x y w b (Work.flags letters) (Work.flags letters) fun _ => Eq := by
  unfold Work.flags
  split
  · exact .pure hw rfl
  · exact .throw hw (Failure.alike_ofCause _)

theorem flags? (hw : w.Paired known x y b) (letters : Option Text) :
    Abides known x y w b (Work.flags? letters) (Work.flags? letters) fun _ => Eq := by
  cases letters with
  | none => exact .pure hw rfl
  | some letters =>
    refine (flags hw letters).bind ?_
    rintro later a _ after after' _ hf rfl
    exact .pure hf rfl

theorem discard {Q : Catalogue → α → β → Prop} (h : Abides known x y w b act act' Q) :
    Abides known x y w b (discard act : Work Unit) (discard act' : Work Unit) fun _ _ _ =>
      True := by
  rw [Work.discard_eq, Work.discard_eq]
  exact h.bind fun _ _ _ _ _ _ hf _ => .pure hf trivial

theorem require (hw : w.Paired known x y b) (requirement : Requirement) :
    Abides known x y w b (Work.require requirement) (Work.require requirement) fun _ _ _ =>
      True := by
  cases requirement with
  | defined name => exact (lookup hw name).discard
  | pattern name => exact (lookupPattern hw name).discard
  | flags letters => exact (flags hw letters).discard
  | malformed field => exact .fail hw

theorem requireAll (hw : w.Paired known x y b) (requirements : List Requirement) :
    Abides known x y w b (Work.requireAll requirements) (Work.requireAll requirements)
      fun _ _ _ => True := by
  induction requirements generalizing known w b with
  | nil => exact .pure hw trivial
  | cons r rs ih =>
    have hcons : Work.requireAll (r :: rs) = (Work.require r >>= fun _ => Work.requireAll rs) := rfl
    rw [hcons]
    exact (require hw r).bind fun _ _ _ _ _ _ hf _ => ih hf

theorem keep (hw : w.Paired known x y b) (result : Option Name) (hv : v.Concur known u) :
    Abides known x y w b (Work.keep result v) (Work.keep result u) fun _ => Answer.Alike := by
  cases result with
  | none => exact .pure hw (.made (hv.view hw.archive) .nil)
  | some name => exact .pure (hw.store name hv) (.made (hv.view hw.archive) .nil)

-- ---------------------------------------------------------------------------
-- Actions
-- ---------------------------------------------------------------------------

theorem find (hw : w.Paired known x y b) {p : Pattern}
    (hn : known.source? p.number = some p.source) (question : Question) :
    Abides known x y w b (p.find question) (p.find question) fun _ => Eq := by
  have hask : ∀ {α : Type} (q : Property α),
      Abides known x y w b (Work.filing (p.ask q)) (Work.filing (p.ask q)) fun _ => Eq :=
    fun q => filing hw (Archive.faithful_concur known _ _ _ _ q hn (q.carries_refl _))
  cases question with
  | needsWrapping wide => exact .fail hw
  | captures | references | alternates | singleGroup =>
    refine (hask _).bind ?_
    rintro later a _ after after' _ hf rfl
    exact .pure hf rfl

theorem force (hw : w.Paired known x y b) (name : Name) (question : Question) :
    Abides known x y w b (Work.force name question) (Work.force name question) fun _ =>
      Answer.Alike := by
  refine (lookup hw name).bind fun later v u after after' _ hf hv => ?_
  cases hv with
  | @pattern p hn =>
    refine (find hf hn question).bind ?_
    rintro last finding _ after after' hk hf rfl
    have hv : (Value.pattern p).Concur last (.pattern p) := .pattern (hk _ _ hn)
    exact get (.pure hf (.forced finding (hv.view hf.archive)))
  | @fragment f g h =>
    refine (filing (Q := fun later x y => x.1 = y.1 ∧ x.2.Concur later y.2) hf
      (h.find (Archive.faithful_concur later) question)).bind ?_
    rintro last ⟨outcome, f'⟩ ⟨_, g'⟩ after after' _ hf ⟨rfl, hx⟩
    have hv : (Value.fragment f').Concur last (.fragment g') := .fragment hx
    have hs := hf.store name hv
    refine modify ?_
    cases outcome with
    | ok finding => exact get (.pure hs (.forced finding (hv.view hs.archive)))
    | error e => exact .throw hs (Failure.alike_ofCause _)

theorem finish (hw : w.Paired known x y b) (result : Option Name) (name : Name)
    (add remove : Option Text) (direction : Option Direction) :
    Abides known x y w b (Work.finish result name add remove direction)
      (Work.finish result name add remove direction) fun _ => Answer.Alike := by
  refine (lookup hw name).bind fun later v u after after' _ hf hv => ?_
  refine (flags? hf add).bind ?_
  rintro later₁ add _ after₁ after₁' hk₁ hf₁ rfl
  refine (flags? hf₁ remove).bind ?_
  rintro later₂ remove _ after₂ after₂' hk₂ hf₂ rfl
  refine get ?_
  have hv := (hv.mono (hk₂.trans hk₁)).toFragment
  rw [← hf₂.fold, ← hf₂.stance]
  refine (mint hf₂ (hv.mints_finish hf₂.archive _ _ _)).bind ?_
  rintro last p _ after after' _ hf ⟨rfl, hn⟩
  exact keep hf result (.pattern hn)

theorem decorate (hw : w.Paired known x y b) (result : Option Name) (name : Name)
    (wrapping : Wrapping) :
    Abides known x y w b (Work.decorate result name wrapping) (Work.decorate result name wrapping)
      fun _ => Answer.Alike := by
  refine (lookup hw name).bind fun later v u after after' _ hf hv => get ?_
  simp only
  rw [← hf.stance]
  have hv := hv.toFragment.decorate (Archive.faithful_concur later)
    after.stance.agreement.wide wrapping
  exact (onArchive (Q := Fragment.Concur) hf hv).bind fun last f g after after' _ hf hfg =>
    keep hf result (.fragment hfg)

theorem action (hw : w.Paired known x y b) (a : Action) :
    Abides known x y w b a.run a.run fun _ => Answer.Alike := by
  cases a with
  | compile result source letters =>
    refine (mint hw (Pattern.mints_compile hw.archive.size _ _)).bind ?_
    rintro later p _ after after' _ hf ⟨rfl, hn⟩
    exact keep hf result (.pattern hn)
  | raw result source letters =>
    refine (flags? hw letters).bind ?_
    rintro later flags _ after after' _ hf rfl
    exact keep hf result (.fragment (Fragment.concur_composite _ _ _ _))
  | native result name =>
    refine (lookupPattern hw name).bind ?_
    rintro later p _ after after' _ hf ⟨rfl, hn⟩
    exact keep hf result (.fragment (Fragment.concur_native hn))
  | copy result name =>
    exact (lookup hw name).bind fun _ _ _ _ _ _ hf hv => keep hf result hv
  | decorate result name wrapping => exact decorate hw result name wrapping
  | finish result name add remove direction => exact finish hw result name add remove direction
  | stance =>
    refine get ?_
    rw [← hw.stance]
    exact .pure hw (.stance _)
  | reset => exact modify (.pure hw.reset .done)
  | inspect name => exact (lookup hw name).bind fun _ _ _ _ _ _ hf hv => keep hf none hv
  | force name question => exact force hw name question
  | same first second =>
    refine (lookupPattern hw first).bind ?_
    rintro later p _ after after' _ hf ⟨rfl, -⟩
    refine (lookupPattern hf second).bind ?_
    rintro last q _ after after' _ hf ⟨rfl, -⟩
    exact .pure hf (.same _)
  | checkDirection name building =>
    refine (lookupPattern hw name).bind ?_
    rintro later p _ after after' _ hf ⟨rfl, -⟩
    split
    · exact .pure hf (.directed _)
    · exact .throw hf (Failure.alike_ofCause _)
  | malformed before field => exact (requireAll hw before).bind fun _ _ _ _ _ _ hf _ => .fail hf

-- ---------------------------------------------------------------------------
-- Parts of a run
-- ---------------------------------------------------------------------------

theorem admitPattern (hw : w.Paired known x y b) (p : Pattern) :
    Abides known x y w b (Work.admitPattern p) (Work.admitPattern p) fun _ => Eq := by
  refine get ?_
  rw [← hw.fold]
  exact onStance hw _

theorem admitFragment (hw : w.Paired known x y b) (h : f.Concur known g) :
    Abides known x y w b (Work.admitFragment f) (Work.admitFragment g) Part.Concur := by
  cases h _ .captures with
  | native hn ht =>
    refine (admitPattern hw _).bind ?_
    rintro later directed _ after after' hk hf rfl
    exact .pure hf ⟨h.mono hk, rfl⟩
  | literal t => exact .pure hw ⟨h, rfl⟩
  | composite ha =>
    refine get ?_
    rw [← hw.fold]
    refine (onStance hw _).bind ?_
    rintro later directed _ after after' hk hf rfl
    exact .pure hf ⟨h.mono hk, rfl⟩

theorem build {layout : Layout} {count : Nat} {resolve resolve' : Bool → Work (List Part)}
    (h : ∀ wrap, Abides known x y w b (resolve wrap) (resolve' wrap) fun later =>
      List.Forall₂ (Part.Concur later)) :
    Abides known x y w b (Work.build layout count resolve) (Work.build layout count resolve')
      fun later f g => f.Concur later g := by
  refine (h _).bind fun later parts parts' after after' _ hf hp => get ?_
  have hdirected : parts'.any Prod.snd = parts.any Prod.snd := by
    induction hp with
    | nil => rfl
    | cons hpart _ ih => rw [List.any_cons, List.any_cons, hpart.directed, ih]
  have hfragments : List.Forall₂ (Fragment.Concur later) (parts.map Prod.fst)
      (parts'.map Prod.fst) := by
    rw [List.forall₂_map_left_iff, List.forall₂_map_right_iff]
    exact hp.imp fun _ _ hpart => hpart.fragment
  rw [← hf.fold, ← hf.stance, hdirected]
  exact onArchive (Q := Fragment.Concur) hf
    (assemble_together (Archive.faithful_concur later) hfragments _ _ _ _)

theorem echo_logged {act act' : Work Answer}
    (h : Abides known x y { w with builders := [] } { b with builders := [] } act act'
      fun _ => Answer.Alike) :
    Echo Answer.Alike ((Work.logged act).run w).1 ((Work.logged act').run b).1 := by
  obtain ⟨later, -, hf, hq⟩ := h
  have hbuilders := hf.builders
  rw [Work.run_logged, Work.run_logged]
  revert hq hbuilders
  generalize (act.run _).1 = o, (act'.run _).1 = o', (act.run _).2.builders = bs,
    (act'.run _).2.builders = cs
  rintro (hq | he) hbuilders
  · exact .ok (hq.attach hbuilders)
  · exact .error ⟨he.cause, he.steps, hbuilders⟩

theorem logged {act act' : Work Answer} (hw : w.Paired known x y b)
    (h : Workshop.Paired known x y { w with builders := [] } { b with builders := [] } →
      Abides known x y { w with builders := [] } { b with builders := [] } act act'
        fun _ => Answer.Alike) :
    Abides known x y w b (Work.logged act) (Work.logged act') fun _ => Answer.Alike := by
  have h := h { hw with builders := .nil }
  obtain ⟨later, hk, hf, -⟩ := id h
  exact ⟨later, hk, { hf with builders := hw.builders }, h.echo_logged⟩

theorem nested {l r : List Answer} {e e' : Option Failure} (hw : w.Paired known x y b)
    (h : List.Forall₂ Answer.Alike l r) (he : Option.Rel Failure.Alike e e') :
    Abides known x y w b (Work.nested l e) (Work.nested r e') fun _ => Answer.Alike := by
  cases he with
  | none => exact .pure hw (.nested h)
  | some he => exact .throw hw ⟨he.cause, .some h, he.builders⟩

end Abides

/-- The steps of a builder or a nested step that end alike. -/
structure Ended (r r' : List Answer × Option Failure) : Prop where
  answers : List.Forall₂ Answer.Alike r.1 r'.1
  failure : Option.Rel Failure.Alike r.2 r'.2

theorem Tandem.conclude {r r' : List Answer × Option Failure} (hw : w.Paired known x y b)
    (h : Ended r r') (result : Item) :
    Tandem known x y w b (Work.conclude result r.1 r.2) (Work.conclude result r'.1 r'.2)
      fun later c c' => List.Forall₂ Answer.Alike c.1 c'.1 ∧
        Echo (Bindings.Concur later) c.2 c'.2 := by
  obtain ⟨answers, failure⟩ := r
  obtain ⟨answers', failure'⟩ := r'
  obtain ⟨ha, hfailure⟩ := h
  cases hfailure with
  | some he => exact .pure hw ⟨ha, .error he⟩
  | none =>
    refine Tandem.bind (Abides.requireAll hw result.requirements) fun later _ hf hq => ?_
    refine ⟨later, later.extends_refl, hf, ha, ?_⟩
    have houtcome : ∀ {o o' : Except Failure Unit} {seen seen' : Bindings},
        seen.Concur later seen' → Echo (fun _ _ => True) o o' →
          Echo (Bindings.Concur later) (o.map fun _ => seen) (o'.map fun _ => seen') := by
      rintro o o' seen seen' hseen (- | he)
      · exact .ok hseen
      · exact .error he
    exact houtcome hf.bindings hq

theorem Abides.awaitBuilder {steps : List Step} (hw : w.Paired known x y b)
    (h : Tandem known (w.stance :: x) (b.stance :: y) w.enter b.enter (Step.runAll steps)
      (Step.runAll steps) fun _ => Ended) (result : Item) :
    Abides known x y w b (Work.awaitBuilder steps result) (Work.awaitBuilder steps result)
      Bindings.Concur := by
  have hbuilder : Tandem known (w.stance :: x) (b.stance :: y) w.enter b.enter
      (Step.runAll steps >>= fun r => Work.conclude result r.1 r.2)
      (Step.runAll steps >>= fun r => Work.conclude result r.1 r.2)
      fun later c c' => List.Forall₂ Answer.Alike c.1 c'.1 ∧
        Echo (Bindings.Concur later) c.2 c'.2 :=
    h.bind fun later _ hf hr => Tandem.conclude hf hr result
  refine (lift (hbuilder.reentrant hw)).bind fun later r r' after after' _ hf hr => ?_
  refine modify (Tandem.pure ?_ hr.2)
  exact { hf with builders := List.rel_append hf.builders (.cons hr.1 .nil) }

-- ---------------------------------------------------------------------------
-- Every step
-- ---------------------------------------------------------------------------

mutual
theorem Item.abides (item : Item) (hb : item.byName) {known : Catalogue} {x y : List Stance}
    {w b : Workshop} {seen seen' : Bindings} (wrap : Bool) (hw : w.Paired known x y b)
    (hseen : seen.Concur known seen') :
    Abides known x y w b (item.resolve seen wrap) (item.resolve seen' wrap) Part.Concur := by
  match item with
  | .literal t =>
    rw [Item.resolve, Item.resolve]
    exact .pure hw ⟨Fragment.concur_literal _ _, rfl⟩
  | .named name =>
    rw [Item.resolve, Item.resolve]
    have h := hseen.lookup name
    revert h
    generalize seen.lookup name = o, seen'.lookup name = o'
    rintro (hv | -)
    · exact .admitFragment hw hv.toFragment
    · exact .fail hw
  | .malformed field =>
    rw [Item.resolve, Item.resolve]
    exact .fail hw
  | .pattern p => simp [Item.byName] at hb
  | .fragment f => simp [Item.byName] at hb
  | .tree items =>
    rw [Item.resolve, Item.resolve]
    refine (Abides.build fun wrap => Item.abidesAll items hb wrap hw hseen).bind ?_
    exact fun later f g after after' _ hf hfg => .pure hf ⟨hfg, rfl⟩
  | .deferred steps result =>
    rw [Item.byName, Bool.and_eq_true] at hb
    rw [Item.resolve_deferred, Item.resolve_deferred]
    refine (Abides.awaitBuilder hw (Step.abidesAll steps hb.1 hw.enter) result).bind ?_
    intro later seen seen' after after' _ hf hseen
    split
    · exact .throw hf (Failure.alike_ofCause _)
    · exact Item.abides result hb.2 wrap hf hseen

theorem Item.abidesAll (items : List Item) (hb : Item.byNameAll items) {known : Catalogue}
    {x y : List Stance} {w b : Workshop} {seen seen' : Bindings} (wrap : Bool)
    (hw : w.Paired known x y b) (hseen : seen.Concur known seen') :
    Abides known x y w b (Item.resolveAll seen wrap items) (Item.resolveAll seen' wrap items)
      fun later => List.Forall₂ (Part.Concur later) := by
  match items with
  | [] =>
    rw [Item.resolveAll, Item.resolveAll]
    exact .pure hw .nil
  | item :: rest =>
    rw [Item.byNameAll, Bool.and_eq_true] at hb
    rw [Item.resolveAll, Item.resolveAll]
    refine (Item.abides item hb.1 wrap hw hseen).bind fun later p q after after' hk hf hp => ?_
    refine (Item.abidesAll rest hb.2 wrap hf (hseen.mono hk)).bind ?_
    exact fun last ps qs after after' hk hf hps => .pure hf (.cons (hp.mono hk) hps)

theorem Step.abides (step : Step) (hb : step.byName) {known : Catalogue} {x y : List Stance}
    {w b : Workshop} (hw : w.Paired known x y b) :
    Abides known x y w b step.run step.run fun _ => Answer.Alike := by
  match step with
  | .action a =>
    rw [Step.run]
    exact .action hw a
  | .assemble result items layout =>
    rw [Step.run]
    refine (Abides.requireAll hw _).bind fun later _ _ after after' _ hf _ => ?_
    refine .logged hf fun hempty => .get (.modify ?_)
    have hresolve := fun wrap =>
      Item.abidesAll items hb wrap hempty.beginAssembly hempty.bindings
    exact (Abides.build hresolve).bind fun _ f g _ _ _ hf hfg => .keep hf result (.fragment hfg)
  | .nested shield steps =>
    rw [Step.run]
    have hshield : Tandem known x y w b (Workshop.shielded shield (Step.runAll steps))
        (Workshop.shielded shield (Step.runAll steps)) fun _ => Ended := by
      cases shield with
      | reentrant => exact (Step.abidesAll steps hb hw.enter).reentrant hw
      | scope =>
        have hscope : Tandem known (w.stance :: x) (b.stance :: y) w.enter b.enter
            (do modify Workshop.reset; Step.runAll steps)
            (do modify Workshop.reset; Step.runAll steps) fun _ => Ended :=
          Step.abidesAll steps hb hw.enter.reset
        exact hscope.reentrant hw
      | direction d =>
        refine Tandem.facing d (Step.abidesAll steps hb ?_) hw
        rw [← hw.stance]
        exact hw.restance _
    exact (Abides.lift hshield).bind fun later r r' after after' _ hf hr =>
      .nested hf hr.answers hr.failure

theorem Step.abidesAll (steps : List Step) (hb : Step.byNameAll steps) {known : Catalogue}
    {x y : List Stance} {w b : Workshop} (hw : w.Paired known x y b) :
    Tandem known x y w b (Step.runAll steps) (Step.runAll steps) fun _ => Ended := by
  match steps with
  | [] =>
    rw [Step.runAll]
    exact .pure hw ⟨.nil, .none⟩
  | step :: rest =>
    rw [Step.byNameAll, Bool.and_eq_true] at hb
    rw [Step.runAll]
    refine Tandem.bind (Step.abides step hb.1 hw) fun later _ hf ho => ?_
    revert ho
    generalize (step.run.run w).1 = o, (step.run.run b).1 = o'
    rintro (ha | he)
    · refine (Step.abidesAll rest hb.2 hf).bind fun last _ hf hr => ?_
      exact .pure hf ⟨.cons ha hr.answers, hr.failure⟩
    · exact .pure hf ⟨.cons he.answer .nil, .some he⟩
end

end Splice
