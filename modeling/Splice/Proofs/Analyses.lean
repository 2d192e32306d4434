import Splice.Fragment
import Splice.Proofs.Acts
import Splice.Proofs.Renumbering
import Splice.Proofs.Spelling

/-!
# What recorded analyses say

A record is honest about a source if it holds the answers that the source
itself would give, except that it may say more about references than there is.
Asking keeps records honest as long as the text that is asked answers like the
text that the record stands for.

Coarse honesty says nothing about references at all. It is what remains of a
source in which a marker runs into a digit.
-/

namespace Splice

variable {α β : Type} {fine : Bool} {s t : Text}

/-- All that is actually there is also reported. -/
def References.Covers (reported actual : References) : Prop :=
  (actual.present → reported.present) ∧ (actual.final → reported.final)

instance (reported actual : References) : Decidable (reported.Covers actual) :=
  inferInstanceAs (Decidable ((_ → _) ∧ (_ → _)))

structure Analysis.Honest (a : Analysis) (source : Text) : Prop where
  captures : ∀ n, a.captures = some n → n = Source.captureCount source
  references : ∀ r, a.references = some r → r.Covers (Source.references source)
  alternates : ∀ b, a.alternates = some b → b = Source.alternates source
  singleGroup : ∀ b, a.singleGroup = some b → b = Source.isSingleGroup source

instance (a : Analysis) (s : Text) : Decidable (a.Honest s) :=
  decidable_of_iff ((∀ n ∈ a.captures, n = Source.captureCount s) ∧
      (∀ r ∈ a.references, r.Covers (Source.references s)) ∧
      (∀ b ∈ a.alternates, b = Source.alternates s) ∧
      ∀ b ∈ a.singleGroup, b = Source.isSingleGroup s)
    ⟨fun ⟨hc, hr, ha, hs⟩ => ⟨hc, hr, ha, hs⟩,
      fun h => ⟨h.captures, h.references, h.alternates, h.singleGroup⟩⟩

-- ---------------------------------------------------------------------------
-- One property
-- ---------------------------------------------------------------------------

namespace Property

/-- Whether an answer holds of a source. -/
def Reports (fine : Bool) : Property α → α → Text → Prop
  | .captures, n, source => n = Source.captureCount source
  | .references, r, source => fine → r.Covers (Source.references source)
  | .alternates, b, source => b = Source.alternates source
  | .singleGroup, b, source => b = Source.isSingleGroup source

def Agrees (fine : Bool) : Property α → Text → Text → Prop
  | .captures, s, t => Source.captureCount s = Source.captureCount t
  | .references, s, t => fine → Source.references s = Source.references t
  | .alternates, s, t => Source.alternates s = Source.alternates t
  | .singleGroup, s, t => Source.isSingleGroup s = Source.isSingleGroup t

theorem agrees_refl (p : Property α) (s : Text) : p.Agrees fine s s := by cases p <;> simp [Agrees]

theorem Agrees.trans {p : Property α} {u : Text} (h : p.Agrees fine s t) (h' : p.Agrees fine t u) :
    p.Agrees fine s u := by
  cases p with
  | references => exact fun hf => (h hf).trans (h' hf)
  | captures => exact Eq.trans h h'
  | alternates => exact Eq.trans h h'
  | singleGroup => exact Eq.trans h h'

theorem reports_compute (p : Property α) (s : Text) : p.Reports fine (p.compute s) s := by
  cases p with
  | references => exact fun _ => ⟨id, id⟩
  | _ => rfl

theorem reports_congr {p : Property α} (h : p.Agrees fine s t) (answer : α) :
    p.Reports fine answer s ↔ p.Reports fine answer t := by
  cases p with
  | references => exact forall_congr' fun hf => by rw [h hf]
  | captures => exact Eq.congr_right h
  | alternates => exact Eq.congr_right h
  | singleGroup => exact Eq.congr_right h

end Property

-- ---------------------------------------------------------------------------
-- Records
-- ---------------------------------------------------------------------------

namespace Analysis

variable {a : Analysis} {p : Property α} {q : Property β}

/-- A record whose answer about a property, if it has one, holds of a source. -/
def Vouches (fine : Bool) (a : Analysis) (p : Property α) (source : Text) : Prop :=
  ∀ answer, a.get? p = some answer → p.Reports fine answer source

/-- A record all of whose answers hold of a source. -/
def Reports (fine : Bool) (a : Analysis) (source : Text) : Prop :=
  ∀ (α : Type) (p : Property α), a.Vouches fine p source

theorem Honest.reports (h : a.Honest s) (fine : Bool) : a.Reports fine s := by
  intro α p answer hp
  cases p with
  | captures => exact h.captures _ hp
  | references => exact fun _ => h.references _ hp
  | alternates => exact h.alternates _ hp
  | singleGroup => exact h.singleGroup _ hp

theorem Reports.honest (h : a.Reports true s) : a.Honest s where
  captures := h _ .captures
  references r hr := h _ .references r hr rfl
  alternates := h _ .alternates
  singleGroup := h _ .singleGroup

theorem reports_empty (s : Text) : empty.Reports fine s := by
  intro α p answer h
  cases p <;> simp [empty, get?] at h

theorem Vouches.congr (h : a.Vouches fine p s) (ht : p.Agrees fine s t) : a.Vouches fine p t :=
  fun answer ha => (p.reports_congr ht answer).mp (h answer ha)

theorem Vouches.set {answer : α} (h : a.Vouches fine q s) (ha : p.Reports fine answer s) :
    (a.set p answer).Vouches fine q s := by
  intro other hq
  cases p <;> cases q <;>
    first
    | exact h other hq
    | (obtain rfl := Option.some.inj hq
       exact ha)

theorem Vouches.answer (h : a.Vouches fine p s) (ht : p.Agrees fine s t) :
    p.Reports fine (a.ask p t).1 t := by
  unfold ask
  cases ha : a.get? p with
  | some answer => exact h.congr ht answer ha
  | none => exact p.reports_compute t

theorem vouches_ask (ht : p.Agrees fine s t) (hq : a.Vouches fine q s) :
    (a.ask p t).2.Vouches fine q s := by
  unfold ask
  cases ha : a.get? p with
  | some answer => exact hq
  | none => exact hq.set ((p.reports_congr ht _).mpr (p.reports_compute t))

end Analysis

/-- The sources that the records of an archive stand for, as far as they are
known, and how many records there are at least. -/
structure Catalogue where
  source? : Nat → Option Text
  size : Nat

structure Archive.Reports (fine : Bool) (known : Catalogue) (archive : Archive) : Prop where
  size : known.size ≤ archive.size
  records : ∀ n s, known.source? n = some s → (archive.analysis n).Reports fine s

namespace Archive

variable {known : Catalogue} {n : Nat}

theorem analysis_setIfInBounds (archive : Archive) (n m : Nat) (a : Analysis) :
    analysis (archive.setIfInBounds n a) m =
      if n = m ∧ n < archive.size then a else archive.analysis m := by
  unfold analysis
  rw [Array.getElem?_setIfInBounds]
  by_cases hnm : n = m
  · subst hnm
    by_cases hn : n < archive.size
    · simp [hn]
    · simp [hn]
  · simp [hnm]

theorem keeps_ask {p : Property α} (hs : known.source? n = some s) (ht : p.Agrees fine s t) :
    Keeps (Reports fine known) (Archive.ask n p t) (p.Reports fine · t) := by
  intro archive h
  have hp := h.records n s hs _ p
  have hask : (ask n p t archive).2 =
      archive.setIfInBounds n ((archive.analysis n).ask p t).2 := rfl
  refine ⟨hp.answer ht, ?_, fun m u hm => ?_⟩
  · rw [hask, Array.size_setIfInBounds]
    exact h.size
  · rw [hask, analysis_setIfInBounds]
    split
    · rename_i hn
      obtain ⟨rfl, -⟩ := hn
      obtain rfl : s = u := by simpa [hs] using hm
      exact fun _ q => Analysis.vouches_ask ht (h.records n s hs _ q)
    · exact h.records m u hm

end Archive

-- ---------------------------------------------------------------------------
-- Fragments
-- ---------------------------------------------------------------------------

namespace Fragment

variable {known : Catalogue} {p : Property α} {f g : Fragment}

/-- A fragment that can be asked about a property: what is recorded about it
stands for a source that answers alike. -/
def Answers (fine : Bool) (known : Catalogue) (p : Property α) (f : Fragment) : Prop :=
  match f.origin with
  | .native pattern => ∃ s, known.source? pattern.number = some s ∧ p.Agrees fine s f.source
  | .literal => p.Reports fine (p.ofLiteral f.source) f.source
  | .composite _ a => a.Vouches fine p f.source

/-- A fragment, once more has been recorded about it. -/
structure Recorded (fine : Bool) (f g : Fragment) : Prop where
  source : g.source = f.source
  origin : g.origin = f.origin ∨ ∃ traits a b, f.origin = .composite traits a ∧
    g.origin = .composite traits b ∧
      ∀ (α : Type) (p : Property α), a.Vouches fine p f.source → b.Vouches fine p f.source

theorem Recorded.refl (f : Fragment) : f.Recorded fine f := ⟨rfl, .inl rfl⟩

theorem Recorded.answers (h : f.Recorded fine g) (ha : f.Answers fine known p) :
    g.Answers fine known p := by
  obtain ⟨hs, ho | ⟨traits, a, b, hf, hg, hb⟩⟩ := h
  · simpa [Answers, hs, ho] using ha
  · simp only [Answers, hs, hg]
    simp only [Answers, hf] at ha
    exact hb _ p ha

theorem Answers.congr (h : f.Answers fine known p) (ho : g.origin = f.origin)
    (hl : f.isLiteral → p.ofLiteral g.source = p.ofLiteral f.source)
    (ht : p.Agrees fine f.source g.source) : g.Answers fine known p := by
  unfold Answers at h ⊢
  rw [ho]
  cases hf : f.origin with
  | native pattern =>
    rw [hf] at h
    obtain ⟨s, hs, ha⟩ := h
    exact ⟨s, hs, ha.trans ht⟩
  | literal =>
    rw [hf] at h
    simp only [hl (by simp [isLiteral, hf])]
    exact (p.reports_congr ht _).mp h
  | composite traits a =>
    rw [hf] at h
    exact h.congr ht

theorem keeps_ask (h : f.Answers fine known p) :
    Keeps (Archive.Reports fine known) (f.ask p)
      fun r => p.Reports fine r.1 f.source ∧ f.Recorded fine r.2 := by
  unfold Answers at h
  unfold ask
  cases ho : f.origin with
  | native pattern =>
    rw [ho] at h
    obtain ⟨s, hs, ht⟩ := h
    exact (Archive.keeps_ask hs ht).bind fun _ ha => .pure ⟨ha, .refl f⟩
  | literal =>
    rw [ho] at h
    exact .pure ⟨h, .refl f⟩
  | composite traits a =>
    rw [ho] at h
    have ht : p.Agrees fine f.source f.source := p.agrees_refl _
    exact .pure ⟨h.answer ht, rfl, .inr ⟨traits, a, _, ho, rfl, fun _ _ hq =>
      Analysis.vouches_ask ht hq⟩⟩

end Fragment

-- ---------------------------------------------------------------------------
-- Respelled sources answer alike
-- ---------------------------------------------------------------------------

namespace Source

theorem Closed.padded (h : Closed s) (hp : Padded (outline fine s) (outline fine t)) : Closed t :=
  (closed_iff fine).mpr (by rw [hp.depth?, (closed_iff fine).mp h])

theorem Closed.agrees_captures (h : Closed s) (hp : Padded (outline fine s) (outline fine t)) :
    Property.captures.Agrees fine s t := by
  have ht := h.padded hp
  rw [Property.Agrees, ← h.captures fine, ← ht.captures fine, signals, signals, hp.events]

theorem Closed.agrees_alternates (h : Closed s) (hp : Padded (outline fine s) (outline fine t)) :
    Property.alternates.Agrees fine s t := by
  have ht := h.padded hp
  rw [Property.Agrees, alternates_eq, alternates_eq, ← h.bars fine, ← ht.bars fine, hp.bars]

theorem Closed.agrees_references (h : Closed s) (hp : Padded (outline fine s) (outline fine t)) :
    Property.references.Agrees fine s t := by
  rintro rfl
  have ht := h.padded hp
  have hpresent : (references s).present = (references t).present := by
    rw [references_present, references_present, ← h.events, ← ht.events, signals, signals,
      hp.events]
  have hfinal : (references s).final = (references t).final := by
    rw [← h.final, ← ht.final, hp.final]
  cases hs : references s
  cases ht : references t
  simp_all

theorem MarkerFree.padded (h : MarkerFree s) (hs : Closed s)
    (hp : Padded (outline true s) (outline true t)) : MarkerFree t := by
  rw [markerFree_iff, ← (hs.padded hp).events, signals, hp.events, ← signals, hs.events]
  exact markerFree_iff.mp h

theorem Clear.padded (h : Clear s) (hp : Padded (outline true s) (outline true t)) : Clear t :=
  clear_iff.mpr (hp.clear (clear_iff.mp h))

end Source

end Splice
