import Splice.Proofs.Moments
import Splice.Proofs.Resolving

/-!
# Filed values

A value is filed if its record stands for its own source. The catalogue says
for which source each record of the archive stands; it grows with every pattern
that is made, and what has been filed once stays filed.

`Advances` and `Achieves` say of an act in a workshop that it leaves filed
values behind, for a catalogue that knows at least as much as the one before.
-/

namespace Splice

open Source

variable {α β : Type} {known later : Catalogue} {f g : Fragment} {s t : Text}
  {w w' : Workshop}

-- ---------------------------------------------------------------------------
-- Catalogues
-- ---------------------------------------------------------------------------

/-- A catalogue that knows what another one knows, and maybe more. -/
def Catalogue.Extends (later known : Catalogue) : Prop :=
  ∀ n s, known.source? n = some s → later.source? n = some s

theorem Catalogue.extends_refl (known : Catalogue) : known.Extends known := fun _ _ h => h

theorem Catalogue.Extends.trans {last : Catalogue} (h : last.Extends later)
    (h' : later.Extends known) : last.Extends known := fun n s hn => h n s (h' n s hn)

structure Catalogue.Valid (known : Catalogue) : Prop where
  lt : ∀ n s, known.source? n = some s → n < known.size
  closed : ∀ n s, known.source? n = some s → Closed s
  clear : ∀ n s, known.source? n = some s → Clear s

def Catalogue.add (known : Catalogue) (size : Nat) (source : Text) : Catalogue where
  source? n := if n = size then some source else known.source? n
  size := size + 1

namespace Catalogue

variable {size : Nat}

theorem source?_add (known : Catalogue) (size : Nat) (s : Text) (n : Nat) :
    (known.add size s).source? n = if n = size then some s else known.source? n := rfl

theorem Valid.extends_add (h : known.Valid) (hs : known.size ≤ size) :
    (known.add size s).Extends known := by
  intro n u hn
  have hlt := h.lt n u hn
  rw [source?_add, if_neg (by omega), hn]

theorem Valid.add (h : known.Valid) (hs : known.size ≤ size) (hc : Closed s) (hr : Clear s) :
    (known.add size s).Valid := by
  have cases : ∀ n u, (known.add size s).source? n = some u →
      n = size ∧ s = u ∨ known.source? n = some u := by
    intro n u hn
    rw [source?_add] at hn
    split at hn
    · exact .inl ⟨‹_›, Option.some.inj hn⟩
    · exact .inr hn
  refine ⟨fun n u hn => ?_, fun n u hn => ?_, fun n u hn => ?_⟩ <;>
    obtain ⟨rfl, rfl⟩ | hn := cases n u hn
  · exact Nat.lt_succ_self _
  · exact Nat.lt_succ_of_lt (Nat.lt_of_lt_of_le (h.lt n u hn) hs)
  · exact hc
  · exact h.closed n u hn
  · exact hr
  · exact h.clear n u hn

end Catalogue

theorem Archive.Reports.push {archive : Archive} {a : Analysis}
    (h : archive.Reports true known) (ha : a.Reports true s) :
    Archive.Reports true (known.add archive.size s) (archive.push a) := by
  refine ⟨?_, fun n u hn => ?_⟩
  · rw [Array.size_push]
    exact Nat.le_refl _
  · rw [Catalogue.source?_add] at hn
    unfold Archive.analysis
    rw [Array.getElem?_push]
    split at hn
    · rename_i heq
      obtain rfl := Option.some.inj hn
      rw [if_pos heq]
      exact ha
    · rename_i hne
      rw [if_neg hne]
      exact h.records n u hn

-- ---------------------------------------------------------------------------
-- Fragments and values
-- ---------------------------------------------------------------------------

/-- A fragment whose record stands for its own source. -/
def Fragment.Filed (known : Catalogue) (f : Fragment) : Prop :=
  match f.origin with
  | .native p => known.source? p.number = some f.source
  | .literal => ∃ t, f.source = ofLiteral t
  | .composite _ a => Closed f.source ∧ Clear f.source ∧ a.Reports true f.source

def Value.Filed (known : Catalogue) (v : Value) : Prop := v.toFragment.Filed known

def Bindings.Filed (known : Catalogue) (bindings : Bindings) : Prop :=
  ∀ b ∈ bindings, b.2.Filed known

namespace Fragment

theorem Filed.mono (h : f.Filed known) (hk : later.Extends known) : f.Filed later := by
  unfold Filed at h ⊢
  split at h
  · exact hk _ _ h
  · exact h
  · exact h

theorem Filed.closed (h : f.Filed known) (hk : known.Valid) : Closed f.source := by
  unfold Filed at h
  split at h
  · exact hk.closed _ _ h
  · obtain ⟨t, ht⟩ := h
    exact ht ▸ closed_ofLiteral t
  · exact h.1

theorem Filed.clear (h : f.Filed known) (hk : known.Valid) : Clear f.source := by
  unfold Filed at h
  split at h
  · exact hk.clear _ _ h
  · obtain ⟨t, ht⟩ := h
    exact ht ▸ clear_ofLiteral t
  · exact h.2.1

theorem Filed.answers (h : f.Filed known) (p : Property α) : f.Answers true known p := by
  unfold Filed at h
  unfold Answers
  cases ho : f.origin with
  | native pattern =>
    rw [ho] at h
    exact ⟨f.source, h, p.agrees_refl _⟩
  | literal =>
    rw [ho] at h
    obtain ⟨t, ht⟩ := h
    simpa only [ht] using reports_ofLiteral p t
  | composite traits a =>
    rw [ho] at h
    exact h.2.2 _ p

theorem Filed.sound (h : f.Filed known) (hk : known.Valid) : f.Sound true known :=
  ⟨h.closed hk, fun _ => h.clear hk, h.answers _, h.answers _, h.answers _⟩

theorem Filed.recorded (h : f.Filed known) (hg : f.Recorded true g) : g.Filed known := by
  obtain ⟨hs, ho | ⟨traits, a, b, hf, hg, hb⟩⟩ := hg
  · simpa [Filed, hs, ho] using h
  · simp only [Filed, hf] at h
    simp only [Filed, hg, hs]
    exact ⟨h.1, h.2.1, fun _ p => hb _ p (h.2.2 _ p)⟩

theorem Filed.reports {archive : Archive} (h : f.Filed known) (ha : archive.Reports true known) :
    (f.analysis archive).Reports true f.source := by
  unfold Filed at h
  unfold analysis
  cases ho : f.origin with
  | native p =>
    rw [ho] at h
    exact ha.records _ _ h
  | literal => exact Analysis.reports_empty _
  | composite traits a =>
    rw [ho] at h
    exact h.2.2

theorem filed_of_assembled {layout : Layout} {sources : List Text}
    (h : Assembled true layout sources f) : f.Filed known := by
  obtain ⟨traits, a, ho, ha, -⟩ := h.recorded
  simp only [Filed, ho]
  exact ⟨h.closed, h.clear rfl, ha⟩

end Fragment

theorem Bindings.Filed.mono {bindings : Bindings} (h : bindings.Filed known)
    (hk : later.Extends known) : bindings.Filed later := fun b hb => (h b hb).mono hk

theorem Bindings.Filed.lookup {bindings : Bindings} (h : bindings.Filed known) {name : Name}
    {v : Value} (hv : bindings.lookup name = some v) : v.Filed known := by
  obtain ⟨before, behind, rfl, -⟩ := List.lookup_eq_some_iff.mp hv
  exact h (name, v) (by simp)

-- ---------------------------------------------------------------------------
-- Workshops
-- ---------------------------------------------------------------------------

structure Workshop.Files (known : Catalogue) (w : Workshop) : Prop where
  valid : known.Valid
  archive : w.archive.Reports true known
  values : Bindings.Filed known w.bindings

theorem Workshop.Files.congr (h : w.Files known) (ha : w'.archive = w.archive)
    (hb : w'.bindings = w.bindings) : w'.Files known :=
  ⟨h.valid, ha ▸ h.archive, hb ▸ h.values⟩

theorem Workshop.Files.store {v : Value} (h : w.Files known) (name : Name) (hv : v.Filed known) :
    (w.store name v).Files known :=
  ⟨h.valid, h.archive, List.forall_mem_cons.mpr ⟨hv, h.values⟩⟩

/-- An act that leaves filed values behind, and an answer of which `Q` holds. -/
def Advances (known : Catalogue) (w : Workshop) (act : StateM Workshop α)
    (Q : Catalogue → α → Prop) : Prop :=
  ∃ later : Catalogue, later.Extends known ∧ (act w).2.Files later ∧ Q later (act w).1

/-- The same of an act that may fail. -/
def Achieves (known : Catalogue) (w : Workshop) (act : Work α) (Q : Catalogue → α → Prop) :
    Prop :=
  Advances known w act.run fun later outcome => ∀ a, outcome = .ok a → Q later a

namespace Advances

variable {act : StateM Workshop α} {next : α → StateM Workshop β} {P Q : Catalogue → α → Prop}
  {R : Catalogue → β → Prop}

theorem pure {a : α} (hw : w.Files known) (h : Q known a) :
    Advances known w (pure a : StateM Workshop α) Q := ⟨known, known.extends_refl, hw, h⟩

theorem mono (h : Advances known w act P) (hq : ∀ later a, P later a → Q later a) :
    Advances known w act Q := by
  obtain ⟨later, hk, hf, hp⟩ := h
  exact ⟨later, hk, hf, hq _ _ hp⟩

theorem bind (h : Advances known w act Q)
    (hn : ∀ later : Catalogue, later.Extends known → (act w).2.Files later → Q later (act w).1 →
      Advances later (act w).2 (next (act w).1) R) :
    Advances known w (act >>= next) R := by
  obtain ⟨later, hk, hf, hq⟩ := h
  obtain ⟨last, hl, hg, hr⟩ := hn later hk hf hq
  exact ⟨last, hl.trans hk, hg, hr⟩

end Advances

namespace Achieves

variable {act : Work α} {next : α → Work β} {P Q : Catalogue → α → Prop}
  {R : Catalogue → β → Prop}

theorem pure {a : α} (hw : w.Files known) (h : Q known a) :
    Achieves known w (pure a : Work α) Q :=
  Advances.pure hw fun b hb => by
    obtain rfl := Except.ok.inj hb
    exact h

theorem throw {failure : Failure} (hw : w.Files known) :
    Achieves known w (throw failure : Work α) Q :=
  Advances.pure hw fun _ h => by cases h

theorem mono (h : Achieves known w act P) (hq : ∀ later a, P later a → Q later a) :
    Achieves known w act Q :=
  Advances.mono h fun _ _ ho a ha => hq _ a (ho a ha)

theorem bind (h : Achieves known w act Q)
    (hn : ∀ later a after, act.run w = (.ok a, after) → later.Extends known →
      after.Files later → Q later a → Achieves later after (next a) R) :
    Achieves known w (act >>= next) R := by
  have hrun : (act >>= next).run = act.run >>= ExceptT.bindCont next := rfl
  rw [Achieves, hrun]
  refine Advances.bind h fun later hk hf hq => ?_
  cases ho : (act.run w).1 with
  | error e => exact Advances.pure hf fun _ h => by cases h
  | ok a => exact hn later a _ (Prod.ext ho rfl) hk hf (hq a ho)

theorem lift {act : StateM Workshop α} (h : Advances known w act Q) :
    Achieves known w (ExceptT.lift act) Q := by
  obtain ⟨later, hk, hf, hq⟩ := h
  refine ⟨later, hk, hf, fun b hb => ?_⟩
  obtain rfl := Except.ok.inj hb
  exact hq

theorem onArchive {act : ExceptT Error (StateM Archive) α} {P : α → Prop} (hw : w.Files known)
    (h : Yields (Archive.Reports true known) act P) :
    Achieves known w (Work.onArchive act) fun _ a => P a := by
  obtain ⟨hp, ha⟩ := h w.archive hw.archive
  exact ⟨known, known.extends_refl, ⟨hw.valid, ha, hw.values⟩, fun a h => hp a (mapError_ok.mp h)⟩

theorem filing {act : StateM Archive α} {P : α → Prop} (hw : w.Files known)
    (h : Keeps (Archive.Reports true known) act P) :
    Achieves known w (Work.filing act) fun _ a => P a := by
  obtain ⟨hp, ha⟩ := h w.archive hw.archive
  refine ⟨known, known.extends_refl, ⟨hw.valid, ha, hw.values⟩, fun a h => ?_⟩
  obtain rfl := Except.ok.inj h
  exact hp

end Achieves

end Splice
