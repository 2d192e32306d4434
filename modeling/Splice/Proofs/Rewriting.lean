import Splice.Proofs.Analyses

/-!
# What rewritten sources keep

An analysis that was made of a source is reused for what promotion, emulation
and renumbering make of it. They keep everything that is analysed, up to two
exceptions: emulation may turn one anchor into a group, and renumbering may
turn a marker at the end into a reference that takes a digit behind it.
-/

namespace Splice.Source

variable {s t : Text} {offset : Word}

theorem Closed.renumbered (h : Closed s) (ht : renumber s offset = .ok t) : Closed t := by
  rw [closed_iff false, h.outline_renumber (by simp) ht, Mark.depth?_map (Mark.shift_alike _)]
  exact (closed_iff false).mp h

theorem Closed.captures_renumber (h : Closed s) (ht : renumber s offset = .ok t) :
    captureCount s = captureCount t := by
  have ho : outline false t = (outline false s).map (Mark.shift offset.toNat) :=
    h.outline_renumber (by simp) ht
  have hsignals : signals false t = (signals false s).map (Event.shift offset.toNat) := by
    simp only [signals, ho, List.filterMap_map, List.map_filterMap, Function.comp_def,
      Mark.event?_shift]
  rw [← h.captures false, ← (h.renumbered ht).captures false, hsignals, Event.captures_shift]

theorem Closed.topBars_renumber (h : Closed s) (ht : renumber s offset = .ok t) :
    topBars t = topBars s := by
  rw [← (h.renumbered ht).bars false, ← h.bars false, h.outline_renumber (by simp) ht,
    Mark.bars_map (Mark.shift_alike _)]

theorem Closed.alternates_renumber (h : Closed s) (ht : renumber s offset = .ok t) :
    alternates t = alternates s := by
  rw [alternates_eq, alternates_eq, h.topBars_renumber ht]

/-- A closed source stays closed when it is rewritten, and answers like before
whatever is asked of what becomes of it. -/
theorem analyses_rewritten (h : Closed s) :
    (∀ dotAll fold, Closed (emulate dotAll fold s) ∧
      captureCount (emulate dotAll fold s) = captureCount s ∧
      references (emulate dotAll fold s) = references s ∧
      alternates (emulate dotAll fold s) = alternates s) ∧
    (Closed (promote s) ∧ captureCount (promote s) = captureCount s ∧
      references (promote s) = references s ∧ alternates (promote s) = alternates s ∧
      isSingleGroup (promote s) = isSingleGroup s) ∧
    ∀ (offset : Word) t, renumber s offset = .ok t → Closed t ∧ captureCount t = captureCount s ∧
      (references t).present = (references s).present ∧ alternates t = alternates s := by
  refine ⟨fun dotAll fold => ?_, ?_, fun offset t ht => ?_⟩
  · have hp := outline_emulate dotAll fold true s
    exact ⟨h.padded hp, (h.agrees_captures hp).symm, (h.agrees_references hp rfl).symm,
      (h.agrees_alternates hp).symm⟩
  · have hp := padded_promote s true
    exact ⟨h.padded hp, (h.agrees_captures hp).symm, (h.agrees_references hp rfl).symm,
      (h.agrees_alternates hp).symm, isSingleGroup_promote s⟩
  · obtain ⟨-, -, hpresent⟩ := h.respells ht
    exact ⟨h.renumbered ht, (h.captures_renumber ht).symm, hpresent, h.alternates_renumber ht⟩

theorem analyses_rewritten_glued :
    let s : Text := "(a)^.\\1|(?:$ ^d:0,n:1)2]".toList
    let t : Text := "(a)^.\\4|\\12]".toList
    Closed s ∧ references (emulate true true s) = references s ∧
      captureCount (promote s) = captureCount s ∧ renumber s 3 = .ok t ∧
      (references t).present = (references s).present := by
  intro s t
  have hclosed : Closed s := by decide +kernel
  have hrenumber : renumber s 3 = .ok t := by decide +kernel
  obtain ⟨hemulate, hpromote, hkept⟩ := analyses_rewritten hclosed
  exact ⟨hclosed, (hemulate true true).2.2.1, hpromote.2.1, hrenumber, (hkept 3 t hrenumber).2.2.1⟩

end Splice.Source
