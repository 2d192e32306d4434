import Splice.Proofs.Answers

/-!
# Patterns in wide mode

A fragment that is finished in wide mode is promoted, unless it is wide itself
or the flags that are agreed on are wide without the caller asking for it.
Right behind its assembly a fragment is as wide as the agreement, so nothing
narrow is compiled as it stands there. An older fragment can meet flags that
were agreed on since, and is then compiled in wide mode without a promotion.
-/

namespace Splice

open Source

variable {options : Finish} {archive' : Archive} {w : Workshop} {f : Fragment} {p : Pattern}

theorem Work.assemble_isWide {layout : Layout} {items : List Item} {start : Workshop}
    (h : (Work.assemble layout items).run start = (.ok f, w)) :
    f.isWide = w.stance.agreement.wide := by
  obtain ⟨_, _, -, h⟩ := run_bind_ok h
  obtain ⟨_, _, -, h⟩ := run_bind_ok h
  obtain ⟨_, after, _, -, hrun, rfl⟩ := build_ok h
  obtain ⟨n, rfl, -⟩ := assemble_toFragment hrun
  rfl

/-- A fragment that is finished in wide mode is wide or has been promoted, if it
is as wide as the agreement or comes right from its assembly. -/
theorem Work.finish_wide
    (hf : (w.stance.agreement.wide → f.isWide) ∨
      ∃ start layout items, (Work.assemble layout items).run start = (.ok f, w))
    (h : (f.finish w.fold w.stance.agreement options).run w.archive = (.ok p, archive'))
    (hu : p.flags.unicode) :
    f.isWide ∨ hasWideProblem f.source = false ∧ p.source = Source.promote f.source := by
  have hagreed : w.stance.agreement.wide → f.isWide := by
    obtain hf | ⟨start, layout, items, hrun⟩ := hf
    · exact hf
    · rw [assemble_isWide hrun]
      exact id
  obtain ⟨-, -, hsource⟩ := Fragment.finish_ok h
  cases hwide : f.isWide with
  | true => exact .inl rfl
  | false =>
    have hnarrow : w.stance.agreement.wide = false := by simpa [hwide] using hagreed
    rw [hu, hnarrow, hwide] at hsource
    exact .inr hsource

theorem Work.finish_wide_forced :
    let start := Workshop.new false
    let items : List Item := [.fragment (.raw "\x7b.".toList none)]
    let options : Finish := ⟨some (.add (Flags.empty.insert .unicode)), none⟩
    ∃ f w p archive, (Work.assemble ⟨false, false, 0⟩ items).run start = (.ok f, w) ∧
      (f.finish w.fold w.stance.agreement options).run w.archive = (.ok p, archive) ∧
      p.flags.unicode ∧ f.isWide = false ∧ hasWideProblem f.source = false ∧
      p.source = "\\\x7b[^\\n\\r\\u2028\\u2029\\u\x7b10000\x7d-\\u\x7b10FFFF\x7d]".toList := by
  intro start items options
  let f : Fragment := .composite "\x7b.".toList ⟨.neutral, false, none, none⟩
    ⟨some 0, some .none, none, none⟩
  let p : Pattern :=
    ⟨0, "\\\x7b[^\\n\\r\\u2028\\u2029\\u\x7b10000\x7d-\\u\x7b10FFFF\x7d]".toList,
      Flags.empty.insert .unicode, ⟨.neutral, true, none, none⟩⟩
  let w := ((Work.assemble ⟨false, false, 0⟩ items).run start).2
  have hf := run_ok (Work.assemble ⟨false, false, 0⟩ items) start f (by decide +kernel)
  have hp := run_ok (f.finish w.fold w.stance.agreement options) w.archive p (by decide +kernel)
  obtain hwide | ⟨hfine, hsource⟩ := finish_wide (.inr ⟨_, _, _, hf⟩) hp rfl
  · cases hwide
  · exact ⟨f, w, p, _, hf, hp, rfl, rfl, hfine, rfl⟩

end Splice
