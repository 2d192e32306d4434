import Splice.Assembly
import Splice.Proofs.Joining

/-!
# Joined pieces

Joining closed pieces gives a closed source that shows the events of the pieces
one behind the other, and whose bars are those of the pieces and the ones that
separate alternatives.
-/

namespace Splice

variable {fine : Bool} {a b s : Text} {pieces : List Piece}

namespace Source

-- ---------------------------------------------------------------------------
-- Two sources
-- ---------------------------------------------------------------------------

/-- No digit of `b` runs into a reference that ends `a`. -/
def Meets (fine : Bool) (a b : Text) : Prop :=
  fine → (references a).final → Sequel.of b ≠ .digit

theorem Closed.outline_append (ha : Closed a) (h : Meets fine a b) :
    outline fine (a ++ b) = (outline fine a).map (Mark.before (.of b)) ++ outline fine b := by
  refine Source.outline_append ha ?_
  rintro rfl hf
  rw [ha.final] at hf
  exact h rfl hf

theorem Closed.append (ha : Closed a) (hb : Closed b) (h : Meets fine a b) : Closed (a ++ b) := by
  rw [closed_iff fine] at ha hb ⊢
  rw [((closed_iff fine).mpr ha).outline_append h, Mark.depth?_append,
    Mark.depth?_map (Mark.before_alike _), ha]
  exact hb

theorem Closed.signals_append (ha : Closed a) (h : Meets fine a b) :
    signals fine (a ++ b) = signals fine a ++ signals fine b := by
  simp only [signals, ha.outline_append h, List.filterMap_append, List.filterMap_map,
    Function.comp_def, Mark.event?_before]

theorem Closed.topBars_append (ha : Closed a) (hb : Closed b) (h : Meets fine a b) :
    topBars (a ++ b) = topBars a + topBars b := by
  have hd := (closed_iff fine).mp ha
  rw [← Mark.depth?_map (Mark.before_alike (.of b))] at hd
  rw [← (ha.append hb h).bars fine, ← ha.bars fine, ← hb.bars fine, ha.outline_append h,
    Mark.bars_append hd, Mark.bars_map (Mark.before_alike _)]

theorem Closed.final_append (ha : Closed a) (hb : Closed b) (h : Meets true a b) :
    (references (a ++ b)).final =
      if b = [] then (references a).final else (references b).final := by
  split
  · rename_i he
    rw [he, List.append_nil]
  · rename_i hne
    have hq : Sequel.of b ≠ .stop := by
      obtain ⟨c, b, rfl⟩ := List.exists_cons_of_ne_nil hne
      rw [Sequel.of]
      split <;> simp
    have hmap : ((outline true a).map (Mark.before (.of b))).any Mark.isFinal = false := by
      simp [List.any_map, Mark.isFinal_before, hq]
    rw [← (ha.append hb h).final, ← hb.final, ha.outline_append h, List.any_append, hmap,
      Bool.false_or]

theorem Clear.append (ha : Clear a) (hb : Clear b) (hc : Closed a) (h : Meets true a b) :
    Clear (a ++ b) := by
  rw [clear_iff] at ha hb ⊢
  rw [hc.outline_append h, List.forall_mem_append, List.forall_mem_map]
  refine ⟨fun m hm => Mark.isClear_before (ha m hm) fun hf => h rfl ?_, hb⟩
  rw [← hc.final]
  exact List.any_eq_true.mpr ⟨m, hm, hf⟩

theorem closed_nil : Closed [] := (closed_iff false).mpr (by simp [outline])

theorem signals_nil : signals fine [] = [] := by simp [signals, outline]

theorem topBars_nil : topBars [] = 0 := by rw [← closed_nil.bars false]; simp [outline, Mark.bars]

theorem clear_nil : Clear [] := clear_iff.mpr (by simp [outline])

-- ---------------------------------------------------------------------------
-- Bars and separators
-- ---------------------------------------------------------------------------

/-- A source that shows no event and is ended by no reference. -/
structure Silent (source : Text) : Prop where
  closed : Closed source
  clear : Clear source
  signals : ∀ fine, signals fine source = []
  final : (references source).final = false

theorem Silent.meets (h : Silent a) (b : Text) : Meets fine a b := by simp [Meets, h.final]

theorem silent_of_outline {marks : List Mark} (ho : ∀ fine, outline fine s = marks)
    (hd : Mark.depth? 0 marks = some 0) (he : marks.filterMap Mark.event? = [])
    (hc : ∀ m ∈ marks, m.isClear) (hf : marks.any Mark.isFinal = false) : Silent s := by
  have closed : Closed s := (closed_iff false).mpr (by rw [ho, hd])
  refine ⟨closed, clear_iff.mpr (by rwa [ho]), fun fine => by rw [Source.signals, ho, he], ?_⟩
  rw [← closed.final, ho, hf]

theorem outline_singleBar (fine : Bool) : outline fine ['|'] = [.bar] := by
  rw [outline_bar]
  simp [outline]

theorem silent_bar : Silent ['|'] :=
  silent_of_outline outline_singleBar (by simp) rfl (by simp [Mark.isClear]) rfl

theorem topBars_bar : topBars ['|'] = 1 := by
  rw [← silent_bar.closed.bars false, outline_singleBar]
  rfl

theorem outline_separator (fine : Bool) :
    outline fine Pattern.emptyGroup = [.opens false, .closes] := by
  have : outline fine (Pattern.emptyGroup ++ []) = _ := outline_emptyGroup []
  rw [List.append_nil] at this
  rw [this]
  simp [outline]

theorem silent_separator : Silent Pattern.emptyGroup :=
  silent_of_outline outline_separator (by simp) rfl (by simp [Mark.isClear]) rfl

theorem topBars_separator : topBars Pattern.emptyGroup = 0 := by
  rw [← silent_separator.closed.bars false, outline_separator]
  rfl

end Source

-- ---------------------------------------------------------------------------
-- Pieces
-- ---------------------------------------------------------------------------

open Source

structure Piece.Fit (fine : Bool) (p : Piece) : Prop where
  closed : Closed p.source
  clear : fine → Clear p.source
  final : fine → (references p.source).final → p.endsInReference

/-- A source that shows what some pieces show, one behind the other. -/
structure Joined (fine : Bool) (pieces : List Piece) (source : Text) : Prop where
  closed : Closed source
  clear : fine → Clear source
  signals : signals fine source = (pieces.map fun p => signals fine p.source).flatten
  final : fine → (references source).final → Piece.lastEndsInReference pieces

namespace Piece

variable {p : Piece}

theorem lastEndsInReference_cons (p : Piece) (rest : List Piece) :
    lastEndsInReference (p :: rest) =
      if ∀ q ∈ rest, q.source = [] then p.source ≠ [] && p.endsInReference
      else lastEndsInReference rest := by
  unfold lastEndsInReference
  rw [List.reverse_cons, List.find?_append]
  split
  · rename_i h
    have hnone : rest.reverse.find? (·.source ≠ []) = none := by
      simpa [List.find?_eq_none] using h
    rw [hnone, Option.none_or]
    by_cases hp : p.source = [] <;> simp [hp]
  · rename_i h
    have hsome : (rest.reverse.find? (·.source ≠ [])).isSome := by
      simpa [List.find?_isSome] using h
    obtain ⟨q, hq⟩ := Option.isSome_iff_exists.mp hsome
    rw [hq, Option.some_or]

theorem sequence_cons (p : Piece) (rest : List Piece) :
    sequence (p :: rest) = p.source ++ (p.separator (sequence rest) ++ sequence rest) := by
  cases rest with
  | nil => simp [sequence, separator]
  | cons q rest => rw [sequence, List.append_assoc]; simp

theorem sequence_eq_nil (h : sequence pieces = []) : ∀ p ∈ pieces, p.source = [] := by
  induction pieces with
  | nil => simp
  | cons p rest ih =>
    rw [sequence_cons] at h
    simp only [List.append_eq_nil_iff] at h
    exact List.forall_mem_cons.mpr ⟨h.1, ih h.2.2⟩

theorem alternatives_cons (p q : Piece) (rest : List Piece) :
    alternatives (p :: q :: rest) = p.source ++ (['|'] ++ alternatives (q :: rest)) := by
  simp [alternatives, List.intercalate_cons_cons]

theorem separator_cases (p : Piece) (tail : Text) :
    p.separator tail = [] ∧ (p.endsInReference → Sequel.of tail ≠ .digit) ∨
      p.separator tail = Pattern.emptyGroup := by
  unfold separator
  split
  · exact .inr rfl
  · rename_i h
    refine .inl ⟨rfl, fun he hd => h ?_⟩
    simp [he, Sequel.of_eq_digit.mp hd]

end Piece

namespace Joined

variable {p : Piece}

theorem nil : Joined fine [] [] := by
  refine ⟨closed_nil, fun _ => clear_nil, signals_nil, fun _ h => ?_⟩
  rw [← closed_nil.final] at h
  simp [outline] at h

theorem cons (hj : Joined fine pieces b) (hp : p.Fit fine) (hm : Meets fine p.source b)
    (hnil : b = [] → ∀ q ∈ pieces, q.source = []) :
    Joined fine (p :: pieces) (p.source ++ b) := by
  refine ⟨hp.closed.append hj.closed hm, ?_, ?_, ?_⟩
  · rintro rfl
    exact (hp.clear rfl).append (hj.clear rfl) hp.closed hm
  · rw [hp.closed.signals_append hm, hj.signals, List.map_cons, List.flatten_cons]
  · rintro rfl hf
    rw [hp.closed.final_append hj.closed hm] at hf
    rw [Piece.lastEndsInReference_cons]
    by_cases hb : b = []
    · rw [if_pos hb] at hf
      rw [if_pos (hnil hb)]
      have hne : p.source ≠ [] := by
        intro h0
        rw [h0, ← closed_nil.final] at hf
        simp [outline] at hf
      simp [hne, hp.final rfl hf]
    · rw [if_neg hb] at hf
      have hlast := hj.final rfl hf
      have hall : ¬ ∀ q ∈ pieces, q.source = [] := by
        intro hall
        have hfind : pieces.reverse.find? (·.source ≠ []) = none := by
          simpa [List.find?_eq_none] using hall
        rw [Piece.lastEndsInReference, hfind] at hlast
        simp at hlast
      rw [if_neg hall]
      exact hlast

theorem silent (hj : Joined fine pieces b) (ha : Silent a) : Joined fine pieces (a ++ b) := by
  have hm : Meets true a b := ha.meets b
  refine ⟨ha.closed.append hj.closed hm, fun hf => ha.clear.append (hj.clear hf) ha.closed hm,
    ?_, fun hf h => ?_⟩
  · rw [ha.closed.signals_append (ha.meets b), ha.signals, List.nil_append, hj.signals]
  · rw [ha.closed.final_append hj.closed hm] at h
    split at h
    · simp [ha.final] at h
    · exact hj.final hf h

theorem events (hj : Joined true pieces b) (h : ∀ p ∈ pieces, p.Fit true) :
    events b = (pieces.map fun p => events p.source).flatten := by
  rw [← hj.closed.events, hj.signals]
  exact congrArg List.flatten (List.map_congr_left fun p hp => (h p hp).closed.events)

theorem present (hj : Joined true pieces b) (h : ∀ p ∈ pieces, p.Fit true)
    (hp : (references b).present) : ∃ p ∈ pieces, (references p.source).present := by
  rw [references_present, hj.events h] at hp
  obtain ⟨e, he, hr⟩ := List.any_eq_true.mp hp
  obtain ⟨es, hes, he⟩ := List.mem_flatten.mp he
  obtain ⟨p, hpiece, rfl⟩ := List.mem_map.mp hes
  exact ⟨p, hpiece, by rw [references_present]; exact List.any_eq_true.mpr ⟨e, he, hr⟩⟩

theorem markerFree (hj : Joined true pieces b) (h : ∀ p ∈ pieces, p.Fit true)
    (hm : ∀ p ∈ pieces, MarkerFree p.source) : MarkerFree b := by
  rw [markerFree_iff, hj.events h]
  intro e he
  obtain ⟨es, hes, he⟩ := List.mem_flatten.mp he
  obtain ⟨p, hp, rfl⟩ := List.mem_map.mp hes
  exact markerFree_iff.mp (hm p hp) e he

end Joined

namespace Piece

theorem meets_sequence {p : Piece} (hp : p.Fit fine) (tail : Text) :
    Meets fine p.source (p.separator tail ++ tail) := by
  intro hf hfinal
  rcases p.separator_cases tail with ⟨hs, hd⟩ | hs
  · rw [hs]
    exact hd (hp.final hf hfinal)
  · rw [hs]
    exact (by decide : Sequel.other ≠ .digit)

theorem joined_sequence (h : ∀ p ∈ pieces, p.Fit fine) : Joined fine pieces (sequence pieces) := by
  induction pieces with
  | nil => exact .nil
  | cons p rest ih =>
    rw [List.forall_mem_cons] at h
    have tail : Joined fine rest (p.separator (sequence rest) ++ sequence rest) := by
      rcases p.separator_cases (sequence rest) with ⟨hs, -⟩ | hs
      · rw [hs]
        exact ih h.2
      · rw [hs]
        exact (ih h.2).silent silent_separator
    rw [sequence_cons]
    refine tail.cons h.1 (meets_sequence h.1 _) fun hnil => sequence_eq_nil ?_
    exact (List.append_eq_nil_iff.mp hnil).2

theorem topBars_sequence (h : ∀ p ∈ pieces, p.Fit fine) :
    topBars (sequence pieces) = (pieces.map fun p => topBars p.source).sum := by
  induction pieces with
  | nil => exact topBars_nil
  | cons p rest ih =>
    rw [List.forall_mem_cons] at h
    have hrest := (joined_sequence h.2).closed
    have tail : topBars (p.separator (sequence rest) ++ sequence rest) = topBars (sequence rest) ∧
        Closed (p.separator (sequence rest) ++ sequence rest) := by
      rcases p.separator_cases (sequence rest) with ⟨hs, -⟩ | hs
      · rw [hs]
        exact ⟨rfl, hrest⟩
      · rw [hs]
        have hm : Meets fine Pattern.emptyGroup (sequence rest) := silent_separator.meets _
        refine ⟨?_, silent_separator.closed.append hrest hm⟩
        rw [silent_separator.closed.topBars_append hrest hm, topBars_separator, Nat.zero_add]
    rw [sequence_cons, h.1.closed.topBars_append tail.2 (meets_sequence h.1 _), tail.1, ih h.2,
      List.map_cons, List.sum_cons]

theorem meets_bar (p : Piece) (tail : Text) : Meets fine p.source (['|'] ++ tail) :=
  fun _ _ => (by decide : Sequel.other ≠ .digit)

theorem joined_alternatives (h : ∀ p ∈ pieces, p.Fit fine) :
    Joined fine pieces (alternatives pieces) := by
  induction pieces with
  | nil => exact .nil
  | cons p rest ih =>
    rw [List.forall_mem_cons] at h
    cases rest with
    | nil =>
      have hone : alternatives [p] = p.source ++ [] := by simp [alternatives]
      rw [hone]
      exact Joined.nil.cons h.1 (fun _ _ => by decide) (by simp)
    | cons q rest =>
      rw [alternatives_cons]
      exact ((ih h.2).silent silent_bar).cons h.1 (meets_bar p _) (by simp)

theorem topBars_alternatives (h : ∀ p ∈ pieces, p.Fit fine) (hne : pieces ≠ []) :
    topBars (alternatives pieces) + 1 =
      pieces.length + (pieces.map fun p => topBars p.source).sum := by
  induction pieces with
  | nil => exact absurd rfl hne
  | cons p rest ih =>
    rw [List.forall_mem_cons] at h
    cases rest with
    | nil => simp [alternatives, Nat.add_comm]
    | cons q rest =>
      have hrest := (joined_alternatives h.2).closed
      have hm : Meets fine ['|'] (alternatives (q :: rest)) := silent_bar.meets _
      have hbar := silent_bar.closed.append hrest hm
      have hp : Meets fine p.source (['|'] ++ alternatives (q :: rest)) := meets_bar p _
      rw [alternatives_cons, h.1.closed.topBars_append hbar hp,
        silent_bar.closed.topBars_append hrest hm, topBars_bar]
      have := ih h.2 (by simp)
      rw [List.map_cons, List.sum_cons, List.length_cons]
      omega

theorem joined_join (h : ∀ p ∈ pieces, p.Fit fine) (alternation : Bool) :
    Joined fine pieces (join alternation pieces) := by
  cases alternation with
  | false => exact joined_sequence h
  | true => exact joined_alternatives h

end Piece

end Splice
