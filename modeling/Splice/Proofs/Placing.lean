import Splice.Proofs.Shape

/-!
# Events behind other groups

A source that is placed behind other groups shows the same captures and its
references raised by the number of these groups. Its markers come one assembly
nearer to the pattern that they refer to; those that arrive there are not
raised. Placing lists of events that hold no markers in several steps comes to
the same as placing them at once.
-/

namespace Splice.Event

variable {a b : Nat} {e : Event}

def shift (offset : Nat) : Event → Event
  | .capture => .capture
  | .reference n => .reference (n + offset)
  | .deferred ⟨0, index⟩ => .reference index
  | .deferred ⟨depth + 1, index⟩ => .deferred ⟨depth, index⟩

/-- Events one behind the other, each list behind the captures of the ones before. -/
def place : Nat → List (List Event) → List Event
  | _, [] => []
  | count, es :: rest => es.map (shift count) ++ place (count + captures es) rest

theorem captures_shift (offset : Nat) (events : List Event) :
    captures (events.map (shift offset)) = captures events := by
  unfold captures
  rw [List.count_eq_countP, List.count_eq_countP, List.countP_map]
  refine List.countP_congr fun e _ => ?_
  match e with
  | .capture => rfl
  | .reference n => simp [shift]
  | .deferred ⟨0, i⟩ => simp [shift]
  | .deferred ⟨d + 1, i⟩ => simp [shift]

theorem isReference_shift (offset : Nat) (e : Event) :
    (e.shift offset).isReference = e.isReference := by
  match e with
  | .capture | .reference n | .deferred ⟨0, i⟩ | .deferred ⟨d + 1, i⟩ => rfl

theorem countP_isReference_shift (offset : Nat) (events : List Event) :
    (events.map (shift offset)).countP isReference = events.countP isReference := by
  rw [List.countP_map]
  exact List.countP_congr fun e _ => by rw [Function.comp_apply, isReference_shift]

theorem captures_place (count : Nat) (lists : List (List Event)) :
    captures (place count lists) = (lists.map captures).sum := by
  induction lists generalizing count with
  | nil => rfl
  | cons es rest ih => rw [place, captures_append, captures_shift, ih, List.map_cons, List.sum_cons]

theorem place_append (count : Nat) (first second : List (List Event)) :
    place count (first ++ second) =
      place count first ++ place (count + (first.map captures).sum) second := by
  induction first generalizing count with
  | nil => rfl
  | cons es rest ih =>
    rw [List.cons_append, place, ih, place, List.append_assoc, List.map_cons, List.sum_cons,
      Nat.add_assoc]

-- ---------------------------------------------------------------------------
-- Without markers
-- ---------------------------------------------------------------------------

theorem isDeferred_shift (h : e.isDeferred = false) : (e.shift a).isDeferred = false := by
  cases e with
  | capture | reference => rfl
  | deferred m => simp [isDeferred] at h

theorem isDeferred_place {lists : List (List Event)}
    (h : ∀ es ∈ lists, ∀ e ∈ es, e.isDeferred = false) :
    ∀ e ∈ place a lists, e.isDeferred = false := by
  induction lists generalizing a with
  | nil => simp [place]
  | cons es rest ih =>
    rw [List.forall_mem_cons] at h
    rw [place, List.forall_mem_append, List.forall_mem_map]
    exact ⟨fun e he => isDeferred_shift (h.1 e he), ih h.2⟩

theorem shift_shift (h : e.isDeferred = false) : (e.shift a).shift b = e.shift (a + b) := by
  cases e with
  | capture => rfl
  | reference n => simp [shift, Nat.add_assoc]
  | deferred m => simp [isDeferred] at h

theorem shift_zero (h : e.isDeferred = false) : e.shift 0 = e := by
  cases e with
  | capture | reference => rfl
  | deferred m => simp [isDeferred] at h

theorem map_shift_place {lists : List (List Event)}
    (h : ∀ es ∈ lists, ∀ e ∈ es, e.isDeferred = false) :
    (place a lists).map (shift b) = place (a + b) lists := by
  induction lists generalizing a with
  | nil => rfl
  | cons es rest ih =>
    rw [List.forall_mem_cons] at h
    have hes : (es.map (shift a)).map (shift b) = es.map (shift (a + b)) := by
      rw [List.map_map]
      exact List.map_congr_left fun e he => shift_shift (h.1 e he)
    rw [place, List.map_append, hes, ih h.2, place, Nat.add_right_comm]

theorem place_place {groups : List (List (List Event))}
    (h : ∀ g ∈ groups, ∀ es ∈ g, ∀ e ∈ es, e.isDeferred = false) :
    place a (groups.map (place 0)) = place a groups.flatten := by
  induction groups generalizing a with
  | nil => rfl
  | cons g rest ih =>
    rw [List.forall_mem_cons] at h
    rw [List.map_cons, place, map_shift_place h.1, Nat.zero_add, captures_place, ih h.2,
      List.flatten_cons, place_append]

theorem place_singleton {es : List Event} (h : ∀ e ∈ es, e.isDeferred = false) :
    place 0 [es] = es := by
  rw [place, place, List.append_nil]
  exact (List.map_congr_left fun e he => shift_zero (h e he)).trans (List.map_id _)

theorem countP_isReference_place (count : Nat) (lists : List (List Event)) :
    (place count lists).countP isReference = (lists.map (List.countP isReference)).sum := by
  induction lists generalizing count with
  | nil => rfl
  | cons es rest ih =>
    rw [place, List.countP_append, countP_isReference_shift, ih, List.map_cons, List.sum_cons]

-- ---------------------------------------------------------------------------
-- One marker in many assemblies
-- ---------------------------------------------------------------------------

def moved (rises : List Nat) (e : Event) : Event := rises.foldl (fun e rise => e.shift rise) e

theorem moved_reference (rises : List Nat) (n : Nat) :
    moved rises (.reference n) = .reference (n + rises.sum) := by
  induction rises generalizing n with
  | nil => rfl
  | cons rise rest ih =>
    rw [List.sum_cons, ← Nat.add_assoc]
    exact ih (n + rise)

theorem moved_pending {rises : List Nat} {m : Marker} (h : rises.length ≤ m.depth) :
    moved rises (.deferred m) = .deferred ⟨m.depth - rises.length, m.index⟩ := by
  induction rises generalizing m with
  | nil => rfl
  | cons rise rest ih =>
    obtain ⟨_ | depth, index⟩ := m
    · simp at h
    · have hrest : rest.length ≤ depth := by simpa using h
      refine (ih hrest).trans ?_
      simp

/-- A marker skips the move that resolves it and takes every later one. -/
theorem moved_resolved {rises : List Nat} {m : Marker} (h : m.depth < rises.length) :
    moved rises (.deferred m) = .reference (m.index + (rises.drop (m.depth + 1)).sum) := by
  induction rises generalizing m with
  | nil => simp at h
  | cons rise rest ih =>
    obtain ⟨_ | depth, index⟩ := m
    · exact moved_reference rest index
    · exact ih (m := ⟨depth, index⟩) (by simpa using h)

end Splice.Event
