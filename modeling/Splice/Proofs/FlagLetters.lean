import Mathlib
import Splice.Flags

/-!
# Flags are read from their letters in any order

A text is read as a set of flags exactly if it is a permutation of what the set is
written as. A single pass decides this. It remembers which letters it has met, and
sets aside what is no letter and what it meets again, each in the order of the text
(`Flags.Reading.Describes`). A text that holds both is refused for what is no letter.
-/

namespace Splice

variable {t : Text} {c : Char} {f : Flag} {s : Flags}

-- ---------------------------------------------------------------------------
-- Repeated characters
-- ---------------------------------------------------------------------------

namespace Text

def repeats (t : Text) : Text := (t.zipIdx.filter fun p => p.1 ∈ t.take p.2).map Prod.fst

theorem repeats_concat (t : Text) (c : Char) :
    repeats (t ++ [c]) = repeats t ++ if c ∈ t then [c] else [] := by
  have hbefore : t.zipIdx.filter (fun p => p.1 ∈ (t ++ [c]).take p.2) =
      t.zipIdx.filter fun p => p.1 ∈ t.take p.2 := by
    refine List.filter_congr fun p hp => ?_
    have hlt : p.2 < t.length := by simpa using List.snd_lt_add_of_mem_zipIdx hp
    rw [List.take_append_of_le_length hlt.le]
  unfold repeats
  rw [List.zipIdx_append, List.filter_append, hbefore, List.map_append]
  congr 1
  by_cases hc : c ∈ t <;> simp [hc]

theorem mem_of_mem_repeats (h : c ∈ repeats t) : c ∈ t := by
  obtain ⟨p, hp, rfl⟩ := List.mem_map.mp h
  exact List.mem_of_mem_take (of_decide_eq_true (List.mem_filter.mp hp).2)

theorem repeats_eq_nil : repeats t = [] ↔ t.Nodup := by
  induction t using List.reverseRecOn with
  | nil => simp [repeats]
  | append_singleton t c ih =>
    rw [repeats_concat, List.append_eq_nil_iff, ih, List.nodup_append_comm, List.singleton_append,
      List.nodup_cons]
    by_cases hc : c ∈ t <;> simp [hc]

end Text

-- ---------------------------------------------------------------------------
-- Letters of flags
-- ---------------------------------------------------------------------------

namespace Flag

theorem mem_all (f : Flag) : f ∈ Flag.all := by cases f <;> decide

theorem ofLetter?_eq_some : ofLetter? c = some f ↔ f.letter = c := by
  constructor
  · intro h
    unfold ofLetter? at h
    split at h <;> cases h <;> rfl
  · rintro rfl
    exact f.ofLetter_letter

theorem letter_injective : Function.Injective letter := by
  intro f g h
  exact Option.some.inj (ofLetter?_eq_some.mpr h ▸ ofLetter?_eq_some.mpr rfl)

/-- The letters of all flags, in the order in which sets are written. -/
def alphabet : Text := "dgimsuy".toList

theorem alphabet_eq : alphabet = Flag.all.map letter := by decide

theorem mem_alphabet : c ∈ alphabet ↔ ∃ f : Flag, f.letter = c := by
  simp [alphabet_eq, mem_all]

theorem ofLetter?_eq_none : ofLetter? c = none ↔ c ∉ alphabet := by
  rw [mem_alphabet, Option.eq_none_iff_forall_ne_some, not_exists]
  exact forall_congr' fun f => not_congr ofLetter?_eq_some

end Flag

-- ---------------------------------------------------------------------------
-- Sets that are written
-- ---------------------------------------------------------------------------

namespace Flags

open Splice.Flag (alphabet alphabet_eq mem_alphabet letter_injective)

theorem render_sublist (s : Flags) : s.render.Sublist alphabet := by
  rw [alphabet_eq]
  exact List.filter_sublist.map _

theorem nodup_render (s : Flags) : s.render.Nodup :=
  (show alphabet.Nodup by decide).sublist s.render_sublist

theorem render_eq_filter (h : ∀ f, s.has f ↔ f.letter ∈ t) :
    s.render = alphabet.filter (· ∈ t) := by
  rw [alphabet_eq, List.filter_map, render]
  congr 1
  refine List.filter_congr fun f _ => ?_
  rw [Function.comp_apply, Bool.eq_iff_iff, decide_eq_true_iff]
  exact h f

theorem letter_mem_render : f.letter ∈ s.render ↔ s.has f := by
  simp [render, letter_injective.eq_iff, Flag.mem_all]

theorem perm_render_iff :
    t.Perm s.render ↔ t ⊆ alphabet ∧ t.Nodup ∧ ∀ f, s.has f ↔ f.letter ∈ t := by
  constructor
  · intro h
    refine ⟨fun c hc => s.render_sublist.mem (h.mem_iff.mp hc), h.nodup_iff.mpr s.nodup_render,
      fun f => ?_⟩
    rw [h.mem_iff, letter_mem_render]
  · rintro ⟨hletters, hnodup, hs⟩
    refine (List.perm_ext_iff_of_nodup hnodup s.nodup_render).mpr fun c => ?_
    rw [render_eq_filter hs, List.mem_filter, decide_eq_true_iff]
    exact ⟨fun hc => ⟨hletters hc, hc⟩, And.right⟩

-- ---------------------------------------------------------------------------
-- Reading a text
-- ---------------------------------------------------------------------------

/-- The flags are those of the letters met in a text. Its characters that are no letters
and the letters that were met before are set aside. -/
structure Reading.Describes (r : Reading) (t : Text) : Prop where
  flags : ∀ f, r.flags.has f ↔ f.letter ∈ t
  unknown : r.unknown = t.filter (· ∉ alphabet)
  duplicate : r.duplicate = t.repeats.filter (· ∈ alphabet)

namespace Reading

variable {r : Reading}

theorem Describes.next (h : r.Describes t) (c : Char) : (r.next c).Describes (t ++ [c]) := by
  unfold Reading.next
  cases hc : Flag.ofLetter? c with
  | none =>
    have hforeign : c ∉ alphabet := Flag.ofLetter?_eq_none.mp hc
    refine ⟨fun f => ?_, ?_, ?_⟩
    · have hne : f.letter ≠ c := fun hf => hforeign (mem_alphabet.mpr ⟨f, hf⟩)
      simp [h.flags, hne]
    · simp [h.unknown, hforeign]
    · by_cases hm : c ∈ t <;> simp [h.duplicate, Text.repeats_concat, hm, hforeign]
  | some f =>
    obtain rfl : f.letter = c := Flag.ofLetter?_eq_some.mp hc
    have hletter : f.letter ∈ alphabet := mem_alphabet.mpr ⟨f, rfl⟩
    by_cases hmet : r.flags.has f
    · have hm : f.letter ∈ t := (h.flags f).mp hmet
      simp only [hmet, if_true]
      refine ⟨fun g => ?_, ?_, ?_⟩
      · rw [h.flags, List.mem_append, List.mem_singleton]
        exact ⟨.inl, fun hg => hg.elim id fun hg => hg ▸ hm⟩
      · simp [h.unknown, hletter]
      · simp [h.duplicate, Text.repeats_concat, hm, hletter]
    · have hm : f.letter ∉ t := fun hm => hmet ((h.flags f).mpr hm)
      simp only [hmet, Bool.false_eq_true, if_false]
      refine ⟨fun g => ?_, ?_, ?_⟩
      · simp [has_insert, h.flags, letter_injective.eq_iff]
      · simp [h.unknown, hletter]
      · simp [h.duplicate, Text.repeats_concat, hm]

theorem describes_foldl (t : Text) : (t.foldl next start).Describes t := by
  induction t using List.reverseRecOn with
  | nil => exact ⟨fun f => by simp [start, has_empty], rfl, rfl⟩
  | append_singleton t c ih =>
    rw [List.foldl_append]
    exact ih.next c

end Reading

theorem parse_unknown (h : ¬ t ⊆ alphabet) :
    parse t = .error (.unknown (t.filter (· ∉ alphabet))) := by
  have hread := Reading.describes_foldl t
  have hne : t.filter (· ∉ alphabet) ≠ [] := by simpa [List.subset_def] using h
  rw [parse, Reading.finish, hread.unknown, if_pos hne]

theorem parse_letters (h : t ⊆ alphabet) : parse t =
    if t.repeats ≠ [] then .error (.duplicate t.repeats)
    else .ok (ofPred fun f => f.letter ∈ t) := by
  have hread := Reading.describes_foldl t
  have hknown : t.filter (· ∉ alphabet) = [] :=
    List.filter_eq_nil_iff.mpr fun c hc => by simp [h hc]
  have hrepeats : t.repeats.filter (· ∈ alphabet) = t.repeats :=
    List.filter_eq_self.mpr fun c hc => decide_eq_true (h (Text.mem_of_mem_repeats hc))
  have hflags : (t.foldl Reading.next .start).flags = ofPred fun f => f.letter ∈ t := by
    refine ext_has fun f => ?_
    rw [has_ofPred, Bool.eq_iff_iff, decide_eq_true_iff]
    exact hread.flags f
  rw [parse, Reading.finish, hread.unknown, hread.duplicate, hknown, hrepeats, hflags]
  rfl

theorem parse_ok_iff : parse t = .ok s ↔ t.Perm s.render := by
  rw [perm_render_iff]
  by_cases hletters : t ⊆ alphabet
  · rw [parse_letters hletters]
    by_cases hnodup : t.Nodup
    · rw [if_neg (not_not.mpr (Text.repeats_eq_nil.mpr hnodup)), Except.ok.injEq]
      constructor
      · rintro rfl
        exact ⟨hletters, hnodup, fun f => by rw [has_ofPred, decide_eq_true_iff]⟩
      · rintro ⟨-, -, hs⟩
        refine ext_has fun f => ?_
        rw [has_ofPred, Bool.eq_iff_iff, decide_eq_true_iff, hs]
    · rw [if_pos (mt Text.repeats_eq_nil.mp hnodup)]
      exact ⟨fun h => (nomatch h), fun h => absurd h.2.1 hnodup⟩
  · rw [parse_unknown hletters]
    exact ⟨fun h => (nomatch h), fun h => absurd h.1 hletters⟩

theorem parse_duplicate (hletters : t ⊆ alphabet) (h : ∀ s : Flags, ¬ t.Perm s.render) :
    parse t = .error (.duplicate t.repeats) := by
  have hread := parse_letters hletters
  by_cases hrepeats : t.repeats = []
  · rw [if_neg (not_not.mpr hrepeats)] at hread
    exact absurd (parse_ok_iff.mp hread) (h _)
  · rw [hread, if_pos hrepeats]

/-- A text is read as the set of which it is a permutation, whose letters are then those
of the text. Any other text is refused, for all its characters that are no letters or,
if there are none, for each letter that comes again, in the order of the text. -/
theorem parse_permutation (t : Text) :
    (∀ s : Flags, parse t = .ok s ↔ t.Perm s.render) ∧
    (∀ s : Flags, t.Perm s.render → s.render = alphabet.filter (· ∈ t)) ∧
    (¬ t ⊆ alphabet → parse t = .error (.unknown (t.filter (· ∉ alphabet)))) ∧
    (t ⊆ alphabet → (∀ s : Flags, ¬ t.Perm s.render) →
      parse t = .error (.duplicate t.repeats)) := by
  refine ⟨fun s => parse_ok_iff, fun s h => ?_, parse_unknown, parse_duplicate⟩
  exact render_eq_filter (perm_render_iff.mp h).2.2

theorem parse_permutation_unknown :
    let all : Flags := ⟨true, true, true, true, true, true, true⟩
    ("yusmigd".toList.Perm all.render ∧ parse "yusmigd".toList = .ok all ∧
      all.render = "dgimsuy".toList) ∧
    (¬ "imiqzii".toList ⊆ alphabet ∧
      parse "imiqzii".toList = .error (.unknown "qz".toList)) ∧
    "imigmi".toList ⊆ alphabet ∧ (∀ s : Flags, ¬ "imigmi".toList.Perm s.render) ∧
      parse "imigmi".toList = .error (.duplicate "imi".toList) := by
  intro all
  have hall : "yusmigd".toList.Perm all.render := by decide
  have hodd : ¬ "imiqzii".toList ⊆ alphabet := by decide
  have hletters : "imigmi".toList ⊆ alphabet := by decide
  have htwice : ∀ s : Flags, ¬ "imigmi".toList.Perm s.render := by
    intro s h
    exact absurd (perm_render_iff.mp h).2.1 (by decide)
  obtain ⟨hparse, hrender, -⟩ := parse_permutation "yusmigd".toList
  obtain ⟨-, -, hunknown, -⟩ := parse_permutation "imiqzii".toList
  obtain ⟨-, -, -, hduplicate⟩ := parse_permutation "imigmi".toList
  exact ⟨⟨hall, (hparse all).mpr hall, hrender all hall⟩, ⟨hodd, hunknown hodd⟩,
    hletters, htwice, hduplicate hletters htwice⟩

end Flags

end Splice
