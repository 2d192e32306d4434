import Splice.Program.Step
import Splice.Proofs.Assembling

/-!
# The leaves of an assembly

The leaves of an item are the fragments that it is made of, whatever trees they
stand in. Deferred builders are left out: their items appear only once their
steps have run.

A proper leaf is escaped text, or a source of an allowed form with a record
that agrees with it. Proper leaves are sound, once it is known which source
each record stands for.
-/

namespace Splice

open Source

variable {fine : Bool} {s t : Text}

-- ---------------------------------------------------------------------------
-- Leaves
-- ---------------------------------------------------------------------------

mutual
/-- The fragments of an item from left to right, unless it has builders or
cannot be read. -/
def Item.leaves (seen : Bindings) : Item → Option (List Fragment)
  | .literal t => some [.literal t]
  | .pattern p => some [.native p]
  | .fragment f => some [f]
  | .named name => (seen.lookup name).map fun value => [value.toFragment]
  | .tree items => (Item.leavesOf seen items).map List.flatten
  | .deferred .. | .malformed _ => none

def Item.leavesOf (seen : Bindings) : List Item → Option (List (List Fragment))
  | [] => some []
  | item :: rest => (item.leaves seen).bind fun ls => (Item.leavesOf seen rest).map (ls :: ·)
end

def Item.isTree : Item → Bool
  | .tree _ => true
  | _ => false

-- ---------------------------------------------------------------------------
-- Proper leaves
-- ---------------------------------------------------------------------------

namespace Fragment

/-- Escaped text, or a source of an allowed form with a record that agrees with it. -/
def Proper (Allowed : Text → Prop) (archive : Archive) (f : Fragment) : Prop :=
  match f.origin with
  | .literal => ∃ t, f.source = ofLiteral t
  | .native p => Allowed f.source ∧ (archive.analysis p.number).Honest f.source
  | .composite _ a => Allowed f.source ∧ a.Honest f.source

/-- The number of the record that a native fragment shares with its pattern. -/
def record? (f : Fragment) : Option Nat :=
  match f.origin with
  | .native p => some p.number
  | _ => none

/-- Fragments of which those that share a record share the source as well, as
fragments of one pattern do. -/
def Sharing (fs : List Fragment) : Prop :=
  ∀ f ∈ fs, ∀ g ∈ fs, f.record?.isSome → f.record? = g.record? → f.source = g.source

instance (fs : List Fragment) : Decidable (Sharing fs) :=
  inferInstanceAs (Decidable (∀ f ∈ fs, ∀ g ∈ fs, _ → _ → _))

def catalogue (fs : List Fragment) : Catalogue where
  source? n := (fs.find? fun f => f.record? = some n).map source
  size := 0

end Fragment

-- ---------------------------------------------------------------------------
-- Escaped text
-- ---------------------------------------------------------------------------

theorem scan_meta {c : Char} (hc : c ∈ metaCharacters) (t : Text) :
    Lexer.scan .pattern '\\' (c :: t) = (.escape (.char c), 1) := by
  have hmeta : ∀ x ∈ metaCharacters, x.isDigit = false ∧ x ∉ "dDsSwWkuxcpP".toList :=
    Lexer.forall_mem_of_all (by decide)
  obtain ⟨hd, hm⟩ := hmeta c hc
  have he : Lexer.scanEscape c t = (.char c, 1) := by
    simp only [Lexer.scanEscape, hd]
    split <;> simp_all
  rw [Lexer.scan_escape, he]

theorem scan_ofChar (c : Char) : ∃ a r k, ofChar c = a :: r ∧ k.isPlain ∧
    ∀ t, Lexer.scan .pattern a (r ++ t) = (k, r.length) := by
  unfold ofChar
  split
  · rename_i hc
    have hc : c ∈ metaCharacters := by simpa using hc
    have hplain : TokenKind.isPlain (.escape (.char c)) := by
      have : ∀ x ∈ metaCharacters, (x != 'k') = true := Lexer.forall_mem_of_all (by decide)
      exact this c hc
    exact ⟨'\\', [c], _, rfl, hplain, scan_meta hc⟩
  · rename_i hc
    have hsub : ∀ x ∈ "\\()[]\x7b|".toList, x ∈ metaCharacters :=
      Lexer.forall_mem_of_all (by decide)
    have hflat : Lexer.isFlat c := by
      simp only [Lexer.isFlat, Bool.not_eq_true', List.contains_eq_mem, decide_eq_false_iff_not]
      exact fun hm => hc (by simpa using hsub c hm)
    obtain ⟨k, hk, hs⟩ := Lexer.scan_flat hflat
    exact ⟨c, [], k, rfl, hk, hs⟩

theorem outline_ofLiteral (fine : Bool) (t : Text) : outline fine (ofLiteral t) = [] := by
  rw [outline]
  induction t with
  | nil => exact Lexer.outlineAt_nil
  | cons c t ih =>
    obtain ⟨a, r, k, hc, hk, hs⟩ := scan_ofChar c
    have hcons : ofLiteral (c :: t) = a :: (r ++ ofLiteral t) := congrArg (· ++ ofLiteral t) hc
    rw [hcons, Lexer.outlineAt_plain (hs _) hk, List.drop_left, ih]

theorem lex_ofLiteral (t : Text) : (lex (ofLiteral t)).map Token.text = t.map ofChar := by
  rw [lex]
  induction t with
  | nil => rw [ofLiteral, List.flatMap_nil, Lexer.lexFrom_nil]; rfl
  | cons c t ih =>
    obtain ⟨a, r, k, hc, hk, hs⟩ := scan_ofChar c
    have hcons : ofLiteral (c :: t) = a :: (r ++ ofLiteral t) := congrArg (· ++ ofLiteral t) hc
    rw [hcons, Lexer.lexFrom_cons, hs, Lexer.contextAfter_of_isPlain hk, List.drop_left,
      List.map_cons, ih, List.take_left, List.map_cons, hc]

theorem closed_ofLiteral (t : Text) : Closed (ofLiteral t) :=
  (closed_iff false).mpr (by rw [outline_ofLiteral]; rfl)

theorem clear_ofLiteral (t : Text) : Clear (ofLiteral t) :=
  clear_iff.mpr (by simp [outline_ofLiteral])

theorem captureCount_ofLiteral (t : Text) : captureCount (ofLiteral t) = 0 := by
  rw [← (closed_ofLiteral t).captures false, signals, outline_ofLiteral]
  rfl

theorem alternates_ofLiteral (t : Text) : alternates (ofLiteral t) = false := by
  rw [alternates_eq, ← (closed_ofLiteral t).bars false, outline_ofLiteral]
  rfl

theorem reports_ofLiteral {α : Type} (p : Property α) (t : Text) :
    p.Reports fine (p.ofLiteral (ofLiteral t)) (ofLiteral t) := by
  have hc := closed_ofLiteral t
  cases p with
  | captures => exact (captureCount_ofLiteral t).symm
  | references =>
    rintro -
    refine ⟨fun h => ?_, fun h => ?_⟩
    · rw [references_present, ← hc.events, signals, outline_ofLiteral] at h
      simp at h
    · rw [← hc.final, outline_ofLiteral] at h
      simp at h
  | alternates => exact (alternates_ofLiteral t).symm
  | singleGroup => rfl

-- ---------------------------------------------------------------------------
-- Proper leaves are sound
-- ---------------------------------------------------------------------------

namespace Fragment

variable {Allowed : Text → Prop} {archive : Archive} {fs : List Fragment}

theorem record?_eq_some {f : Fragment} {n : Nat} (h : f.record? = some n) :
    ∃ p, f.origin = .native p ∧ p.number = n := by
  unfold record? at h
  split at h
  · rename_i p ho
    exact ⟨p, ho, Option.some.inj h⟩
  · simp at h

theorem catalogue_eq_some {n : Nat} (h : (catalogue fs).source? n = some s) :
    ∃ f ∈ fs, f.record? = some n ∧ f.source = s := by
  simp only [catalogue, Option.map_eq_some_iff] at h
  obtain ⟨f, hf, rfl⟩ := h
  exact ⟨f, List.mem_of_find?_eq_some hf, by simpa using List.find?_some hf, rfl⟩

theorem catalogue_of_mem (hs : Sharing fs) {f : Fragment} (hf : f ∈ fs) {n : Nat}
    (hn : f.record? = some n) :
    (catalogue fs).source? n = some f.source := by
  cases hc : (catalogue fs).source? n with
  | none =>
    simp only [catalogue, Option.map_eq_none_iff, List.find?_eq_none] at hc
    exact absurd (by simp [hn]) (hc f hf)
  | some s =>
    obtain ⟨g, hg, hgn, rfl⟩ := catalogue_eq_some hc
    rw [hs g hg f hf (by simp [hgn]) (hgn.trans hn.symm)]

theorem catalogue_reports (h : ∀ f ∈ fs, f.Proper Allowed archive) :
    archive.Reports fine (catalogue fs) := by
  refine ⟨Nat.zero_le _, fun n s hn => ?_⟩
  obtain ⟨f, hf, hr, rfl⟩ := catalogue_eq_some hn
  obtain ⟨p, ho, rfl⟩ := record?_eq_some hr
  have hp := h f hf
  simp only [Proper, ho] at hp
  exact hp.2.reports fine

theorem Proper.sound {f : Fragment} (hp : f.Proper Allowed archive)
    (ha : ∀ s, Allowed s → Closed s ∧ (fine → Clear s)) (hs : Sharing fs) (hf : f ∈ fs) :
    f.Sound fine (catalogue fs) := by
  unfold Proper at hp
  cases ho : f.origin with
  | native p =>
    rw [ho] at hp
    have hclosed := ha _ hp.1
    have hanswers : ∀ {α : Type} (q : Property α), f.Answers fine (catalogue fs) q := by
      intro α q
      simp only [Answers, ho]
      exact ⟨f.source, catalogue_of_mem hs hf (by rw [record?, ho]), q.agrees_refl _⟩
    exact ⟨hclosed.1, hclosed.2, hanswers _, hanswers _, hanswers _⟩
  | literal =>
    rw [ho] at hp
    obtain ⟨t, ht⟩ := hp
    have hanswers : ∀ {α : Type} (q : Property α), f.Answers fine (catalogue fs) q := by
      intro α q
      simp only [Answers, ho, ht]
      exact reports_ofLiteral q t
    exact ⟨ht ▸ closed_ofLiteral t, fun _ => ht ▸ clear_ofLiteral t, hanswers _, hanswers _,
      hanswers _⟩
  | composite traits a =>
    rw [ho] at hp
    have hclosed := ha _ hp.1
    have hanswers : ∀ {α : Type} (q : Property α), f.Answers fine (catalogue fs) q := by
      intro α q
      simp only [Answers, ho]
      exact hp.2.reports fine _ q
    exact ⟨hclosed.1, hclosed.2, hanswers _, hanswers _, hanswers _⟩

theorem proper_of_honest {f : Fragment} (hl : f.isLiteral = false) (hs : Allowed f.source)
    (h : (f.analysis archive).Honest f.source) : f.Proper Allowed archive := by
  unfold isLiteral at hl
  unfold analysis at h
  unfold Proper
  cases ho : f.origin with
  | native p => exact ⟨hs, by simpa [ho] using h⟩
  | literal => simp [ho] at hl
  | composite traits a => exact ⟨hs, by simpa [ho] using h⟩

theorem Proper.mono {Wider : Text → Prop} {f : Fragment} (hp : f.Proper Allowed archive)
    (h : ∀ s, Allowed s → Wider s) : f.Proper Wider archive := by
  unfold Proper at hp ⊢
  split at hp
  · exact hp
  · exact ⟨h _ hp.1, hp.2⟩
  · exact ⟨h _ hp.1, hp.2⟩

theorem sound_of_proper (hp : ∀ f ∈ fs, f.Proper Allowed archive)
    (ha : ∀ s, Allowed s → Closed s ∧ (fine → Clear s)) (hs : Sharing fs) :
    archive.Reports fine (catalogue fs) ∧ ∀ f ∈ fs, f.Sound fine (catalogue fs) :=
  ⟨catalogue_reports hp, fun f hf => (hp f hf).sound ha hs hf⟩

theorem events_ofLiteral (t : Text) : events (ofLiteral t) = [] := by
  rw [← (closed_ofLiteral t).events, Source.signals, outline_ofLiteral]
  rfl

theorem Proper.markerFree {f : Fragment} (hp : f.Proper Allowed archive)
    (ha : ∀ s, Allowed s → MarkerFree s) : MarkerFree f.source := by
  unfold Proper at hp
  split at hp
  · obtain ⟨t, ht⟩ := hp
    rw [ht, markerFree_iff, events_ofLiteral]
    simp
  · exact ha _ hp.1
  · exact ha _ hp.1

end Fragment

end Splice
