import Splice.Proofs.Moving

/-!
# Joining in stages

It does not matter whether some pieces are joined with others at once, or first
with each other and then, as one piece, with the others.
-/

namespace Splice

open Source

variable {j k l i offset : Word} {s t u : Text}

-- ---------------------------------------------------------------------------
-- Pieces in a row
-- ---------------------------------------------------------------------------

namespace Piece

variable {pieces inner rest : List Piece}

def joined (pieces : List Piece) : Piece := ⟨sequence pieces, lastEndsInReference pieces⟩

/-- A piece that a reference ends has a source. -/
def Solid (p : Piece) : Prop := p.source = [] → p.endsInReference = false

theorem separator_congr {p q : Piece} (he : p.endsInReference = q.endsInReference)
    (hd : s.head?.any Char.isDigit = t.head?.any Char.isDigit) :
    p.separator s = q.separator t := by simp [separator, he, hd]

theorem separator_of_solid {p : Piece} (h : p.Solid) (hp : p.source = []) (tail : Text) :
    p.separator tail = [] := by simp [separator, h hp]

theorem sequence_of_empty (h : ∀ p ∈ pieces, p.Solid) (he : ∀ p ∈ pieces, p.source = []) :
    sequence pieces = [] := by
  induction pieces with
  | nil => rfl
  | cons p rest ih =>
    rw [List.forall_mem_cons] at h he
    rw [sequence_cons, he.1, separator_of_solid h.1 he.1, ih h.2 he.2]
    rfl

theorem lastEndsInReference_of_empty (he : ∀ p ∈ pieces, p.source = []) :
    lastEndsInReference pieces = false := by
  have hnone : pieces.reverse.find? (·.source ≠ []) = none := by
    simpa [List.find?_eq_none] using he
  rw [lastEndsInReference, hnone]
  rfl

theorem joined_solid (pieces : List Piece) : (joined pieces).Solid := fun h =>
  lastEndsInReference_of_empty (sequence_eq_nil h)

theorem sequence_joined (h : ∀ p ∈ inner, p.Solid) (rest : List Piece) :
    sequence (inner ++ rest) = sequence (joined inner :: rest) := by
  induction inner with
  | nil =>
    rw [List.nil_append, sequence_cons]
    simp [joined, sequence, separator, lastEndsInReference]
  | cons p inner ih =>
    rw [List.forall_mem_cons] at h
    rw [List.cons_append, sequence_cons, ih h.2, sequence_cons, sequence_cons]
    show _ = sequence (p :: inner) ++ _
    rw [sequence_cons]
    by_cases he : ∀ q ∈ inner, q.source = []
    · have hnil : sequence inner = [] := sequence_of_empty h.2 he
      have hlast : (joined (p :: inner)).endsInReference = p.endsInReference := by
        show lastEndsInReference (p :: inner) = _
        rw [lastEndsInReference_cons, if_pos he]
        by_cases hp : p.source = []
        · simp [hp, h.1 hp]
        · simp [hp]
      have hnone : (joined inner).separator (sequence rest) = [] :=
        separator_of_solid (joined_solid inner) hnil _
      have hend : p.separator [] = [] := by simp [separator]
      have hsource : (joined inner).source = [] := hnil
      rw [hnone, hsource, hnil, hend, separator_congr hlast rfl]
      simp
    · have hne : sequence inner ≠ [] := fun h => he (sequence_eq_nil h)
      have hlast : (joined (p :: inner)).endsInReference = (joined inner).endsInReference := by
        show lastEndsInReference (p :: inner) = _
        rw [lastEndsInReference_cons, if_neg he]
        rfl
      have hsource : (joined inner).source = sequence inner := rfl
      have hhead : ∀ tail, (sequence inner ++ tail).head? = (sequence inner).head? := fun tail => by
        rw [List.head?_append_of_ne_nil _ hne]
      rw [hsource, separator_congr rfl (congrArg _ (hhead _)), separator_congr hlast rfl]
      simp

theorem lastEndsInReference_append (front rest : List Piece) :
    lastEndsInReference (front ++ rest) =
      if ∀ q ∈ rest, q.source = [] then lastEndsInReference front
      else lastEndsInReference rest := by
  induction front with
  | nil =>
    split
    · rename_i he
      exact lastEndsInReference_of_empty he
    · rfl
  | cons p front ih =>
    rw [List.cons_append, lastEndsInReference_cons, lastEndsInReference_cons, ih]
    simp only [List.forall_mem_append]
    split_ifs <;> first
      | rfl
      | tauto

theorem lastEndsInReference_joined (inner rest : List Piece) :
    lastEndsInReference (inner ++ rest) = lastEndsInReference (joined inner :: rest) := by
  rw [lastEndsInReference_append, lastEndsInReference_cons]
  split
  · by_cases hnil : sequence inner = []
    · simp [joined, lastEndsInReference_of_empty (sequence_eq_nil hnil)]
    · simp [joined, hnil]
  · rfl

-- ---------------------------------------------------------------------------
-- Pieces that are moved
-- ---------------------------------------------------------------------------

structure Moves (offset : Word) (p q : Piece) : Prop where
  source : renumber p.source offset = .ok q.source
  endsInReference : q.endsInReference = p.endsInReference

theorem renumber_emptyGroup (offset : Word) :
    renumber Pattern.emptyGroup offset = .ok Pattern.emptyGroup :=
  renumber_of_absent (by decide +kernel) offset

theorem renumber_separated (p : Piece) :
    renumber (p.separator s ++ s) offset = .ok u ↔
      ∃ t, renumber s offset = .ok t ∧ u = p.separator s ++ t := by
  rcases p.separator_cases s with ⟨hs, -⟩ | hs
  · simp [hs]
  · rw [hs, renumber_append_ok silent_separator.closed (silent_separator.meets s)]
    simp [renumber_emptyGroup]

theorem renumber_sequence (h : ∀ p ∈ pieces, p.Fit true) :
    renumber (sequence pieces) offset = .ok u ↔
      ∃ moved, List.Forall₂ (Moves offset) pieces moved ∧ u = sequence moved := by
  induction pieces generalizing u with
  | nil =>
    rw [renumber_eq, show lex (sequence []) = [] from Lexer.lexFrom_nil _, renumberTokens_nil_ok]
    simp [sequence]
  | cons p rest ih =>
    rw [List.forall_mem_cons] at h
    have hclosed := (joined_sequence h.2).closed
    rw [sequence_cons, renumber_append_ok h.1.closed (meets_sequence h.1 _)]
    simp only [renumber_separated, ih h.2, List.forall₂_cons_left_iff]
    constructor
    · rintro ⟨x, _, hx, ⟨t, ⟨moved, hmoved, rfl⟩, rfl⟩, rfl⟩
      have hdigit := hclosed.digit_renumber ((ih h.2).mpr ⟨moved, hmoved, rfl⟩)
      have hsep : separator ⟨x, p.endsInReference⟩ (sequence moved) = p.separator (sequence rest) :=
        separator_congr rfl hdigit
      refine ⟨_, ⟨⟨x, p.endsInReference⟩, moved, ⟨hx, rfl⟩, hmoved, rfl⟩, ?_⟩
      rw [sequence_cons, hsep]
    · rintro ⟨_, ⟨q, moved, hq, hmoved, rfl⟩, rfl⟩
      have hrest := (ih h.2).mpr ⟨moved, hmoved, rfl⟩
      have hdigit := hclosed.digit_renumber hrest
      refine ⟨_, _, hq.source, ⟨_, ⟨moved, hmoved, rfl⟩, rfl⟩, ?_⟩
      rw [sequence_cons, separator_congr hq.endsInReference hdigit]

variable {moved : List Piece}

theorem empty_moves (hc : ∀ p ∈ pieces, Closed p.source)
    (h : List.Forall₂ (Moves offset) pieces moved) :
    (∀ q ∈ moved, q.source = []) ↔ ∀ p ∈ pieces, p.source = [] := by
  induction h with
  | nil => simp
  | cons hq _ ih =>
    rw [List.forall_mem_cons] at hc
    rw [List.forall_mem_cons, List.forall_mem_cons, ih hc.2, hc.1.renumber_eq_nil hq.source]

theorem lastEndsInReference_moves (hc : ∀ p ∈ pieces, Closed p.source)
    (h : List.Forall₂ (Moves offset) pieces moved) :
    lastEndsInReference moved = lastEndsInReference pieces := by
  induction h with
  | nil => rfl
  | cons hq hrest ih =>
    rw [List.forall_mem_cons] at hc
    simp only [lastEndsInReference_cons, empty_moves hc.2 hrest, ih hc.2, hq.endsInReference,
      ne_eq, hc.1.renumber_eq_nil hq.source]

end Piece

-- ---------------------------------------------------------------------------
-- Entries in a row
-- ---------------------------------------------------------------------------

namespace Numbered

def append (a b : Numbered) : Numbered :=
  ⟨a.pieces ++ b.pieces, a.captures + b.captures, a.hasReferences || b.hasReferences⟩

/-- Some pieces in sequence, as one member of another sequence. `directed` says
that it counts as holding references in any case. -/
def entry (directed : Bool) (n : Numbered) : Entry :=
  ⟨Piece.sequence n.pieces, ⟨directed || n.hasReferences, Piece.lastEndsInReference n.pieces⟩⟩

end Numbered

namespace Entry

variable {es xs ys : List Entry} {n m : Numbered} {d : Bool}

theorem numberAll_append_ok : numberAll k (xs ++ ys) = .ok n ↔ ∃ a i b, numberAll k xs = .ok a ∧
    i.toNat = k.toNat + a.captures ∧ numberAll i ys = .ok b ∧ n = a.append b := by
  induction xs generalizing k n with
  | nil =>
    have hempty : ∀ b, Numbered.append ⟨[], 0, false⟩ b = b := fun b => by simp [Numbered.append]
    simp [numberAll, pure, Except.pure, hempty, UInt32.toNat_inj, eq_comm]
  | cons e xs ih =>
    simp only [List.cons_append, numberAll_cons_ok, ih]
    constructor
    · rintro ⟨source, behind, _, hs, hbehind, ⟨a, i, b, ha, hi, hb, rfl⟩, rfl⟩
      rw [hbehind, Nat.add_assoc] at hi
      refine ⟨_, i, b, ⟨source, behind, a, hs, hbehind, ha, rfl⟩, hi, hb, ?_⟩
      simp [Numbered.append, Nat.add_assoc, Bool.or_assoc]
    · rintro ⟨_, i, b, ⟨source, behind, a, hs, hbehind, ha, rfl⟩, hi, hb, rfl⟩
      rw [← Nat.add_assoc, ← hbehind] at hi
      refine ⟨source, behind, _, hs, hbehind, ⟨a, i, b, ha, hi, hb, rfl⟩, ?_⟩
      simp [Numbered.append, Nat.add_assoc, Bool.or_assoc]

theorem numberAll_fits (hn : numberAll k es = .ok n) : k.toNat + n.captures < wordLimit := by
  induction es generalizing k n with
  | nil =>
    obtain rfl := Except.ok.inj hn
    exact k.toNat_lt
  | cons e es ih =>
    obtain ⟨_, behind, others, -, hbehind, hothers, rfl⟩ := numberAll_cons_ok.mp hn
    have hfits := ih hothers
    simp only
    omega

/-- An entry without markers that can be moved, and says so if it holds a reference. -/
structure Movable (e : Entry) : Prop where
  closed : Closed e.source
  markerFree : MarkerFree e.source
  covers : e.references.Covers (Source.references e.source)

/-- A movable entry that is ended by a reference only if it has a source. -/
structure Firm (e : Entry) : Prop extends e.Movable where
  solid : e.source = [] → e.references.final = false

structure Fits (n : Numbered) : Prop where
  fit : ∀ p ∈ n.pieces, p.Fit true
  markerFree : ∀ p ∈ n.pieces, MarkerFree p.source
  captures : n.captures = (n.pieces.map fun p => captureCount p.source).sum
  present : ∀ p ∈ n.pieces, (Source.references p.source).present → n.hasReferences

structure Firms (n : Numbered) : Prop extends Fits n where
  solid : ∀ p ∈ n.pieces, p.Solid

theorem fits_of_numberAll (h : ∀ e ∈ es, e.Movable) (hn : numberAll k es = .ok n) : Fits n := by
  induction es generalizing k n with
  | nil =>
    obtain rfl := Except.ok.inj hn
    exact ⟨by simp, by simp, rfl, by simp⟩
  | cons e es ih =>
    rw [List.forall_mem_cons] at h
    obtain ⟨he, hes⟩ := h
    obtain ⟨source, _, others, hs, -, hothers, rfl⟩ := numberAll_cons_ok.mp hn
    have hrest := ih hes hothers
    have hmarker := he.markerFree.renumber hs
    have hcovers : e.references.Covers (Source.references source) := by
      rw [he.markerFree.references_renumber hs]
      exact he.covers
    refine ⟨List.forall_mem_cons.mpr ⟨?_, hrest.fit⟩,
      List.forall_mem_cons.mpr ⟨hmarker, hrest.markerFree⟩, ?_,
      List.forall_mem_cons.mpr ⟨fun hp => ?_, fun p hp hr => ?_⟩⟩
    · exact ⟨he.closed.renumbered hs, fun _ => hmarker.clear, fun _ => hcovers.2⟩
    · rw [List.map_cons, List.sum_cons, ← hrest.captures, he.closed.captures_renumber hs]
    · simp [hcovers.1 hp]
    · simp [hrest.present p hp hr]

theorem firms_of_numberAll (h : ∀ e ∈ es, e.Firm) (hn : numberAll k es = .ok n) : Firms n := by
  refine ⟨fits_of_numberAll (fun e he => (h e he).toMovable) hn, ?_⟩
  induction es generalizing k n with
  | nil =>
    obtain rfl := Except.ok.inj hn
    simp
  | cons e es ih =>
    rw [List.forall_mem_cons] at h
    obtain ⟨source, _, others, hs, -, hothers, rfl⟩ := numberAll_cons_ok.mp hn
    exact List.forall_mem_cons.mpr
      ⟨fun hnil => h.1.solid ((h.1.closed.renumber_eq_nil hs).mp hnil), ih h.2 hothers⟩

theorem Fits.entry (h : Fits n) (directed : Bool) : (n.entry directed).Movable := by
  have hj := Piece.joined_sequence h.fit
  refine ⟨hj.closed, hj.markerFree h.fit h.markerFree, fun hp => ?_, hj.final rfl⟩
  obtain ⟨p, hpiece, hr⟩ := hj.present h.fit hp
  simp [Numbered.entry, h.present p hpiece hr]

theorem Firms.entry (h : Firms n) (directed : Bool) : (n.entry directed).Firm :=
  ⟨h.toFits.entry directed, fun hnil => Piece.joined_solid n.pieces hnil⟩

/-- Numbering further on is numbering and moving, as far as the groups fit a word. -/
theorem numberAll_add (h : ∀ e ∈ es, e.Movable) (hl : l.toNat = k.toNat + j.toNat) :
    numberAll l es = .ok m ↔ ∃ n, numberAll k es = .ok n ∧
      List.Forall₂ (Piece.Moves j) n.pieces m.pieces ∧ m.captures = n.captures ∧
        m.hasReferences = n.hasReferences ∧ l.toNat + n.captures < wordLimit := by
  induction es generalizing k l m with
  | nil =>
    obtain ⟨pieces, captures, hasReferences⟩ := m
    simp [numberAll, pure, Except.pure, l.toNat_lt, eq_comm]
  | cons e es ih =>
    rw [List.forall_mem_cons] at h
    obtain ⟨he, hes⟩ := h
    simp only [numberAll_cons_ok]
    constructor
    · rintro ⟨source, behind, others, hs, hbehind, hothers, rfl⟩
      obtain ⟨t, ht⟩ := renumber_le he.markerFree hs (k := k) (by omega)
      have hmove : renumber t j = .ok source :=
        (renumber_renumber he.markerFree ht hl).trans hs
      have hlt := behind.toNat_lt
      obtain ⟨i, hi⟩ := Word.exists_toNat (n := k.toNat + captureCount e.source) (by omega)
      obtain ⟨n, hn, hmoves, hcaptures, hhas, hfits⟩ :=
        (ih hes (k := i) (l := behind) (by omega)).mp hothers
      refine ⟨_, ⟨t, i, n, ht, hi, hn, rfl⟩, .cons ⟨hmove, rfl⟩ hmoves, ?_, ?_, ?_⟩
      · simp only [hcaptures]
      · simp only [hhas]
      · simp only
        omega
    · rintro ⟨_, ⟨t, i, n, ht, hi, hn, rfl⟩, hmoves, hcaptures, hhas, hfits⟩
      obtain ⟨pieces, captures, hasReferences⟩ := m
      obtain ⟨⟨source, final⟩, rest, hq, hrest, rfl⟩ := List.forall₂_cons_left_iff.mp hmoves
      obtain rfl : final = e.references.final := hq.endsInReference
      obtain rfl : captures = _ := hcaptures
      obtain rfl : hasReferences = _ := hhas
      have hs := (renumber_renumber he.markerFree ht hl).symm.trans hq.source
      simp only at hfits
      obtain ⟨behind, hbehind⟩ :=
        Word.exists_toNat (n := l.toNat + captureCount e.source) (by omega)
      have hothers := (ih hes (k := i) (l := behind) (by omega)
        (m := ⟨rest, n.captures, n.hasReferences⟩)).mpr ⟨n, hn, hrest, rfl, rfl, by omega⟩
      exact ⟨source, behind, ⟨rest, n.captures, n.hasReferences⟩, hs, hbehind, hothers, rfl⟩

theorem numberAll_behind (h : ∀ e ∈ es, e.Movable) : numberAll k es = .ok m ↔
    ∃ n, numberAll 0 es = .ok n ∧ List.Forall₂ (Piece.Moves k) n.pieces m.pieces ∧
      m.captures = n.captures ∧ m.hasReferences = n.hasReferences ∧
        k.toNat + n.captures < wordLimit :=
  numberAll_add h (Nat.zero_add k.toNat).symm

theorem captureCount_join (h : Fits n) (alternation : Bool) :
    captureCount (Piece.join alternation n.pieces) = n.captures := by
  have hj := Piece.joined_join h.fit alternation
  rw [h.captures, ← captures_flatten n.pieces h.fit, ← hj.signals, hj.closed.captures]

/-- What is numbered from the start, as one member of a sequence, can be moved if
it can be numbered where the member stands. -/
theorem number_entry (h : ∀ e ∈ es, e.Firm) (hn : numberAll 0 es = .ok n) :
    ((∃ source, renumber (n.entry d).source k = .ok source) ∧
      k.toNat + n.captures < wordLimit) ↔ ∃ m, numberAll k es = .ok m := by
  have hfirms := firms_of_numberAll h hn
  have hadd : ∀ {m}, numberAll k es = .ok m ↔
      List.Forall₂ (Piece.Moves k) n.pieces m.pieces ∧ m.captures = n.captures ∧
        m.hasReferences = n.hasReferences ∧ k.toNat + n.captures < wordLimit := by
    intro m
    rw [numberAll_behind fun e he => (h e he).toMovable]
    simp [hn]
  show ((∃ source, renumber (Piece.sequence n.pieces) k = .ok source) ∧ _) ↔ _
  simp only [Piece.renumber_sequence hfirms.fit, hadd]
  constructor
  · rintro ⟨⟨_, moved, hmoved, rfl⟩, hfits⟩
    exact ⟨⟨moved, n.captures, n.hasReferences⟩, hmoved, rfl, rfl, hfits⟩
  · rintro ⟨m, hmoved, -, -, hfits⟩
    exact ⟨⟨_, m.pieces, hmoved, rfl⟩, hfits⟩

structure Lands (k : Word) (e : Entry) (m : Numbered) : Prop where
  source : renumber e.source k = .ok (Piece.sequence m.pieces)
  final : e.references.final = Piece.lastEndsInReference m.pieces
  captures : captureCount e.source = m.captures

theorem lands_entry (h : ∀ e ∈ es, e.Firm) (hn : numberAll 0 es = .ok n)
    (hm : numberAll k es = .ok m) : (n.entry d).Lands k m ∧ n.hasReferences = m.hasReferences := by
  have hfirms := firms_of_numberAll h hn
  obtain ⟨n', hn', hmoves, hcaptures, hhas, -⟩ :=
    (numberAll_behind fun e he => (h e he).toMovable).mp hm
  obtain rfl := Except.ok.inj (hn.symm.trans hn')
  exact ⟨⟨(Piece.renumber_sequence hfirms.fit).mpr ⟨_, hmoves, rfl⟩,
    (Piece.lastEndsInReference_moves (fun p hp => (hfirms.fit p hp).closed) hmoves).symm,
    (captureCount_join hfirms.toFits false).trans hcaptures.symm⟩, hhas.symm⟩

end Entry

/-- A list of pieces that comes to the same, `directed` apart. -/
structure Numbered.Regroups (directed : Bool) (n m : Numbered) : Prop where
  source : Piece.sequence m.pieces = Piece.sequence n.pieces
  final : Piece.lastEndsInReference m.pieces = Piece.lastEndsInReference n.pieces
  captures : m.captures = n.captures
  hasReferences : m.hasReferences = (directed || n.hasReferences)

theorem Piece.sequence_congr {xs ys : List Piece} (front : List Piece)
    (h : sequence xs = sequence ys) : sequence (front ++ xs) = sequence (front ++ ys) := by
  induction front with
  | nil => exact h
  | cons p front ih => rw [List.cons_append, List.cons_append, sequence_cons, sequence_cons, ih]

theorem Piece.lastEndsInReference_congr {xs ys : List Piece} (front : List Piece)
    (he : (∀ p ∈ xs, p.source = []) ↔ ∀ p ∈ ys, p.source = [])
    (h : lastEndsInReference xs = lastEndsInReference ys) :
    lastEndsInReference (front ++ xs) = lastEndsInReference (front ++ ys) := by
  rw [lastEndsInReference_append, lastEndsInReference_append, h]
  simp only [he]

theorem Numbered.regroups {inner : Numbered} (h : ∀ p ∈ inner.pieces, p.Solid)
    (front rest : Numbered) (directed : Bool) :
    Regroups directed (front.append (inner.append rest)) (front.append
      ⟨Piece.joined inner.pieces :: rest.pieces, inner.captures + rest.captures,
        (directed || inner.hasReferences) || rest.hasReferences⟩) where
  source := Piece.sequence_congr _ (Piece.sequence_joined h _).symm
  final := by
    refine Piece.lastEndsInReference_congr _ ?_ (Piece.lastEndsInReference_joined _ _).symm
    simp only [append, List.forall_mem_cons, List.forall_mem_append]
    exact and_congr_left fun _ => ⟨Piece.sequence_eq_nil, Piece.sequence_of_empty h⟩
  captures := rfl
  hasReferences := by
    simp only [append]
    cases front.hasReferences <;> cases directed <;> simp

namespace Entry

variable {xs ys zs : List Entry} {n m c : Numbered} {d : Bool}

theorem numberAll_landed {front inner rest : Numbered} (h : ∀ e ∈ ys, e.Firm)
    (hc : numberAll 0 ys = .ok c) (hfront : numberAll k xs = .ok front)
    (hi : i.toNat = k.toNat + front.captures) (hinner : numberAll i ys = .ok inner)
    (hl : l.toNat = i.toNat + inner.captures) (hrest : numberAll l zs = .ok rest) :
    ∃ m, numberAll k (xs ++ c.entry d :: zs) = .ok m ∧
      Numbered.Regroups d (front.append (inner.append rest)) m := by
  obtain ⟨hlands, hhas⟩ := lands_entry (d := d) h hc hinner
  rw [← hlands.captures] at hl
  have hregroups := Numbered.regroups (firms_of_numberAll h hinner).solid front rest d
  rw [← hhas, ← hlands.captures, Piece.joined, ← hlands.final] at hregroups
  exact ⟨_, numberAll_append_ok.mpr ⟨front, i, _, hfront, hi,
    numberAll_cons_ok.mpr ⟨_, l, rest, hlands.source, hl, hrest, rfl⟩, rfl⟩, hregroups⟩

theorem numberAll_regroup (h : ∀ e ∈ ys, e.Firm)
    (hn : numberAll k (xs ++ (ys ++ zs)) = .ok n) :
    ∃ c m, numberAll 0 ys = .ok c ∧ numberAll k (xs ++ c.entry d :: zs) = .ok m ∧
      Numbered.Regroups d n m := by
  obtain ⟨front, i, _, hfront, hi, hbehind, rfl⟩ := numberAll_append_ok.mp hn
  obtain ⟨inner, l, rest, hinner, hl, hrest, rfl⟩ := numberAll_append_ok.mp hbehind
  obtain ⟨c, hc, -⟩ := (numberAll_behind fun e he => (h e he).toMovable).mp hinner
  obtain ⟨m, hm, hregroups⟩ := numberAll_landed (d := d) h hc hfront hi hinner hl hrest
  exact ⟨c, m, hc, hm, hregroups⟩

theorem numberAll_ungroup (h : ∀ e ∈ ys, e.Firm) (hc : numberAll 0 ys = .ok c)
    (hm : numberAll k (xs ++ c.entry d :: zs) = .ok m) :
    ∃ n, numberAll k (xs ++ (ys ++ zs)) = .ok n ∧ Numbered.Regroups d n m := by
  obtain ⟨front, i, _, hfront, hi, hbehind, rfl⟩ := numberAll_append_ok.mp hm
  obtain ⟨source, l, rest, hsource, hl, hrest, rfl⟩ := numberAll_cons_ok.mp hbehind
  have hcount : captureCount (c.entry d).source = c.captures :=
    captureCount_join (firms_of_numberAll h hc).toFits false
  have hfits := l.toNat_lt
  obtain ⟨inner, hinner⟩ := (number_entry h hc).mp ⟨⟨source, hsource⟩, by omega⟩
  rw [(lands_entry (d := d) h hc hinner).1.captures] at hl
  obtain ⟨m', hm', hregroups⟩ := numberAll_landed (d := d) h hc hfront hi hinner hl hrest
  obtain rfl := Except.ok.inj (hm.symm.trans hm')
  exact ⟨_, numberAll_append_ok.mpr ⟨front, i, _, hfront, hi,
    numberAll_append_ok.mpr ⟨inner, l, rest, hinner, hl, hrest, rfl⟩, rfl⟩, hregroups⟩

end Entry

end Splice
