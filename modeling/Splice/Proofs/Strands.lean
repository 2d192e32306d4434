import Splice.Proofs.Hearing
import Splice.Proofs.Rejoining
import Splice.Proofs.Resolving

/-!
# What items contribute

In a whole that is not wide, an item contributes to a sequence what its leaves
and the wrapping around them determine. A tree contributes what its items do,
joined. Whether what is inside a tree is wrapped does not show once the tree
itself is wrapped.
-/

namespace Splice

open Source

variable {fold wrap : Bool} {report : Fragment → References} {seen : Bindings} {d : Nat} {k : Word}
  {s : Text} {leaves : List Fragment}

-- ---------------------------------------------------------------------------
-- Entries that are wrapped
-- ---------------------------------------------------------------------------

theorem Source.Closed.present_grouped (h : Closed s) (ha : alternates s) :
    (references (Source.grouped s)).present = (references s).present := by
  rw [references_present, references_present, ← h.events, ← (h.grouped ha).events,
    signals_grouped h ha]

theorem Source.Closed.captureCount_grouped (h : Closed s) (ha : alternates s) :
    captureCount (Source.grouped s) = captureCount s := by
  rw [← captures_events, ← captures_events, ← h.events, ← (h.grouped ha).events,
    signals_grouped h ha]

namespace Entry

variable {e : Entry} {es : List Entry} {n : Numbered}

def shown (wrap : Bool) (e : Entry) : Entry := if wrap then e.protect else e

theorem protect_of_alternates (h : alternates e.source) :
    e.protect = ⟨grouped e.source, Source.references (grouped e.source)⟩ := by
  rw [protect, if_pos h]

theorem protect_congr {e' : Entry} (h : alternates e.source) (hs : e'.source = e.source) :
    e'.protect = e.protect := by
  rw [protect_of_alternates h, protect_of_alternates (hs ▸ h), hs]

theorem protect_eq_self (h : alternates e.source = false) : e.protect = e := by
  rw [protect, if_neg (by simp [h])]

theorem shown_eq_self (h : wrap → alternates e.source = false) : e.shown wrap = e := by
  cases wrap with
  | false => rfl
  | true => exact protect_eq_self (h rfl)

theorem captureCount_protect (h : Closed e.source) :
    captureCount e.protect.source = captureCount e.source := by
  cases ha : alternates e.source with
  | false => rw [protect_eq_self ha]
  | true =>
    rw [protect_of_alternates ha]
    exact h.captureCount_grouped ha

theorem Movable.protect (h : e.Movable) :
    e.protect.Movable ∧ alternates e.protect.source = false := by
  cases ha : alternates e.source with
  | false =>
    rw [protect_eq_self ha]
    exact ⟨h, ha⟩
  | true =>
    rw [protect_of_alternates ha]
    refine ⟨⟨h.closed.grouped ha, ?_, id, id⟩, ?_⟩
    · rw [markerFree_iff, ← (h.closed.grouped ha).events, signals_grouped h.closed ha,
        h.closed.events]
      exact markerFree_iff.mp h.markerFree
    · rw [alternates_eq, topBars_grouped h.closed ha]
      rfl

theorem Firm.protect (h : e.Firm) : e.protect.Firm ∧ alternates e.protect.source = false := by
  obtain ⟨hmovable, halternates⟩ := h.toMovable.protect
  refine ⟨⟨hmovable, ?_⟩, halternates⟩
  cases ha : alternates e.source with
  | false =>
    rw [protect_eq_self ha]
    exact h.solid
  | true =>
    rw [protect_of_alternates ha]
    exact fun hnil => by simp [grouped] at hnil

theorem Firm.shown (h : e.Firm) (wrap : Bool) : (e.shown wrap).Firm := by
  cases wrap with
  | false => exact h
  | true => exact h.protect.1

theorem Firm.alternates_shown (h : e.Firm) (hw : wrap) :
    alternates (e.shown wrap).source = false := by
  obtain rfl : wrap = true := hw
  exact h.protect.2

theorem topBars_numberAll (h : ∀ e ∈ es, e.Firm) (hn : numberAll k es = .ok n) :
    n.pieces.map (fun p => topBars p.source) = es.map fun e => topBars e.source := by
  induction es generalizing k n with
  | nil =>
    obtain rfl := Except.ok.inj hn
    rfl
  | cons e es ih =>
    rw [List.forall_mem_cons] at h
    obtain ⟨source, _, others, hs, -, hothers, rfl⟩ := numberAll_cons_ok.mp hn
    rw [List.map_cons, List.map_cons, ih h.2 hothers, h.1.closed.topBars_renumber hs]

theorem alternates_entry (h : ∀ e ∈ es, e.Firm) (ha : ∀ e ∈ es, alternates e.source = false)
    (hn : numberAll k es = .ok n) (directed : Bool) :
    alternates (n.entry directed).source = false := by
  have hbars : ∀ e ∈ es, topBars e.source = 0 := by simpa [alternates_eq] using ha
  have hsum : topBars (Piece.sequence n.pieces) = 0 := by
    rw [Piece.topBars_sequence (firms_of_numberAll h hn).fit, topBars_numberAll h hn]
    exact List.sum_eq_zero_iff_forall_eq_nat.mpr (by simpa using hbars)
  rw [alternates_eq, show (n.entry directed).source = Piece.sequence n.pieces from rfl, hsum]
  rfl

theorem numberAll_singleton (h : e.Firm) : numberAll 0 [e] = .ok n ↔
    captureCount e.source < wordLimit ∧
      n = ⟨[⟨e.source, e.references.final⟩], captureCount e.source, e.references.present⟩ := by
  rw [numberAll_cons_ok]
  constructor
  · rintro ⟨source, behind, _, hsource, hbehind, ⟨⟩, rfl⟩
    obtain rfl := Except.ok.inj ((renumber_zero h.markerFree).symm.trans hsource)
    have hfits := behind.toNat_lt
    rw [hbehind] at hfits
    exact ⟨Nat.lt_of_le_of_lt (Nat.le_add_left ..) hfits, by simp⟩
  · rintro ⟨hfits, rfl⟩
    obtain ⟨behind, hbehind⟩ := Word.exists_toNat hfits
    exact ⟨e.source, behind, ⟨[], 0, false⟩, renumber_zero h.markerFree,
      hbehind.trans (Nat.zero_add _).symm, rfl, by simp⟩

theorem entry_singleton (h : e.Firm) (captures : Nat) (present directed : Bool) :
    (Numbered.mk [⟨e.source, e.references.final⟩] captures present).entry directed =
      ⟨e.source, directed || present, e.references.final⟩ := by
  have hlast : Piece.lastEndsInReference [⟨e.source, e.references.final⟩] = e.references.final := by
    rw [Piece.lastEndsInReference_cons]
    by_cases hs : e.source = []
    · simp [hs, h.solid hs]
    · simp [hs]
  rw [Numbered.entry, hlast]
  rfl

theorem numberAll_replaced {e' : Entry} {xs zs : List Entry} (hs : e'.source = e.source)
    (hf : e'.references.final = e.references.final)
    (hn : numberAll k (xs ++ e :: zs) = .ok n) :
    ∃ others, n.hasReferences = (e.references.present || others) ∧
      numberAll k (xs ++ e' :: zs) =
        .ok { n with hasReferences := e'.references.present || others } := by
  obtain ⟨front, i, _, hfront, hi, hbehind, rfl⟩ := numberAll_append_ok.mp hn
  obtain ⟨source, l, rest, hsource, hl, hrest, rfl⟩ := numberAll_cons_ok.mp hbehind
  rw [← hs] at hsource hl
  refine ⟨front.hasReferences || rest.hasReferences, Bool.or_left_comm .., ?_⟩
  refine numberAll_append_ok.mpr ⟨front, i, _, hfront, hi,
    numberAll_cons_ok.mpr ⟨source, l, rest, hsource, hl, hrest, rfl⟩, ?_⟩
  simp only [Numbered.append, hs, hf, Bool.or_left_comm]

end Entry

-- ---------------------------------------------------------------------------
-- Strands
-- ---------------------------------------------------------------------------

/-- What an item contributes to a sequence, and whether it is tied to a direction. -/
structure Strand where
  entry : Entry
  directed : Bool

namespace Strand

variable {x y : Strand} {xs ys : List Strand} {n : Numbered}

def numbered (wrap : Bool) (offset : Word) (xs : List Strand) : Option Numbered :=
  (Entry.numberAll offset (xs.map fun x => x.entry.shown wrap)).toOption

def joined (wrap : Bool) (xs : List Strand) : Option Strand :=
  (numbered wrap 0 xs).map fun n => ⟨n.entry (xs.any directed), false⟩

theorem toOption_eq_some {ε α : Type} {e : Except ε α} {a : α} :
    e.toOption = some a ↔ e = .ok a := by
  cases e <;> simp [Except.toOption]

theorem numbered_eq_some : numbered wrap k xs = some n ↔
    Entry.numberAll k (xs.map fun x => x.entry.shown wrap) = .ok n := toOption_eq_some

theorem firm_shown (h : ∀ x ∈ xs, x.entry.Firm) (wrap : Bool) :
    ∀ e ∈ xs.map fun x => x.entry.shown wrap, e.Firm :=
  List.forall_mem_map.mpr fun x hx => (h x hx).shown wrap

theorem firms_of_numbered (h : ∀ x ∈ xs, x.entry.Firm) (hn : numbered wrap k xs = some n) :
    Entry.Firms n := Entry.firms_of_numberAll (firm_shown h wrap) (numbered_eq_some.mp hn)

theorem firm_joined (h : ∀ x ∈ xs, x.entry.Firm) (hy : joined wrap xs = some y) :
    y.entry.Firm := by
  obtain ⟨n, hn, rfl⟩ := Option.map_eq_some_iff.mp hy
  exact (firms_of_numbered h hn).entry _

theorem alternates_joined (h : ∀ x ∈ xs, x.entry.Firm) (hw : wrap)
    (hy : joined wrap xs = some y) : alternates y.entry.source = false := by
  obtain ⟨n, hn, rfl⟩ := Option.map_eq_some_iff.mp hy
  refine Entry.alternates_entry (firm_shown h wrap) ?_ (numbered_eq_some.mp hn) _
  exact List.forall_mem_map.mpr fun x hx => (h x hx).alternates_shown hw

theorem joined_singleton (h : x.entry.Firm) (wrap : Bool) : joined wrap [x] =
    if captureCount (x.entry.shown wrap).source < wordLimit then
      some ⟨⟨(x.entry.shown wrap).source, x.directed || (x.entry.shown wrap).references.present,
        (x.entry.shown wrap).references.final⟩, false⟩
    else none := by
  have hshown := h.shown wrap
  have hone : ∀ {n}, numbered wrap 0 [x] = some n ↔ _ ∧ _ := fun {n} =>
    numbered_eq_some.trans (Entry.numberAll_singleton hshown)
  split
  · rename_i hfits
    rw [joined, hone.mpr ⟨hfits, rfl⟩, Option.map_some, Entry.entry_singleton hshown]
    simp
  · rename_i hlarge
    rw [joined, Option.map_eq_none_iff, Option.eq_none_iff_forall_ne_some]
    exact fun n hn => hlarge (hone.mp hn).1

end Strand

-- ---------------------------------------------------------------------------
-- Items
-- ---------------------------------------------------------------------------

def Fragment.strand (fold : Bool) (report : Fragment → References) (f : Fragment) : Strand :=
  ⟨⟨(f.emulate fold).source, report f⟩, f.tied⟩

mutual
/-- What an item contributes, if it has leaves and they can be joined. `wrap`
says that what alternates inside a tree is wrapped. -/
def Item.strand (fold : Bool) (report : Fragment → References) (seen : Bindings) (wrap : Bool) :
    Item → Option Strand
  | .tree items =>
    let wrap := wrap || 1 < items.length
    (Item.strands fold report seen wrap items).bind (Strand.joined wrap)
  | item => (item.leaves seen).bind fun fs => fs.head?.map (Fragment.strand fold report)

def Item.strands (fold : Bool) (report : Fragment → References) (seen : Bindings) (wrap : Bool) :
    List Item → Option (List Strand)
  | [] => some []
  | item :: rest =>
    (item.strand fold report seen wrap).bind fun x =>
      (Item.strands fold report seen wrap rest).map (x :: ·)
end

namespace Item

variable {items : List Item} {groups : List (List Fragment)} {x y : Strand} {xs : List Strand}

theorem strand_tree (items : List Item) : (Item.tree items).strand fold report seen wrap =
    (strands fold report seen (wrap || 1 < items.length) items).bind
      (Strand.joined (wrap || 1 < items.length)) := by
  rw [strand]

theorem strand_singleton (item : Item) : (Item.tree [item]).strand fold report seen wrap =
    (item.strand fold report seen wrap).bind fun x => Strand.joined wrap [x] := by
  rw [strand_tree]
  cases hx : item.strand fold report seen wrap <;> simp [strands, hx]

theorem strands_cons_eq_some {item : Item} {rest : List Item} :
    strands fold report seen wrap (item :: rest) = some xs ↔ ∃ x others,
      item.strand fold report seen wrap = some x ∧
      strands fold report seen wrap rest = some others ∧ xs = x :: others := by
  simp only [strands, Option.bind_eq_some_iff, Option.map_eq_some_iff, eq_comm (b := xs)]
  constructor
  · rintro ⟨x, hx, others, ho, rfl⟩
    exact ⟨x, others, hx, ho, rfl⟩
  · rintro ⟨x, others, hx, ho, rfl⟩
    exact ⟨x, hx, others, ho, rfl⟩

theorem strands_append_eq_some {first second : List Item} :
    strands fold report seen wrap (first ++ second) = some xs ↔ ∃ ys zs,
      strands fold report seen wrap first = some ys ∧
      strands fold report seen wrap second = some zs ∧ xs = ys ++ zs := by
  induction first generalizing xs with
  | nil => simp [strands]
  | cons item rest ih =>
    simp only [List.cons_append, strands_cons_eq_some, ih]
    constructor
    · rintro ⟨x, _, hx, ⟨ys, zs, hy, hz, rfl⟩, rfl⟩
      exact ⟨_, zs, ⟨x, ys, hx, hy, rfl⟩, hz, rfl⟩
    · rintro ⟨_, zs, ⟨x, ys, hx, hy, rfl⟩, hz, rfl⟩
      exact ⟨x, _, hx, ⟨ys, zs, hy, hz, rfl⟩, rfl⟩

theorem strand_leaf {item : Item} {f : Fragment} (ht : item.isTree = false)
    (hl : item.leaves seen = some [f]) (wrap : Bool) :
    item.strand fold report seen wrap = some (f.strand fold report) := by
  cases item with
  | tree items => simp [isTree] at ht
  | _ => simp [strand, hl]

mutual
theorem firm_strand {wrap : Bool} {leaves : List Fragment} {x : Strand} (item : Item)
    (hl : item.leaves seen = some leaves)
    (hf : ∀ f ∈ leaves, (f.strand fold report).entry.Firm)
    (hx : item.strand fold report seen wrap = some x) : x.entry.Firm := by
  have leaf : item.isTree = false → x.entry.Firm := by
    intro ht
    obtain ⟨f, rfl, -⟩ := resolve_leaf ht hl wrap
    rw [strand_leaf ht hl] at hx
    obtain rfl := Option.some.inj hx
    exact hf f (by simp)
  match item with
  | .tree items =>
    obtain ⟨groups, hgroups, rfl⟩ := Option.map_eq_some_iff.mp hl
    rw [strand_tree] at hx
    obtain ⟨xs, hxs, hx⟩ := Option.bind_eq_some_iff.mp hx
    exact Strand.firm_joined (firm_strands items hgroups hf hxs) hx
  | .literal _ | .pattern _ | .fragment _ | .named _ | .deferred .. | .malformed _ =>
    exact leaf rfl

theorem firm_strands {wrap : Bool} {groups : List (List Fragment)} {xs : List Strand}
    (items : List Item) (hl : leavesOf seen items = some groups)
    (hf : ∀ f ∈ groups.flatten, (f.strand fold report).entry.Firm)
    (hx : strands fold report seen wrap items = some xs) : ∀ x ∈ xs, x.entry.Firm := by
  match items with
  | [] =>
    obtain rfl := Option.some.inj hx
    simp
  | item :: rest =>
    obtain ⟨fs, others, hfs, hothers, rfl⟩ := leavesOf_cons hl
    obtain ⟨x, xs, hfirst, hrest, rfl⟩ := strands_cons_eq_some.mp hx
    rw [List.flatten_cons, List.forall_mem_append] at hf
    exact List.forall_mem_cons.mpr
      ⟨firm_strand item hfs hf.1 hfirst, firm_strands rest hothers hf.2 hrest⟩
end

-- ---------------------------------------------------------------------------
-- Wrapping inside of trees
-- ---------------------------------------------------------------------------

/-- What an item contributes if what is inside it is wrapped, and if it is not:
the same once it is wrapped itself. Whether it holds references can differ for a
leaf that alternates, whose group is looked at without regard to its record. -/
structure Looser (report : Fragment → References) (leaves : List Fragment) (x y : Strand) :
    Prop where
  source : y.entry.protect.source = x.entry.protect.source
  final : y.entry.protect.references.final = x.entry.protect.references.final
  present : alternates y.entry.source = false →
    (y.directed || y.entry.references.present) = (x.directed || x.entry.protect.references.present)
  leaf : alternates y.entry.source → ∃ f, leaves = [f] ∧
    Padded (outline true f.source) (outline true y.entry.source) ∧
    (y.directed || y.entry.references.present) = (f.tied || (report f).present) ∧
    (x.directed || x.entry.protect.references.present) =
      (f.tied || (references y.entry.source).present)

theorem looser_refl (h : alternates x.entry.source = false) : Looser report leaves x x :=
  ⟨rfl, rfl, fun _ => by rw [Entry.protect_eq_self h], fun ha => by simp [h] at ha⟩

theorem looser_leaf {f : Fragment} (hc : Closed f.source) :
    Looser report [f] (f.strand fold report) (f.strand fold report) := by
  have hpadded := (f.respelled_emulate fold).padded true
  refine ⟨rfl, rfl, fun ha => by rw [Entry.protect_eq_self ha], fun ha => ?_⟩
  refine ⟨f, rfl, hpadded, rfl, ?_⟩
  rw [Entry.protect_of_alternates ha]
  exact congrArg _ ((hc.padded hpadded).present_grouped ha)

theorem looser_joined (h : Looser report leaves x y) (hx : x.entry.Firm) (hy : y.entry.Firm) :
    Option.Rel (Looser report leaves) (Strand.joined true [x]) (Strand.joined false [y]) := by
  have hcount : captureCount (y.entry.shown false).source =
      captureCount (x.entry.shown true).source := by
    rw [Entry.shown, Entry.shown, if_pos rfl, ← h.source, Entry.captureCount_protect hy.closed]
    rfl
  rw [Strand.joined_singleton hx, Strand.joined_singleton hy, hcount]
  split
  case isFalse => exact .none
  have inner : ∀ r, (Entry.mk x.entry.protect.source r).protect = ⟨x.entry.protect.source, r⟩ :=
    fun r => Entry.protect_eq_self hx.protect.2
  refine .some ?_
  cases ha : alternates y.entry.source with
  | false =>
    have outer : ∀ r, (Entry.mk y.entry.source r).protect = ⟨y.entry.source, r⟩ :=
      fun r => Entry.protect_eq_self ha
    have hy := Entry.protect_eq_self ha
    refine ⟨?_, ?_, fun _ => ?_, fun ha' => by simp [Entry.shown, ha] at ha'⟩
    · simpa [Entry.shown, inner, outer, hy] using h.source
    · simpa [Entry.shown, inner, outer, hy] using h.final
    · simpa [Entry.shown, inner] using h.present ha
  | true =>
    have outer : ∀ r, (Entry.mk y.entry.source r).protect = y.entry.protect :=
      fun r => Entry.protect_congr ha rfl
    obtain ⟨f, hf, hpadded, htied, hgroup⟩ := h.leaf ha
    refine ⟨?_, ?_, fun ha' => by simp [Entry.shown, ha] at ha', fun _ => ⟨f, hf, hpadded, ?_, ?_⟩⟩
    · simpa [Entry.shown, inner, outer] using h.source
    · simpa [Entry.shown, inner, outer] using h.final
    · simpa [Entry.shown] using htied
    · simpa [Entry.shown, inner] using hgroup

theorem looser_strand {leaves : List Fragment} (item : Item) (hl : item.leaves seen = some leaves)
    (hf : ∀ f ∈ leaves, Closed f.source ∧ (f.strand fold report).entry.Firm) :
    Option.Rel (Looser report leaves) (item.strand fold report seen true)
      (item.strand fold report seen false) := by
  have leaf : item.isTree = false → Option.Rel (Looser report leaves)
      (item.strand fold report seen true) (item.strand fold report seen false) := by
    intro ht
    obtain ⟨f, rfl, -⟩ := resolve_leaf ht hl false
    rw [strand_leaf ht hl, strand_leaf ht hl]
    exact .some (looser_leaf (hf f (by simp)).1)
  match item with
  | .tree items =>
    obtain ⟨groups, hgroups, rfl⟩ := Option.map_eq_some_iff.mp hl
    match items with
    | [] => exact .some (looser_refl (by decide +kernel))
    | [item] =>
      obtain ⟨fs, others, hfs, hothers, rfl⟩ := leavesOf_cons hgroups
      obtain rfl := Option.some.inj hothers
      have hfs' : [fs].flatten = fs := by simp
      rw [hfs'] at hf ⊢
      have hfirm : ∀ {wrap x}, item.strand fold report seen wrap = some x → x.entry.Firm :=
        fun hx => firm_strand item hfs (fun f hmem => (hf f hmem).2) hx
      have hrel := looser_strand item hfs hf
      rw [strand_singleton, strand_singleton]
      generalize hx : item.strand fold report seen true = x,
        hy : item.strand fold report seen false = y at hrel ⊢
      cases hrel with
      | none => exact .none
      | some h => exact looser_joined h (hfirm hx) (hfirm hy)
    | first :: second :: rest =>
      have hmany : ∀ wrap, (Item.tree (first :: second :: rest)).strand fold report seen wrap =
          (strands fold report seen true (first :: second :: rest)).bind (Strand.joined true) := by
        intro wrap
        rw [strand_tree]
        simp
      rw [hmany, hmany]
      cases hx : (strands fold report seen true (first :: second :: rest)).bind
        (Strand.joined true) with
      | none => exact .none
      | some x =>
        obtain ⟨xs, hxs, hx⟩ := Option.bind_eq_some_iff.mp hx
        have hfirm := firm_strands _ hgroups (fun f hmem => (hf f hmem).2) hxs
        exact .some (looser_refl (Strand.alternates_joined hfirm rfl hx))
  | .literal _ | .pattern _ | .fragment _ | .named _ | .deferred .. | .malformed _ =>
    exact leaf rfl

end Item

end Splice
