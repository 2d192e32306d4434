import Splice.Proofs.Plans
import Splice.Proofs.Resolving
import Splice.Proofs.Seams

/-!
# Sequences are read member by member

A sequence writes its members one behind the other, each rewritten for the
whole, with separators where a digit would run into a reference. Unless a
member begins a construct that the text behind it goes on with, every token of
the result lies in one member or in one separator.
-/

namespace Splice

open Source

variable {α : Type} {ledger : Ledger} {fold wide wrap : Bool} {s t : Text} {ts : List Text}
  {f : Fragment} {leaves : List Fragment}

-- ---------------------------------------------------------------------------
-- Rewritten members
-- ---------------------------------------------------------------------------

/-- A source, in a group if that is wanted and it alternates. -/
def Source.wrapped (wrap : Bool) (s : Text) : Text :=
  if wrap && alternates s then Source.grouped s else s

/-- How a sequence writes fragments behind `count` groups: flags that the whole
cannot have are spelled out, what alternates is wrapped, references are renumbered. -/
def Fragment.rewritten (fold wide wrap : Bool) (count : Word) :
    List Fragment → Except Error (List Text)
  | [] => return []
  | f :: rest => do
    let g ← f.adapt fold wide
    let source := wrapped wrap g.source
    let text ← renumber source count
    let behind ← Word.add count (captureCount source)
    let texts ← rewritten fold wide wrap behind rest
    return text :: texts

theorem Fragment.rewritten_cons_ok {count : Word} :
    rewritten fold wide wrap count (f :: leaves) = .ok ts ↔ ∃ g text behind texts,
      f.adapt fold wide = .ok g ∧ renumber (wrapped wrap g.source) count = .ok text ∧
      behind.toNat = count.toNat + captureCount (wrapped wrap g.source) ∧
      rewritten fold wide wrap behind leaves = .ok texts ∧ ts = text :: texts := by
  simp only [rewritten, bind_ok, pure_ok, Word.add_eq_ok]
  constructor
  · rintro ⟨g, hg, text, htext, behind, hbehind, texts, htexts, rfl⟩
    exact ⟨g, text, behind, texts, hg, htext, hbehind, htexts, rfl⟩
  · rintro ⟨g, text, behind, texts, hg, htext, hbehind, htexts, rfl⟩
    exact ⟨g, hg, text, htext, behind, hbehind, texts, htexts, rfl⟩

theorem source_protect (e : Entry) : e.protect.source = wrapped true e.source := by
  unfold Entry.protect wrapped
  cases alternates e.source <;> rfl

theorem Member.rewritten {ms ms' : List Member} {count : Word} {n : Numbered}
    (hm : List.Forall₂ (fun m m' => m.adapt fold wide = .ok m') ms ms')
    (hn : Entry.numberAll count
      (if wrap then (ms'.map entry).map Entry.protect else ms'.map entry) = .ok n) :
    Fragment.rewritten fold wide wrap count (ms.map fragment) =
      .ok (n.pieces.map Piece.source) := by
  induction hm generalizing count n with
  | nil =>
    have hn : Entry.numberAll count [] = .ok n := by cases wrap <;> exact hn
    obtain rfl := Except.ok.inj hn
    rfl
  | @cons m m' ms ms' hm _ ih =>
    obtain ⟨g, hg, rfl⟩ := adapt_ok.mp hm
    obtain ⟨e, he, hn⟩ : ∃ e : Entry, e.source = wrapped wrap g.source ∧ Entry.numberAll count
        (e :: (if wrap then (ms'.map entry).map Entry.protect else ms'.map entry)) = .ok n := by
      cases wrap with
      | true => exact ⟨_, source_protect _, hn⟩
      | false => exact ⟨_, rfl, hn⟩
    obtain ⟨source, behind, others, hsource, hbehind, hothers, rfl⟩ :=
      Entry.numberAll_cons_ok.mp hn
    rw [he] at hsource hbehind
    exact Fragment.rewritten_cons_ok.mpr
      ⟨g, source, behind, _, hg, hsource, hbehind, ih hothers, rfl⟩

structure Entry.Fit (e : Entry) : Prop where
  closed : Closed e.source
  covers : e.references.Covers (Source.references e.source)

theorem Entry.writable {es : List Entry} {count : Word} {n : Numbered} (h : ∀ e ∈ es, e.Fit)
    (hn : numberAll count es = .ok n) : ∀ p ∈ n.pieces, p.Writable := by
  induction es generalizing count n with
  | nil =>
    obtain rfl := Except.ok.inj hn
    simp
  | cons e es ih =>
    rw [List.forall_mem_cons] at h
    obtain ⟨source, _, others, hsource, -, hothers, rfl⟩ := numberAll_cons_ok.mp hn
    refine List.forall_mem_cons.mpr
      ⟨⟨h.1.closed.renumbered hsource, fun hshort => ?_⟩, ih h.2 hothers⟩
    exact h.1.covers.2 (h.1.closed.final_of_renumber hsource hshort)

theorem Entry.Fit.protect {e : Entry} (h : e.Fit) : e.protect.Fit := by
  unfold Entry.protect
  split
  · rename_i ha
    exact ⟨h.closed.grouped ha, id, id⟩
  · exact h

theorem Member.Sure.fit {m : Member} (h : m.Sure ledger) : m.entry.Fit := ⟨h.closed, h.covers⟩

-- ---------------------------------------------------------------------------
-- Sequences
-- ---------------------------------------------------------------------------

theorem plan_sequence {ms : List Member} {stance : Stance} {layout : Layout} {directed : Bool}
    (hms : ∀ m ∈ ms, m.Sure ledger) (h : plan fold stance layout directed ms = .ok f)
    (ha : layout.alternation = false) :
    ∃ pieces : List Piece, f.source = Piece.sequence pieces ∧ (∀ p ∈ pieces, p.Writable) ∧
      Fragment.rewritten fold stance.agreement.wide layout.wrap layout.offset
        (ms.map Member.fragment) = .ok (pieces.map Piece.source) := by
  obtain ⟨es, hes, n, hn, rfl⟩ := plan_ok.mp h
  have hfit : ∀ e ∈ es, e.Fit := Member.forall_entries hes
    (fun m hm _ hadapt => ((hms m hm).adapted hadapt).fit) fun _ he => he.protect
  have hwritable := Entry.writable hfit hn
  obtain ⟨ms', hadapt, rfl⟩ := Member.entries_ok.mp hes
  simp only [ha, Bool.not_false, Bool.true_and] at hn
  refine ⟨n.pieces, ?_, hwritable, Member.rewritten (mapM_ok hadapt) hn⟩
  simp [Numbered.toFragment, Fragment.composite, Piece.join, ha]

theorem Fragment.adapt_literal (t : Text) : (literal t).adapt fold wide = .ok (literal t) := by
  unfold adapt
  have hemulate : (literal t).emulate fold = literal t := rfl
  have hliteral : (literal t).isLiteral = true := rfl
  simp [hemulate, hliteral]

theorem wrapped_ofLiteral (t : Text) : wrapped wrap (ofLiteral t) = ofLiteral t := by
  simp [wrapped, alternates_ofLiteral]

theorem Fragment.rewritten_literals {count : Word}
    (h : rewritten fold wide wrap count leaves = .ok ts) :
    List.Forall₂ (fun f text => ∀ t, f = literal t → text = ofLiteral t) leaves ts := by
  induction leaves generalizing count ts with
  | nil =>
    obtain rfl := Except.ok.inj h
    exact .nil
  | cons f leaves ih =>
    obtain ⟨g, text, _, texts, hg, htext, -, htexts, rfl⟩ := rewritten_cons_ok.mp h
    refine .cons ?_ (ih htexts)
    rintro t rfl
    obtain rfl := Except.ok.inj ((adapt_literal t).symm.trans hg)
    have hkept := renumber_of_absent (s := ofLiteral t) (by rw [references_ofLiteral]; rfl) count
    have htext : renumber (wrapped wrap (ofLiteral t)) count = .ok text := htext
    rw [wrapped_ofLiteral, hkept] at htext
    exact (Except.ok.inj htext).symm

-- ---------------------------------------------------------------------------
-- Assemblies of items
-- ---------------------------------------------------------------------------

variable {layout : Layout} {items : List Item} {w w' : Workshop}

theorem Work.assemble_plan (ht : ∀ item ∈ items, item.isTree = false)
    (hl : (Item.tree items).leaves w.bindings = some leaves)
    (hp : ∀ g ∈ leaves, g.Proper Closed w.archive) (hs : Fragment.Sharing leaves)
    (h : (Work.assemble layout items).run w = (.ok f, w')) :
    ∃ directed, plan w.fold w'.stance { layout with wrap := layout.wrap || 1 < items.length }
      directed (leaves.map (Fragment.member w.archive)) = .ok f := by
  obtain ⟨groups, hgroups, rfl⟩ := Option.map_eq_some_iff.mp hl
  generalize hledger : Fragment.accounts w.archive groups.flatten = ledger
  have hsure : ∀ m ∈ groups.flatten.map (Fragment.member w.archive), m.Sure ledger := by
    rw [List.forall_mem_map, ← hledger]
    exact fun g hg => (hp g hg).sure hs hg
  have hbegin : w.beginAssembly.fold = w.fold ∧ w.beginAssembly.archive.Attests ledger := by
    rw [w.beginAssembly_archive]
    refine ⟨?_, hledger ▸ Fragment.attests_of_proper hp⟩
    unfold Workshop.beginAssembly
    split <;> rfl
  obtain ⟨hparts, hafter⟩ := Item.resolveAll_leaves
    (I := fun v => v.fold = w.fold ∧ v.archive.Attests ledger) (fun _ _ h => h) ht hgroups
    (layout.wrap || 1 < items.length) w.beginAssembly hbegin
  have hrun : (Work.assemble layout items).run w =
      (Work.build layout items.length fun wrap => Item.resolveAll w.bindings wrap items).run
        w.beginAssembly := rfl
  rw [hrun, Work.build, run_bind] at h
  generalize (Item.resolveAll w.bindings (layout.wrap || 1 < items.length) items).run
    w.beginAssembly = r at hparts hafter h
  obtain ⟨outcome, v⟩ := r
  cases outcome with
  | error e => cases (Prod.mk.inj h).1
  | ok parts =>
    have hleaves : groups.flatten = parts.map Prod.fst := hparts parts rfl
    obtain ⟨hfold, harchive⟩ : v.fold = w.fold ∧ v.archive.Attests ledger := hafter
    have h : (Work.onArchive (Splice.assemble v.fold v.stance
        { layout with wrap := layout.wrap || 1 < items.length } (parts.any Prod.snd)
        (parts.map Prod.fst))).run v = (.ok f, w') := h
    obtain ⟨hok, hw⟩ := Prod.mk.inj h
    have hstance : w'.stance = v.stance := (congrArg Workshop.stance hw).symm
    have hsettles := (assemble_settles (fun m hm => (hsure m hm).toReady) v.fold v.stance
      { layout with wrap := layout.wrap || 1 < items.length } (parts.any Prod.snd) _ harchive).1
    have hmembers : (groups.flatten.map (Fragment.member w.archive)).map Member.fragment =
        parts.map Prod.fst := by
      rw [List.map_map, ← hleaves]
      exact List.map_id _
    rw [hmembers] at hsettles
    refine ⟨parts.any Prod.snd, ?_⟩
    rw [hstance, ← hfold]
    exact hsettles.eq.symm.trans (mapError_ok.mp hok)

/-- What a sequence of items that are no trees is made of. Its source is that of
the leaves, rewritten, with separators between them. If no leaf begins a
construct that the text behind it goes on with, every token lies in one leaf or
in one separator. A literal is read as its own escaped characters. -/
theorem Work.assemble_partition (ha : layout.alternation = false)
    (ht : ∀ item ∈ items, item.isTree = false)
    (hl : (Item.tree items).leaves w.bindings = some leaves)
    (hp : ∀ g ∈ leaves, g.Proper Closed w.archive) (hs : Fragment.Sharing leaves)
    (h : (Work.assemble layout items).run w = (.ok f, w')) :
    ∃ pieces : List Piece,
      Fragment.rewritten w.fold w'.stance.agreement.wide (layout.wrap || 1 < items.length)
        layout.offset leaves = .ok (pieces.map Piece.source) ∧
      (Piece.segments pieces).flatten = f.source ∧
      (Piece.apart pieces → lex f.source = (Piece.segments pieces).flatMap lex) ∧
      List.Forall₂ (fun leaf piece => ∀ t, leaf = Fragment.literal t →
        piece.source = ofLiteral t ∧ (lex piece.source).map Token.text = t.map ofChar)
        leaves pieces := by
  obtain ⟨directed, hplan⟩ := Work.assemble_plan ht hl hp hs h
  have hsure : ∀ m ∈ leaves.map (Fragment.member w.archive),
      m.Sure (Fragment.accounts w.archive leaves) := by
    rw [List.forall_mem_map]
    exact fun g hg => (hp g hg).sure hs hg
  obtain ⟨pieces, hsource, hwritable, hrewritten⟩ := plan_sequence hsure hplan ha
  rw [List.map_map] at hrewritten
  have hmap : leaves.map (Member.fragment ∘ Fragment.member w.archive) = leaves := List.map_id _
  rw [hmap] at hrewritten
  refine ⟨pieces, hrewritten, (Piece.flatten_segments pieces).trans hsource.symm,
    fun hapart => ?_, ?_⟩
  · rw [hsource]
    exact Piece.lex_sequence hwritable hapart
  · have hliterals := Fragment.rewritten_literals hrewritten
    rw [List.forall₂_map_right_iff] at hliterals
    refine hliterals.imp fun f piece h t ht => ?_
    rw [h t ht]
    exact ⟨rfl, lex_ofLiteral t⟩

def Pattern.echo : Pattern := ⟨0, "(a|b)\\1".toList, Flags.empty, .plain⟩

def Workshop.withEcho : Workshop :=
  { Workshop.new true with archive := #[.empty], bindings := [("echo", .pattern .echo)] }

/-- A digit behind a reference stays a token of its own. -/
theorem Work.assemble_partition_echo :
    ∃ f w' pieces, (Work.assemble ⟨false, false, 0⟩ [.named "echo", .literal ['1']]).run .withEcho =
        (.ok f, w') ∧
      f.source = "(a|b)\\1(?:)1".toList ∧ Piece.apart pieces ∧
      lex f.source = (Piece.segments pieces).flatMap lex := by
  have hclosed : Closed Pattern.echo.source := by decide +kernel
  have hproper : ∀ f ∈ [Fragment.native .echo, .literal ['1']],
      f.Proper Closed Workshop.withEcho.archive := by
    exact List.forall_mem_cons.mpr ⟨⟨hclosed, (Analysis.reports_empty _).honest⟩,
      List.forall_mem_singleton.mpr ⟨_, rfl⟩⟩
  have hrun := Work.run_ok (Work.assemble ⟨false, false, 0⟩ [.named "echo", .literal ['1']])
    .withEcho
    (.composite "(a|b)\\1(?:)1".toList ⟨.forward, false, some false, some false⟩
      ⟨some 1, some ⟨true, false⟩, none, none⟩)
    (by decide +kernel)
  obtain ⟨pieces, hrewritten, -, hlex, -⟩ :=
    Work.assemble_partition rfl (by simp [Item.isTree]) rfl hproper (by decide) hrun
  have hsources : pieces.map Piece.source = [Pattern.echo.source, ['1']] :=
    (Except.ok.inj (hrewritten.symm.trans (by decide +kernel)))
  obtain ⟨p, rest, rfl, hp, hrest⟩ := List.map_eq_cons_iff.mp hsources
  obtain ⟨q, rest, rfl, hq, hrest⟩ := List.map_eq_cons_iff.mp hrest
  obtain rfl := List.map_eq_nil_iff.mp hrest
  have hapart : Piece.apart [p, q] := by
    have hlast : runsInto q.source (q.separator []) = false := by
      rw [show q.separator [] = [] by simp [Piece.separator]]
      exact runsInto_nil _
    have hfirst : runsInto p.source (p.separator q.source ++ q.source) = false := by
      rw [hp, hq]
      rcases p.separator_cases ['1'] with ⟨hsep, -⟩ | hsep <;> rw [hsep] <;> decide +kernel
    simpa [Piece.apart, Piece.sequence] using ⟨hfirst, hlast⟩
  exact ⟨_, _, _, hrun, rfl, hapart, hlex hapart⟩

end Splice
