import Splice.Proofs.Leaves
import Splice.Proofs.Rewriting

/-!
# What an assembly comes to

An assembly asks the archive as it goes, and the archive changes under the
questions. Once it is known what every record will answer, the outcome is a
function of the members alone: `plan`.
-/

namespace Splice

open Source

variable {α β : Type} {s t : Text} {r : References}

-- ---------------------------------------------------------------------------
-- Records with known answers
-- ---------------------------------------------------------------------------

/-- What a record stands for: a source, and what it will say about references. -/
structure Entry where
  source : Text
  references : References

/-- The entries for the records of an archive, as far as they are known. -/
abbrev Ledger := Nat → Option Entry

/-- Whether an answer about a source is the one that is expected. -/
def Property.Expects : Property α → α → Text → References → Prop
  | .captures, n, s, _ => n = captureCount s
  | .references, answer, _, r => answer = r
  | .alternates, b, s, _ => b = Source.alternates s
  | .singleGroup, _, _, _ => True

variable {p : Property α} {q : Property β}

theorem Property.Expects.congr {answer : α} (h : p.Expects answer s r)
    (ht : p.Agrees true s t) : p.Expects answer t r := by
  cases p with
  | captures => exact Eq.trans h ht
  | references => exact h
  | alternates => exact Eq.trans h ht
  | singleGroup => trivial

theorem Property.Agrees.symm (h : p.Agrees true s t) : p.Agrees true t s := by
  cases p with
  | references => exact fun hf => (h hf).symm
  | captures | alternates | singleGroup => exact Eq.symm h

theorem Property.expects_compute (h : p.Expects (p.compute s) s r) (ht : p.Agrees true s t) :
    p.Expects (p.compute t) t r := by
  cases p with
  | references => exact (ht rfl).symm.trans h
  | captures | alternates => rfl
  | singleGroup => trivial

namespace Analysis

variable {a : Analysis}

def Attests (a : Analysis) (p : Property α) (s : Text) (r : References) : Prop :=
  p.Expects ((a.get? p).getD (p.compute s)) s r

theorem ask_fst (a : Analysis) (p : Property α) (s : Text) :
    (a.ask p s).1 = (a.get? p).getD (p.compute s) := by
  unfold ask
  cases a.get? p <;> rfl

theorem Attests.congr (h : a.Attests p s r) (ht : p.Agrees true s t) : a.Attests p t r := by
  unfold Attests at h ⊢
  cases ha : a.get? p with
  | some answer =>
    rw [ha] at h
    exact Property.Expects.congr h ht
  | none =>
    rw [ha] at h
    exact p.expects_compute h ht

theorem Attests.answer (h : a.Attests p s r) (ht : p.Agrees true s t) :
    p.Expects (a.ask p t).1 t r := by
  rw [ask_fst]
  exact h.congr ht

theorem attests_set {answer : α} (ha : p.Expects answer s r) (hq : a.Attests q s r) :
    (a.set p answer).Attests q s r := by
  unfold Attests at hq ⊢
  cases p <;> cases q <;>
    first
    | exact hq
    | exact ha

theorem Attests.ask (hp : a.Attests p s r) (ht : p.Agrees true s t) (hq : a.Attests q s r) :
    (a.ask p t).2.Attests q s r := by
  have hs : p.Expects (a.ask p t).1 s r := (hp.answer ht).congr ht.symm
  unfold Analysis.ask at hs ⊢
  cases ha : a.get? p with
  | some answer => exact hq
  | none =>
    rw [ha] at hs
    exact attests_set hs hq

end Analysis

def Archive.Attests (ledger : Ledger) (archive : Archive) : Prop :=
  ∀ n e, ledger n = some e → ∀ (α : Type) (p : Property α),
    (archive.analysis n).Attests p e.source e.references

variable {ledger : Ledger}

theorem Archive.attests_ask {n : Nat} (hn : ledger n = some ⟨s, r⟩) (ht : p.Agrees true s t) :
    Keeps (Archive.Attests ledger) (Archive.ask n p t) (p.Expects · t r) := by
  intro archive h
  have hask : (ask n p t archive).2 =
      archive.setIfInBounds n ((archive.analysis n).ask p t).2 := rfl
  have hp : (archive.analysis n).Attests p s r := h n _ hn _ p
  refine ⟨hp.answer ht, fun m e hm β q => ?_⟩
  rw [hask, analysis_setIfInBounds]
  split
  · rename_i hmn
    obtain ⟨rfl, -⟩ := hmn
    obtain rfl := Option.some.inj (hn.symm.trans hm)
    exact hp.ask ht (h n _ hn β q)
  · exact h m e hm β q

-- ---------------------------------------------------------------------------
-- Fragments with known answers
-- ---------------------------------------------------------------------------

namespace Fragment

variable {f g : Fragment}

def Attests (ledger : Ledger) (p : Property α) (r : References) (f : Fragment) : Prop :=
  match f.origin with
  | .native pattern => ∃ s, ledger pattern.number = some ⟨s, r⟩ ∧ p.Agrees true s f.source
  | .literal => p.Expects (p.ofLiteral f.source) f.source r
  | .composite _ a => a.Attests p f.source r

/-- A fragment that has the source of another and answers as it does. -/
structure Follows (ledger : Ledger) (r : References) (f g : Fragment) : Prop where
  source : g.source = f.source
  attests : ∀ (α : Type) (p : Property α), f.Attests ledger p r → g.Attests ledger p r

theorem Follows.refl (f : Fragment) : f.Follows ledger r f := ⟨rfl, fun _ _ h => h⟩

theorem Attests.ask (h : f.Attests ledger p r) :
    Keeps (Archive.Attests ledger) (f.ask p)
      fun x => p.Expects x.1 f.source r ∧ f.Follows ledger r x.2 := by
  unfold Attests at h
  unfold Fragment.ask
  cases ho : f.origin with
  | native pattern =>
    rw [ho] at h
    obtain ⟨s, hs, ht⟩ := h
    exact (Archive.attests_ask hs ht).bind fun _ ha => .pure ⟨ha, .refl f⟩
  | literal =>
    rw [ho] at h
    exact .pure ⟨h, .refl f⟩
  | composite traits a =>
    rw [ho] at h
    refine .pure ⟨h.answer (p.agrees_refl _), rfl, fun β q hq => ?_⟩
    unfold Attests at hq ⊢
    rw [ho] at hq
    exact Analysis.Attests.ask h (p.agrees_refl _) hq

theorem Attests.congr (h : f.Attests ledger p r) (ho : g.origin = f.origin)
    (hl : f.isLiteral → p.ofLiteral g.source = p.ofLiteral f.source)
    (ht : p.Agrees true f.source g.source) : g.Attests ledger p r := by
  unfold Attests at h ⊢
  rw [ho]
  cases hf : f.origin with
  | native pattern =>
    rw [hf] at h
    obtain ⟨s, hs, ha⟩ := h
    exact ⟨s, hs, ha.trans ht⟩
  | literal =>
    rw [hf] at h
    simp only [hl (by simp [isLiteral, hf])]
    exact h.congr ht
  | composite traits a =>
    rw [hf] at h
    exact h.congr ht

end Fragment

-- ---------------------------------------------------------------------------
-- The plan of an assembly
-- ---------------------------------------------------------------------------

namespace Entry

/-- Wraps a source that alternates. What is said of the group is found by
looking at it. -/
def protect (e : Entry) : Entry :=
  if alternates e.source then ⟨grouped e.source, Source.references (grouped e.source)⟩ else e

def number (count : Word) (e : Entry) : Except Error (Piece × Nat × Bool) := do
  let source ← renumber e.source count
  return (⟨source, e.references.final⟩, captureCount e.source, e.references.present)

def numberAll (count : Word) : List Entry → Except Error Numbered
  | [] => return ⟨[], 0, false⟩
  | e :: rest => do
    let (piece, captures, hasReferences) ← e.number count
    let behind ← Word.add count captures
    let others ← numberAll behind rest
    return ⟨piece :: others.pieces, captures + others.captures,
      hasReferences || others.hasReferences⟩

theorem numberAll_cons_ok {count : Word} {e : Entry} {rest : List Entry} {n : Numbered} :
    numberAll count (e :: rest) = .ok n ↔ ∃ source behind others,
      renumber e.source count = .ok source ∧
      behind.toNat = count.toNat + captureCount e.source ∧ numberAll behind rest = .ok others ∧
      n = ⟨⟨source, e.references.final⟩ :: others.pieces,
        captureCount e.source + others.captures,
        e.references.present || others.hasReferences⟩ := by
  simp only [numberAll, number, bind_ok, pure_ok, Word.add_eq_ok]
  constructor
  · rintro ⟨_, ⟨source, hs, rfl⟩, behind, hbehind, others, hothers, rfl⟩
    exact ⟨source, behind, others, hs, hbehind, hothers, rfl⟩
  · rintro ⟨source, behind, others, hs, hbehind, hothers, rfl⟩
    exact ⟨_, ⟨source, hs, rfl⟩, behind, hbehind, others, hothers, rfl⟩

end Entry

/-- A member of an assembly, with what it will say about references. -/
structure Member where
  fragment : Fragment
  references : References

namespace Member

def entry (m : Member) : Entry := ⟨m.fragment.source, m.references⟩

def adapt (fold wide : Bool) (m : Member) : Except Error Member :=
  (m.fragment.adapt fold wide).map (⟨·, m.references⟩)

theorem adapt_ok {fold wide : Bool} {m m' : Member} : m.adapt fold wide = .ok m' ↔
    ∃ g, m.fragment.adapt fold wide = .ok g ∧ ⟨g, m.references⟩ = m' := by
  rw [adapt, map_ok]

/-- A member with a closed source that is known to answer what assembling asks,
and says so if it holds a reference. -/
structure Ready (ledger : Ledger) (m : Member) : Prop where
  closed : Closed m.fragment.source
  present : (Source.references m.fragment.source).present → m.references.present
  captures : m.fragment.Attests ledger .captures m.references
  references : m.fragment.Attests ledger .references m.references
  alternates : m.fragment.Attests ledger .alternates m.references

/-- Such a member that also says so if a reference ends it. -/
structure Sure (ledger : Ledger) (m : Member) : Prop extends m.Ready ledger where
  final : (Source.references m.fragment.source).final → m.references.final

theorem Sure.covers {ledger : Ledger} {m : Member} (h : m.Sure ledger) :
    m.references.Covers (Source.references m.fragment.source) := ⟨h.present, h.final⟩

end Member

/-- Fragments that are ready to answer, with their entries. -/
def Member.Listed (ledger : Ledger) (f : Fragment) (e : Entry) : Prop :=
  ∃ m : Member, m.fragment = f ∧ m.entry = e ∧ m.Ready ledger

def plan (fold : Bool) (stance : Stance) (layout : Layout) (directed : Bool)
    (members : List Member) : Except Error Fragment := do
  let members ← members.mapM (Member.adapt fold stance.agreement.wide)
  let entries := members.map Member.entry
  let entries := if !layout.alternation && layout.wrap then entries.map Entry.protect else entries
  let numbered ← Entry.numberAll layout.offset entries
  return numbered.toFragment layout stance directed

section

variable {fold directed : Bool} {stance : Stance} {layout : Layout} {ms : List Member}

namespace Member

variable {es : List Entry}

def entries (fold : Bool) (stance : Stance) (layout : Layout) (ms : List Member) :
    Except Error (List Entry) := do
  let members ← ms.mapM (adapt fold stance.agreement.wide)
  let entries := members.map entry
  return if !layout.alternation && layout.wrap then entries.map Entry.protect else entries

theorem entries_ok : entries fold stance layout ms = .ok es ↔
    ∃ ms', ms.mapM (adapt fold stance.agreement.wide) = .ok ms' ∧
      (if !layout.alternation && layout.wrap then (ms'.map entry).map Entry.protect
        else ms'.map entry) = es := by
  simp only [entries, bind_ok, pure_ok]

/-- What adapting and wrapping keep can be said of every entry. -/
theorem forall_entries {P : Entry → Prop} (he : entries fold stance layout ms = .ok es)
    (hadapt : ∀ m ∈ ms, ∀ m', m.adapt fold stance.agreement.wide = .ok m' → P m'.entry)
    (hprotect : ∀ e, P e → P e.protect) : ∀ e ∈ es, P e := by
  obtain ⟨ms', hms, rfl⟩ := entries_ok.mp he
  have hall : ∀ e ∈ ms'.map entry, P e := by
    rw [List.forall_mem_map]
    exact forall_mem_of_forall₂ (forall₂_mono (mapM_ok hms) hadapt)
  split
  · exact List.forall_mem_map.mpr fun e he => hprotect e (hall e he)
  · exact hall

end Member

theorem plan_eq (fold : Bool) (stance : Stance) (layout : Layout) (directed : Bool)
    (ms : List Member) : plan fold stance layout directed ms = (do
      let es ← Member.entries fold stance layout ms
      let n ← Entry.numberAll layout.offset es
      return n.toFragment layout stance directed) := by
  unfold plan Member.entries
  cases ms.mapM (Member.adapt fold stance.agreement.wide) <;> rfl

theorem plan_ok {f : Fragment} : plan fold stance layout directed ms = .ok f ↔
    ∃ es, Member.entries fold stance layout ms = .ok es ∧
      ∃ n, Entry.numberAll layout.offset es = .ok n ∧ n.toFragment layout stance directed = f := by
  simp only [plan_eq, bind_ok, pure_ok]

end

-- ---------------------------------------------------------------------------
-- Assembling comes to the plan
-- ---------------------------------------------------------------------------

namespace Member.Ready

variable {f g : Fragment} {fold wide : Bool}

theorem follows (h : Ready ledger ⟨f, r⟩) (hg : f.Follows ledger r g) : Ready ledger ⟨g, r⟩ where
  closed := hg.source ▸ h.closed
  present := hg.source ▸ h.present
  captures := hg.attests _ _ h.captures
  references := hg.attests _ _ h.references
  alternates := hg.attests _ _ h.alternates

theorem respelled (h : Ready ledger ⟨f, r⟩) (hg : f.Respelled g) : Ready ledger ⟨g, r⟩ where
  closed := h.closed.padded (hg.padded true)
  present := h.closed.agrees_references (hg.padded true) rfl ▸ h.present
  captures :=
    h.captures.congr hg.origin (hg.ofLiteral _) (h.closed.agrees_captures (hg.padded true))
  references :=
    h.references.congr hg.origin (hg.ofLiteral _) (h.closed.agrees_references (hg.padded true))
  alternates :=
    h.alternates.congr hg.origin (hg.ofLiteral _) (h.closed.agrees_alternates (hg.padded true))

theorem adapted {m m' : Member} (h : m.Ready ledger) (hm : m.adapt fold wide = .ok m') :
    m'.Ready ledger := by
  obtain ⟨g, hg, rfl⟩ := adapt_ok.mp hm
  exact h.respelled (Fragment.respelled_adapt hg)

theorem grouped (h : Ready ledger ⟨f, r⟩) (ha : Source.alternates f.source) :
    Ready ledger ⟨f.grouped, Source.references f.grouped.source⟩ where
  closed := h.closed.grouped ha
  present := id
  captures := rfl
  references := rfl
  alternates := rfl

theorem protect (h : Ready ledger ⟨f, r⟩) :
    Keeps (Archive.Attests ledger) f.protect
      (Member.Listed ledger · (Entry.protect ⟨f.source, r⟩)) := by
  refine h.alternates.ask.bind ?_
  rintro ⟨b, g⟩ ⟨hb, hg⟩
  have hready := h.follows hg
  have hs : g.source = f.source := hg.source
  have hb : b = Source.alternates g.source := hs ▸ hb
  unfold Entry.protect
  rw [← hs, ← hb]
  cases b with
  | true => exact .pure ⟨_, rfl, rfl, hready.grouped hb.symm⟩
  | false => exact .pure ⟨⟨g, r⟩, rfl, rfl, hready⟩

theorem number (h : Ready ledger ⟨f, r⟩) (count : Word) :
    Settles (Archive.Attests ledger) (f.number count) Eq (Entry.number count ⟨f.source, r⟩) := by
  refine .after h.references.ask ?_
  rintro ⟨answer, g⟩ ⟨ha, hg⟩
  obtain rfl : answer = r := ha
  have hs : g.source = f.source := hg.source
  have hready := h.follows hg
  have counted : ∀ t, renumber g.source count = .ok t → Settles (Archive.Attests ledger)
      (do
        let x ← ({ g with source := t } : Fragment).ask .captures
        return (⟨x.2.source, answer.final⟩, x.1, answer.present) :
        ExceptT Error (StateM Archive) (Piece × Nat × Bool))
      Eq (.ok (⟨t, answer.final⟩, captureCount g.source, answer.present)) := by
    intro t ht
    have hcaptures := hready.closed.captures_renumber ht
    have hcounted : ({ g with source := t } : Fragment).Attests ledger .captures answer :=
      hready.captures.congr rfl (fun _ => rfl) hcaptures
    refine .after hcounted.ask ?_
    rintro ⟨n, g'⟩ ⟨hn, hg'⟩
    have hs' : g'.source = t := hg'.source
    obtain rfl : n = captureCount t := hn
    exact .pure (by rw [hs', hcaptures])
  unfold Entry.number
  rw [← hs]
  simp only
  split
  · refine (Settles.ofExcept (Alike.refl _)).bind ?_
    rintro t _ ⟨rfl, ht⟩
    exact counted t ht
  · rename_i hp
    have hnone : (Source.references g.source).present = false := by
      by_contra hactual
      exact hp (hready.present (by simpa using hactual))
    have ht := renumber_of_absent hnone count
    rw [ht]
    exact counted _ ht

theorem numberAll {ms : List Member} (h : ∀ m ∈ ms, m.Ready ledger) (count : Word) :
    Settles (Archive.Attests ledger) (Fragment.numberAll count (ms.map Member.fragment)) Eq
      (Entry.numberAll count (ms.map Member.entry)) := by
  induction ms generalizing count with
  | nil => exact .pure rfl
  | cons m ms ih =>
    rw [List.forall_mem_cons] at h
    refine (h.1.number count).bind ?_
    rintro ⟨piece, captures, present⟩ _ rfl
    refine (Settles.ofExcept (Alike.refl _)).bind ?_
    rintro behind _ ⟨rfl, -⟩
    refine (ih h.2 behind).bind ?_
    rintro others _ rfl
    exact .pure rfl

end Member.Ready

theorem Member.Sure.adapted {fold wide : Bool} {m m' : Member} (h : m.Sure ledger)
    (hm : m.adapt fold wide = .ok m') : m'.Sure ledger := by
  refine ⟨h.toReady.adapted hm, ?_⟩
  obtain ⟨g, hg, rfl⟩ := adapt_ok.mp hm
  have hpadded := (Fragment.respelled_adapt hg).padded true
  exact h.closed.agrees_references hpadded rfl ▸ h.final

theorem Member.listed {fs : List Fragment} {es : List Entry}
    (h : List.Forall₂ (Member.Listed ledger) fs es) :
    ∃ ms : List Member, ms.map Member.fragment = fs ∧ ms.map Member.entry = es ∧
      ∀ m ∈ ms, m.Ready ledger := by
  induction h with
  | nil => exact ⟨[], rfl, rfl, by simp⟩
  | cons h _ ih =>
    obtain ⟨m, rfl, rfl, hm⟩ := h
    obtain ⟨ms, rfl, rfl, hms⟩ := ih
    exact ⟨m :: ms, rfl, rfl, List.forall_mem_cons.mpr ⟨hm, hms⟩⟩

/-- Assembling members that are ready to answer comes to the plan. -/
theorem assemble_settles {ms : List Member} (h : ∀ m ∈ ms, m.Ready ledger) (fold : Bool)
    (stance : Stance) (layout : Layout) (directed : Bool) :
    Settles (Archive.Attests ledger)
      (assemble fold stance layout directed (ms.map Member.fragment)) Eq
      (plan fold stance layout directed ms) := by
  have hadapt : Alike (List.Forall₂ fun g m => m.fragment = g ∧ m.Ready ledger)
      ((ms.map Member.fragment).mapM (Fragment.adapt fold stance.agreement.wide))
      (ms.mapM (Member.adapt fold stance.agreement.wide)) := by
    rw [List.mapM_map]
    refine .mapM fun m hm => ?_
    rw [Function.comp_apply, Member.adapt]
    cases hg : m.fragment.adapt fold stance.agreement.wide with
    | error e => exact .error e
    | ok g => exact .ok ⟨rfl, (h m hm).adapted (Member.adapt_ok.mpr ⟨g, hg, rfl⟩)⟩
  have numbered : ∀ gs es, List.Forall₂ (Member.Listed ledger) gs es →
      Settles (Archive.Attests ledger)
        (do
          let numbered ← Fragment.numberAll layout.offset gs
          return numbered.toFragment layout stance directed)
        Eq (do
          let numbered ← Entry.numberAll layout.offset es
          return numbered.toFragment layout stance directed) := by
    intro gs es hlisted
    obtain ⟨ms, rfl, rfl, hms⟩ := Member.listed hlisted
    refine (Member.Ready.numberAll hms layout.offset).bind ?_
    rintro n _ rfl
    exact .pure rfl
  refine (Settles.ofExcept hadapt).bind fun gs ms hgs => ?_
  simp only
  split
  · have hprotect : Settles (Archive.Attests ledger)
        (gs.mapM fun g => (g.protect : ExceptT Error (StateM Archive) Fragment))
        (List.Forall₂ (Member.Listed ledger)) (ms.mapM fun m => .ok m.entry.protect) := by
      refine .mapM hgs ?_
      rintro _ m ⟨rfl, hm⟩
      exact .lift hm.protect
    have hpure : ms.mapM (fun m => .ok m.entry.protect) =
        (.ok (ms.map fun m => m.entry.protect) : Except Error (List Entry)) := List.mapM_pure
    rw [hpure] at hprotect
    rw [List.map_map]
    exact hprotect.bind numbered
  · refine numbered gs _ ?_
    rw [List.forall₂_map_right_iff]
    exact hgs.imp fun _ m hm => ⟨m, hm.1, rfl, hm.2⟩

-- ---------------------------------------------------------------------------
-- Leaves with known answers
-- ---------------------------------------------------------------------------

theorem Analysis.Honest.attests {a : Analysis} (h : a.Honest s) (p : Property α) :
    a.Attests p s (a.references.getD (Source.references s)) := by
  cases p with
  | captures =>
    cases ha : a.captures with
    | none => simp [Attests, get?, ha, Property.Expects, Property.compute]
    | some n => simpa [Attests, get?, ha, Property.Expects] using h.captures n ha
  | references => rfl
  | alternates =>
    cases ha : a.alternates with
    | none => simp [Attests, get?, ha, Property.Expects, Property.compute]
    | some b => simpa [Attests, get?, ha, Property.Expects] using h.alternates b ha
  | singleGroup => trivial

namespace Fragment

variable {archive : Archive} {fs : List Fragment} {f : Fragment}

def member (archive : Archive) (f : Fragment) : Member :=
  ⟨f, (f.analysis archive).references.getD (Source.references f.source)⟩

def accounts (archive : Archive) (fs : List Fragment) : Ledger := fun n =>
  ((catalogue fs).source? n).map fun s =>
    ⟨s, (archive.analysis n).references.getD (Source.references s)⟩

theorem references_ofLiteral (t : Text) : Source.references (ofLiteral t) = .none := by
  have h : References.none.Covers (Source.references (ofLiteral t)) :=
    reports_ofLiteral .references t rfl
  cases hr : Source.references (ofLiteral t) with
  | mk present final => simpa [hr, References.Covers, References.none] using h

theorem attests_of_proper (h : ∀ f ∈ fs, f.Proper Closed archive) :
    archive.Attests (accounts archive fs) := by
  intro n e he β p
  obtain ⟨s, hs, rfl⟩ := Option.map_eq_some_iff.mp he
  obtain ⟨f, hf, hr, rfl⟩ := catalogue_eq_some hs
  obtain ⟨pattern, ho, rfl⟩ := record?_eq_some hr
  have hp := h f hf
  simp only [Proper, ho] at hp
  exact hp.2.attests p

theorem Proper.honest (hp : f.Proper Closed archive) :
    Closed f.source ∧ (f.analysis archive).Honest f.source := by
  unfold Proper at hp
  unfold analysis
  cases ho : f.origin with
  | literal =>
    rw [ho] at hp
    obtain ⟨t, ht⟩ := hp
    exact ⟨ht ▸ closed_ofLiteral t, (Analysis.reports_empty _).honest⟩
  | native p => simpa [ho] using hp
  | composite traits a => simpa [ho] using hp

theorem Proper.attests (hp : f.Proper Closed archive) (hs : Sharing fs) (hf : f ∈ fs)
    (p : Property α) :
    f.Attests (accounts archive fs) p (f.member archive).references := by
  have honest := hp.honest.2
  unfold Proper at hp
  unfold member
  unfold analysis at honest ⊢
  unfold Attests
  cases ho : f.origin with
  | native pattern =>
    refine ⟨f.source, ?_, p.agrees_refl _⟩
    simp only [accounts, catalogue_of_mem hs hf (show f.record? = some pattern.number by
      rw [record?, ho]), Option.map_some]
  | literal =>
    rw [ho] at hp
    obtain ⟨t, ht⟩ := hp
    rw [ht]
    cases p with
    | captures => exact (captureCount_ofLiteral t).symm
    | references => exact (references_ofLiteral t).symm
    | alternates => exact (alternates_ofLiteral t).symm
    | singleGroup => trivial
  | composite traits a =>
    rw [ho] at honest
    exact honest.attests p

theorem Proper.covers (hp : f.Proper Closed archive) :
    (f.member archive).references.Covers (Source.references f.source) := by
  unfold member
  cases ha : (f.analysis archive).references with
  | none => exact ⟨id, id⟩
  | some r => exact hp.honest.2.references r ha

theorem Proper.sure (hp : f.Proper Closed archive) (hs : Sharing fs) (hf : f ∈ fs) :
    (f.member archive).Sure (accounts archive fs) where
  closed := hp.honest.1
  present := hp.covers.1
  final := hp.covers.2
  captures := hp.attests hs hf _
  references := hp.attests hs hf _
  alternates := hp.attests hs hf _

end Fragment

end Splice
