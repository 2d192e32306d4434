import Splice.Proofs.Answers
import Splice.Proofs.Plans
import Splice.Proofs.Seams

/-!
# What a quantifier repeats

A fragment is decorated with a quantifier by writing the quantifier behind it, or
behind a group around it. What then stands in front of the quantifier is one
unit: a token, a class or a group. A single bar is the exception: it is one
character and gets no group, although it separates two empty alternatives.
-/

namespace Splice

open Lexer

variable {t o c : Token} {ts inner : List Token} {s : Text}

-- ---------------------------------------------------------------------------
-- Units
-- ---------------------------------------------------------------------------

/-- A class from its opening bracket to the first bracket that closes it. -/
def IsClass (ts : List Token) : Prop :=
  ∃ o inner c, ts = o :: inner ++ [c] ∧ o.operator? = some (.classOpen .plain) ∧
    (∀ t ∈ inner, t.inClass ∧ t.kind ≠ .classClose) ∧ c.inClass ∧ c.kind = .classClose

/-- A group, no lookaround, from its opening parenthesis to the one that closes it. -/
def IsGroup (ts : List Token) : Prop :=
  ∃ o inner c g, ts = o :: inner ++ [c] ∧ o.operator? = some (.groupOpen g) ∧
    (∀ m, g ≠ .deferred m) ∧ g.isLookaround = false ∧ c.operator? = some .groupClose ∧
    (∀ front, front <+: inner → 0 ≤ (front.map Token.nesting).sum) ∧
    (inner.map Token.nesting).sum = 0

/-- A source that a quantifier behind it repeats as a whole. -/
inductive IsUnit (s : Text) : Prop
  | token (t : Token) (single : lex s = [t])
  | charClass (closed : IsClass (lex s))
  | group (closed : IsGroup (lex s))

theorem isBar_eq_false (h : t.inClass ∨ t.kind ≠ .pipe) : t.isBar = false := by
  unfold Token.isBar Token.operator?
  cases hc : t.inClass with
  | true => rfl
  | false =>
    have hk : t.kind ≠ .pipe := h.resolve_left (by simp [hc])
    simpa using hk

theorem isBar_of_operator {k : TokenKind} (h : t.operator? = some k) (hk : k ≠ .pipe) :
    t.isBar = false := by
  rw [Token.isBar, h]
  simpa using hk

namespace Source

theorem alternatesFrom_append (depth : Int) (ts us : List Token) :
    alternatesFrom depth (ts ++ us) =
      (alternatesFrom depth ts || alternatesFrom (depth + (ts.map Token.nesting).sum) us) := by
  induction ts generalizing depth with
  | nil => simp [alternatesFrom]
  | cons t ts ih => simp [alternatesFrom, ih, Bool.or_assoc, Int.add_assoc]

theorem alternatesFrom_inside {depth : Int} (hd : 0 < depth)
    (h : ∀ front, front <+: ts → 0 ≤ (front.map Token.nesting).sum) :
    alternatesFrom depth ts = false := by
  have inside : ∀ d : Int, (∀ front, front <+: ts → 0 < d + (front.map Token.nesting).sum) →
      alternatesFrom d ts = false := by
    clear h
    induction ts with
    | nil => exact fun _ _ => rfl
    | cons t ts ih =>
      intro d h
      have h0 : d ≠ 0 := by
        have := h [] List.nil_prefix
        simp only [List.map_nil, List.sum_nil, Int.add_zero] at this
        omega
      have hrest := ih (d + t.nesting) fun front hf => by
        have := h (t :: front) (List.prefix_cons_inj t |>.mpr hf)
        simpa [Int.add_assoc] using this
      simp [alternatesFrom, h0, hrest]
  exact inside depth fun front hf => by have := h front hf; omega

theorem alternatesFrom_of_not_bar {depth : Int} (h : ∀ t ∈ ts, t.isBar = false) :
    alternatesFrom depth ts = false := by
  induction ts generalizing depth with
  | nil => rfl
  | cons t ts ih =>
    rw [List.forall_mem_cons] at h
    rw [alternatesFrom, h.1, Bool.false_and, Bool.false_or, ih h.2]

end Source

open Source

theorem IsClass.not_alternates (h : IsClass ts) : alternatesFrom 0 ts = false := by
  obtain ⟨o, inner, c, rfl, ho, hinner, hc, -⟩ := h
  refine alternatesFrom_of_not_bar fun t ht => ?_
  rw [List.cons_append, List.mem_cons, List.mem_append, List.mem_singleton] at ht
  obtain rfl | ht | rfl := ht
  · exact isBar_of_operator ho (by decide)
  · exact isBar_eq_false (.inl (hinner t ht).1)
  · exact isBar_eq_false (.inl hc)

theorem IsGroup.not_alternates (h : IsGroup ts) : alternatesFrom 0 ts = false := by
  obtain ⟨o, inner, c, g, rfl, ho, hg, -, hc, hinner, hsum⟩ := h
  have hopen : o.nesting = 1 := by
    unfold Token.nesting
    rw [ho]
    cases g with
    | deferred m => exact absurd rfl (hg m)
    | _ => rfl
  have hobar : o.isBar = false := isBar_of_operator ho (by simp)
  have hcbar : c.isBar = false := isBar_of_operator hc (by decide)
  rw [List.cons_append, alternatesFrom, hobar, hopen, alternatesFrom_append, hsum,
    alternatesFrom_inside (by decide) hinner]
  simp [alternatesFrom, hcbar]

-- ---------------------------------------------------------------------------
-- What is found to be a unit
-- ---------------------------------------------------------------------------

theorem Lexed.not_close {context : Context} (h : Lexed context ts) (hc : ∀ t ∈ ts, t.inClass) :
    ∀ t ∈ ts.dropLast, t.kind ≠ .classClose := by
  induction h with
  | nil => simp
  | @cons context a r k ts read rest ih =>
    rw [List.forall_mem_cons] at hc
    cases rest with
    | nil => simp
    | @cons _ b u l ts read' rest' =>
      rw [List.dropLast_cons_cons, List.forall_mem_cons]
      refine ⟨?_, ih hc.2⟩
      rintro rfl
      cases hc.2 _ List.mem_cons_self

theorem isClass_of_isSingleClass {context : Context} (hlexed : Lexed context ts)
    (h : isSingleClass ts) : IsClass ts := by
  match ts, h with
  | o :: second :: rest, h =>
    simp only [isSingleClass, Bool.and_eq_true, beq_iff_eq, List.all_eq_true] at h
    obtain ⟨⟨ho, hlast⟩, hinner⟩ := h
    generalize hus : second :: rest = us at *
    have hne : us ≠ [] := by
      rintro rfl
      cases hus
    rw [List.getLast?_eq_some_getLast hne, Option.any_some, Bool.and_eq_true, beq_iff_eq] at hlast
    have hsplit : us = us.dropLast ++ [us.getLast hne] := (List.dropLast_append_getLast hne).symm
    have hall : ∀ t ∈ us, t.inClass := by
      rw [hsplit, List.forall_mem_append, List.forall_mem_singleton]
      exact ⟨hinner, hlast.2⟩
    cases hlexed with
    | cons read hlexed =>
      refine ⟨_, us.dropLast, us.getLast hne, ?_, ho, fun t ht => ?_, hlast.2, hlast.1⟩
      · rw [List.cons_append, ← hsplit]
      · exact ⟨hinner t ht, hlexed.not_close hall t ht⟩

theorem closer_of_closesAtEnd {depth : Nat} (h : closesAtEnd (depth + 1) ts) :
    ∃ inner c, ts = inner ++ [c] ∧ c.operator? = some .groupClose ∧
      (∀ front, front <+: inner → 0 ≤ depth + (front.map Token.nesting).sum) ∧
      depth + (inner.map Token.nesting).sum = 0 := by
  induction ts generalizing depth with
  | nil => cases h
  | cons t ts ih =>
    -- A token that is not the closer leaves some group open.
    have onward : ∀ d : Nat, (depth : Int) + t.nesting = d → closesAtEnd (d + 1) ts →
        ∃ inner c, t :: ts = inner ++ [c] ∧ c.operator? = some .groupClose ∧
          (∀ front, front <+: inner → 0 ≤ depth + (front.map Token.nesting).sum) ∧
          depth + (inner.map Token.nesting).sum = 0 := by
      intro d hd hclose
      obtain ⟨inner, c, rfl, hc, hfront, hsum⟩ := ih hclose
      refine ⟨t :: inner, c, rfl, hc, fun front hf => ?_, ?_⟩
      · obtain rfl | ⟨rest, rfl, hrest⟩ := List.prefix_cons_iff.mp hf
        · simp
        · have := hfront rest hrest
          rw [List.map_cons, List.sum_cons]
          omega
      · rw [List.map_cons, List.sum_cons]
        omega
    unfold closesAtEnd at h
    split at h
    · rename_i ho
      refine onward depth ?_ h
      simp [Token.nesting, ho]
    · rename_i g hg ho
      refine onward (depth + 1) ?_ h
      have hopens : t.nesting = 1 := by
        unfold Token.nesting
        rw [ho]
        cases g with
        | deferred m => exact absurd rfl (hg m)
        | _ => rfl
      rw [hopens]
      rfl
    · rename_i ho
      have hcloses : t.nesting = -1 := by simp [Token.nesting, ho]
      cases depth with
      | zero =>
        obtain rfl := List.isEmpty_iff.mp h
        refine ⟨[], t, rfl, ho, fun front hf => ?_, rfl⟩
        obtain rfl := List.prefix_nil.mp hf
        exact Int.le_refl 0
      | succ depth =>
        refine onward depth ?_ h
        rw [hcloses]
        omega
    · rename_i hopener hcloser
      refine onward depth ?_ h
      unfold Token.nesting
      split <;> simp_all

theorem Token.operator_of_context (h : t.context = .pattern) : t.operator? = some t.kind := by
  simp [Token.operator?, Token.inClass, h]

/-- A source that is one group is a marker, or a group that is a lookaround only
if it begins like one. -/
theorem unit_of_isSingleGroup (h : isSingleGroup s)
    (ha : ∀ g, (lex s).head?.map Token.kind = some (.groupOpen g) → g.isLookaround = false) :
    (∃ t, lex s = [t] ∧ t.kind ≠ .pipe) ∨ IsGroup (lex s) := by
  unfold isSingleGroup at h
  have hlexed : Lexed .pattern (lex s) := lexed_lexFrom .pattern s
  cases hlex : lex s with
  | nil => simp [hlex] at h
  | cons o ts =>
    rw [hlex] at h hlexed ha
    simp only at h
    split at h
    · rename_i g hg
      have hlook := ha g (by simp [hg])
      have ho : o.operator? = some (.groupOpen g) := by
        cases hlexed
        exact hg ▸ Token.operator_of_context rfl
      have hopen : (∀ m, g ≠ .deferred m) → IsGroup (o :: ts) := by
        intro hm
        have hclose : closesAtEnd 1 ts := by
          unfold closesAtEnd at h
          rw [ho] at h
          cases g with
          | deferred m => exact absurd rfl (hm m)
          | _ => exact h
        obtain ⟨inner, c, rfl, hc, hfront, hsum⟩ := closer_of_closesAtEnd hclose
        exact ⟨o, inner, c, g, rfl, ho, hm, hlook, hc, by simpa using hfront, by simpa using hsum⟩
      cases g with
      | deferred m =>
        unfold closesAtEnd at h
        rw [ho] at h
        obtain rfl : ts = [] := List.isEmpty_iff.mp h
        exact .inl ⟨o, rfl, by simp [hg]⟩
      | _ => exact .inr (hopen (by simp))
    · cases h

theorem of_repeatability_whole {wide : Bool} (h : repeatability wide s = .whole) :
    s.length = 1 ∨ (∃ t, lex s = [t] ∧ t.kind.isAtomic wide) ∨ isSingleClass (lex s) := by
  unfold repeatability at h
  simp only at h
  split at h
  · cases h
  · split at h
    · exact .inl ‹_›
    · split at h <;> split at h
      · rename_i t ht hatomic
        exact .inr (.inl ⟨t, ht, hatomic⟩)
      · cases h
      · exact .inr (.inr ‹_›)
      · cases h

theorem of_repeatability_wholeIfGroup {wide assertion : Bool}
    (h : repeatability wide s = .wholeIfGroup assertion) :
    assertion = match (lex s).head?.map Token.kind with
      | some (.groupOpen g) => g.isLookaround
      | _ => false := by
  unfold repeatability at h
  simp only at h
  split at h
  · cases h
  · split at h
    · cases h
    · split at h <;> split at h
      · cases h
      · exact (Repeatability.wholeIfGroup.inj h).symm
      · cases h
      · exact (Repeatability.wholeIfGroup.inj h).symm

theorem not_goesOn_close (u : Text) : goesOn u ')' = false := by
  have braced : ∀ (allowed : Char → Bool) (v : Text), allowed ')' = false →
      goesOnBraced allowed v ')' = false := by
    intro allowed v ha
    unfold goesOnBraced
    split <;> simp [ha]
  unfold goesOn
  split
  · unfold goesOnEscape
    split
    · split <;> simp [Text.isOctalDigit]
    · simp [Text.isHexDigit, Text.hexDigit?]
    · rw [braced _ _ rfl]
      simp [Text.isHexDigit, Text.hexDigit?]
    · simp
    · exact braced _ _ rfl
    · exact braced _ _ rfl
    · rfl
  · unfold goesOnBounds
    split <;> simp
  · rfl

theorem eq_bar_of_scan {context : Context} {a : Char} {u : Text} {n : Nat}
    (h : scan context a u = (.pipe, n)) : a = '|' := by
  unfold scan at h
  split at h
  case h_6 => rfl
  all_goals
    repeat' split at h
    all_goals cases h

theorem lex_singleton (a : Char) :
    lex [a] = [⟨(scan .pattern a []).1, [a], .pattern⟩] := by
  rw [lex, lexFrom_cons]
  simp [lexFrom_nil]

theorem unit_of_needsWrapping {wide : Bool} (hbar : s ≠ ['|'])
    (h : needsWrapping wide s = .ok false) : IsUnit s ∧ alternates s = false := by
  have token : ∀ t, lex s = [t] → t.kind ≠ .pipe → IsUnit s ∧ alternates s = false := by
    intro t ht hk
    refine ⟨.token t ht, ?_⟩
    rw [alternates, ht]
    exact alternatesFrom_of_not_bar (by simpa using isBar_eq_false (.inr hk))
  have charClass : IsClass (lex s) → IsUnit s ∧ alternates s = false := fun h =>
    ⟨.charClass h, h.not_alternates⟩
  have hlexed : Lexed .pattern (lex s) := lexed_lexFrom .pattern s
  unfold needsWrapping at h
  split at h
  · cases h
  · rename_i hwhole
    obtain hlength | ⟨t, ht, hatomic⟩ | hsingle := of_repeatability_whole hwhole
    · obtain ⟨a, rfl⟩ := List.length_eq_one_iff.mp hlength
      exact token _ (lex_singleton a) fun hk => hbar (by rw [eq_bar_of_scan (Prod.ext hk rfl)])
    · refine token t ht fun hk => ?_
      rw [hk] at hatomic
      cases hatomic
    · exact charClass (isClass_of_isSingleClass hlexed hsingle)
  · rename_i assertion hgroup
    unfold wrapsGiven at h
    split at h
    · cases h
    · split at h
      · cases h
      · rename_i hsingle hassertion
        have hlook : ∀ g, (lex s).head?.map Token.kind = some (.groupOpen g) →
            g.isLookaround = false := by
          intro g hg
          obtain rfl := of_repeatability_wholeIfGroup hgroup
          simpa [hg] using hassertion
        obtain ⟨t, ht, hk⟩ | hclosed := unit_of_isSingleGroup (by simpa using hsingle) hlook
        · exact token t ht hk
        · exact ⟨.group hclosed, hclosed.not_alternates⟩

theorem lex_close (hs : Closed s) :
    lex (s ++ [')']) = lex s ++ [⟨.groupClose, [')'], .pattern⟩] := by
  have hlex : lex [')'] = [⟨.groupClose, [')'], .pattern⟩] := lex_singleton ')'
  rw [← hlex]
  refine lex_append hs ?_ fun _ => rfl
  rw [runsInto, List.any_eq_false]
  intro ts _
  simp [not_goesOn_close]

theorem unit_grouped (hs : Closed s) : IsUnit (grouped s) ∧ alternates (grouped s) = false := by
  have hp : grouped s = '(' :: '?' :: ':' :: (s ++ [')']) := rfl
  cases ht : Marker.tail? ('?' :: ':' :: (s ++ [')'])) with
  | some a =>
    obtain ⟨-, hlength⟩ := flat_of_tail?_group hs ht
    have hscan : scan .pattern '(' ('?' :: ':' :: (s ++ [')'])) =
        (.groupOpen (.deferred a.1), s.length + 3) := by
      rw [scan_group, scanGroup, ht, ← hlength]
    have hlex : lex (grouped s) = [⟨.groupOpen (.deferred a.1), grouped s, .pattern⟩] := by
      rw [hp, lex, lexFrom_cons, hscan]
      simp [lexFrom_nil]
    refine ⟨.token _ hlex, ?_⟩
    rw [alternates, hlex]
    exact alternatesFrom_of_not_bar (by simpa using isBar_eq_false (.inr (by simp)))
  | none =>
    have hscan : scan .pattern '(' ('?' :: ':' :: (s ++ [')'])) = (.groupOpen .nonCapture, 2) := by
      rw [scan_group, scanGroup, ht]
    have hlex : lex (grouped s) = ⟨.groupOpen .nonCapture, "(?:".toList, .pattern⟩ ::
        lex s ++ [⟨.groupClose, [')'], .pattern⟩] := by
      rw [List.cons_append, ← lex_close hs, hp, lex, lexFrom_cons, hscan]
      rfl
    have hgroup : IsGroup (lex (grouped s)) :=
      ⟨_, lex s, _, .nonCapture, hlex, rfl, by simp, rfl, rfl, hs.nonneg, hs.balanced⟩
    exact ⟨.group hgroup, hgroup.not_alternates⟩

-- ---------------------------------------------------------------------------
-- Decorated fragments
-- ---------------------------------------------------------------------------

/-- A quantifier behind a fragment, or behind a group around it. -/
def Wrapping.quantifier (q : Text) : Wrapping := ⟨.quantifier, "(?:".toList, [')'], some q⟩

namespace Fragment

variable {archive archive' : Archive} {f g : Fragment} {wide : Bool} {q : Text}

theorem needsWrapping_eq (h : (f.analysis archive).Honest f.source) :
    (f.needsWrapping wide archive).1.1 = Source.needsWrapping wide f.source := by
  unfold needsWrapping Source.needsWrapping
  cases repeatability wide f.source with
  | nothing => rfl
  | whole => rfl
  | wholeIfGroup assertion =>
    have hask : (f.ask .singleGroup archive).1.1 = isSingleGroup f.source := by
      have hrecord : ∀ a : Analysis, a.Honest f.source →
          (a.ask .singleGroup f.source).1 = isSingleGroup f.source := by
        intro a ha
        rw [Analysis.ask_fst]
        cases hb : a.get? .singleGroup with
        | none => rfl
        | some b => exact ha.singleGroup b hb
      obtain ⟨source, origin⟩ := f
      cases origin with
      | native p => exact hrecord _ h
      | literal => rfl
      | composite traits a => exact hrecord _ h
    exact congrArg (wrapsGiven f.source · assertion) hask

theorem decorate_quantifier
    (h : (f.decorate wide (.quantifier q)).run archive = (.ok g, archive')) :
    ∃ wrapped, (f.needsWrapping (wide || f.isWide) archive).1.1 = .ok wrapped ∧
      g.source = (if wrapped then Source.grouped f.source else f.source) ++ q := by
  unfold decorate at h
  obtain ⟨⟨wrapped, f'⟩, _, happlies, h⟩ := run_bind_ok h
  have hsame := applies_ok happlies
  obtain ⟨⟨outcome, f''⟩, _, hasked, happlies⟩ := run_bind_ok happlies
  have houtcome : outcome = (f.needsWrapping (wide || f.isWide) archive).1.1 :=
    congrArg Prod.fst (Except.ok.inj (congrArg Prod.fst hasked)).symm
  obtain ⟨wrapped', _, hwrapped, happlies⟩ := run_bind_ok happlies
  obtain ⟨rfl, -⟩ := Prod.mk.inj (Except.ok.inj (congrArg Prod.fst happlies))
  refine ⟨wrapped', houtcome ▸ congrArg Prod.fst hwrapped, ?_⟩
  have hsuffix : (Wrapping.quantifier q).suffix.isNone = false := rfl
  simp only [hsuffix, Bool.and_false, Bool.false_eq_true, if_false] at h
  obtain rfl := Except.ok.inj (congrArg Prod.fst h)
  rw [← hsame.source]
  rfl

/-- A quantifier behind a fragment repeats all of it, unless that is a single
bar: what stands in front of the quantifier is the fragment or a group around
it, and it is one unit that does not alternate. What is said to need no group is
such a unit by itself. -/
theorem decorate_unit (hs : Closed f.source) (ha : (f.analysis archive).Honest f.source)
    (hbar : f.source ≠ ['|']) :
    (∀ g archive', (f.decorate wide (.quantifier q)).run archive = (.ok g, archive') →
      ∃ t, g.source = t ++ q ∧ (t = f.source ∨ t = Source.grouped f.source) ∧
        alternates t = false ∧ IsUnit t) ∧
      ∀ mode, (f.needsWrapping mode archive).1.1 = .ok false →
        alternates f.source = false ∧ IsUnit f.source := by
  have bare : ∀ mode, (f.needsWrapping mode archive).1.1 = .ok false →
      alternates f.source = false ∧ IsUnit f.source := fun mode h =>
    (unit_of_needsWrapping hbar (needsWrapping_eq ha ▸ h)).symm
  refine ⟨fun g archive' h => ?_, bare⟩
  obtain ⟨wrapped, hneeds, hsource⟩ := decorate_quantifier h
  cases wrapped with
  | true => exact ⟨_, hsource, .inr rfl, (unit_grouped hs).symm⟩
  | false => exact ⟨_, hsource, .inl rfl, bare _ hneeds⟩

def choice : Fragment := .composite "a|(b)".toList .plain .empty

theorem decorate_unit_choice :
    ∃ g, Except.toOption ((choice.decorate false (.quantifier ['+'])).run #[]).1 = some g ∧
      ∃ t, g.source = t ++ ['+'] ∧ t = "(?:a|(b))".toList ∧ alternates t = false ∧ IsUnit t := by
  have hclosed : Closed choice.source := by decide +kernel
  have hrun := Work.run_ok (choice.decorate false (.quantifier ['+'])) #[]
    (.composite "(?:a|(b))+".toList .plain .empty) (by decide +kernel)
  obtain ⟨t, ht, -, hbars, hunit⟩ :=
    (decorate_unit hclosed (Analysis.reports_empty _).honest (by decide)).1 _ _ hrun
  have : t = "(?:a|(b))".toList :=
    List.append_cancel_right (ht.symm.trans (by decide : _ = "(?:a|(b))".toList ++ ['+']))
  exact ⟨_, by decide +kernel, t, ht, this, hbars, hunit⟩

-- A bar alone is taken for a character, and gets no group.
example : Source.needsWrapping false ['|'] = .ok false ∧ alternates ['|'] = true := by
  decide +kernel

end Fragment

end Splice
