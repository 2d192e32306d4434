import Splice.Pattern
import Splice.Proofs.Outline

/-!
# Sources one behind the other

The outline of two sources in a row is the outline of the first followed by
that of the second, provided the first is closed and no digit runs into a
reference at its end. Tokens at the seam may still merge, but only into tokens
that leave no mark.
-/

namespace Splice

namespace Lexer

variable {fine : Bool} {context : Context} {c : Char} {k : TokenKind} {d e n : Nat} {t u y : Text}

-- ---------------------------------------------------------------------------
-- What a closed text has to contain
-- ---------------------------------------------------------------------------

/-- The character with which all tokens of a kind start, where there is one. -/
def lead? : TokenKind → Option Char
  | .escape _ => some '\\'
  | .groupOpen _ => some '('
  | .groupClose => some ')'
  | .classClose => some ']'
  | _ => none

theorem of_scan {a : Char} (h : scan context c t = (k, n)) (hk : lead? k = some a) : c = a := by
  unfold scan at h
  split at h
  all_goals
    repeat' split at h
    all_goals
      obtain ⟨rfl, -⟩ := Prod.mk.inj h
      first
        | exact Option.some.inj hk
        | simp [lead?] at hk

theorem le_of_depth?_mark {q : Sequel} {a : Token}
    (h : Mark.depth? d (a.mark? fine q).toList = some e) (hk : a.kind ≠ .groupClose) : d ≤ e := by
  by_cases ha : a.isWhole
  · rw [Token.depth?_mark ha] at h
    have hn : 0 ≤ a.nesting := by
      unfold Token.nesting
      have ho : a.operator? ≠ some .groupClose := by
        unfold Token.operator?
        split <;> simp [hk]
      split <;> simp_all
    split at h
    · simp only [Option.some.injEq] at h
      omega
    · simp at h
  · simp [Token.depth?_broken ha] at h

theorem close_mem {context : Context} {d : Nat} {t : Text}
    (h : Mark.depth? (d + 1) (outlineAt fine context t) = some 0) : ')' ∈ t := by
  match t with
  | [] => cases context <;> simp at h
  | c :: t =>
    obtain ⟨k, n, hs⟩ : ∃ k n, scan context c t = (k, n) := ⟨_, _, rfl⟩
    rw [outlineAt_cons hs, Mark.depth?_append, Option.bind_eq_some_iff] at h
    obtain ⟨e, hm, h⟩ := h
    by_cases hk : k = .groupClose
    · subst hk
      obtain rfl : c = ')' := of_scan hs rfl
      simp
    · obtain ⟨e, rfl⟩ := Nat.exists_eq_add_of_le (le_of_depth?_mark hm hk)
      rw [Nat.add_right_comm] at h
      exact List.mem_cons_of_mem _ (List.mem_of_mem_drop (close_mem h))
termination_by t.length
decreasing_by exact Text.length_drop_lt ..

theorem bracket_mem {d : Nat} {t : Text}
    (h : Mark.depth? d (outlineAt fine .charClass t) = some e) : ']' ∈ t := by
  match t with
  | [] => simp at h
  | c :: t =>
    obtain ⟨k, n, hs⟩ : ∃ k n, scan .charClass c t = (k, n) := ⟨_, _, rfl⟩
    rw [outlineAt_cons hs, Mark.depth?_append, Option.bind_eq_some_iff] at h
    obtain ⟨e, hm, h⟩ := h
    by_cases hk : k = .classClose
    · subst hk
      obtain rfl : c = ']' := of_scan hs rfl
      simp
    · have hc : contextAfter .charClass k = .charClass := by
        unfold contextAfter
        split <;> simp_all
      rw [hc] at h
      exact List.mem_cons_of_mem _ (List.mem_of_mem_drop (bracket_mem h))
termination_by t.length
decreasing_by exact Text.length_drop_lt ..

-- ---------------------------------------------------------------------------
-- The seam
-- ---------------------------------------------------------------------------

theorem mark?_before (a : Token) (q r : Sequel) :
    (a.mark? fine q).map (Mark.before r) = a.mark? fine (if q = .stop then r else q) := by
  unfold Token.mark?
  split
  · cases a.operator? with
    | none => rfl
    | some k => cases k with
      | escape e => cases e <;> cases fine <;> cases q <;> rfl
      | groupOpen g => cases g <;> cases fine <;> cases q <;> rfl
      | _ => rfl
  · rfl

/-- Text that is added behind a token shows in the mark of the token only where
nothing stood behind it. -/
theorem mark?_append (a : Token) (u y : Text) :
    a.mark? fine (.of (u ++ y)) = (a.mark? fine (.of u)).map (Mark.before (.of y)) := by
  rw [mark?_before]
  cases u with
  | nil => rfl
  | cons c u =>
    have : Sequel.of (c :: u) ≠ .stop := by
      rw [Sequel.of]
      split <;> simp
    rw [Sequel.of_append_of_ne_nil (by simp), if_neg this]

theorem outlineAt_grown {m : Nat} {k' : TokenKind} (hold : scan context c u = (k, n))
    (hnew : scan context c (u ++ y) = (k', m)) (hk : k.isPlain) (hk' : k'.isPlain)
    (ha : Absorbs u y m) :
    outlineAt fine context (c :: u) = outlineAt fine context [] ∧
      outlineAt fine context (c :: (u ++ y)) = outlineAt fine context y := by
  obtain ⟨l, rfl, hl, -, hu, hy⟩ := ha
  constructor
  · rw [outlineAt_plain hold hk]
    exact outlineAt_of_soft fun x hx => hu x (List.mem_of_mem_drop hx)
  · rw [outlineAt_plain hnew hk', List.drop_append, List.drop_eq_nil_of_le (by omega),
      List.nil_append, Nat.add_sub_cancel_left]
    exact (outlineAt_soft y l hy).symm

theorem close_mem_of_open (hs : scan .pattern '(' u = (k, n))
    (h : Mark.depth? d (outlineAt fine .pattern ('(' :: u)) = some 0) : ')' ∈ u := by
  rw [scan_group, Prod.mk.injEq] at hs
  cases hg : (scanGroup u).1 with
  | deferred m =>
    cases ht : Marker.tail? u with
    | none =>
      simp only [scanGroup, ht] at hg
      split at hg <;> simp at hg
    | some a =>
      obtain ⟨_, rest, rfl, _, _, _, _, rfl, _⟩ := (Marker.reads_tail.some_iff _ _).mp ht
      simp
  | _ =>
    rw [outlineAt_cons (scan_group u), Mark.depth?_append, Option.bind_eq_some_iff] at h
    obtain ⟨e, hm, h⟩ := h
    have he : e = d + 1 := by
      by_cases hw : (⟨.groupOpen (scanGroup u).1, '(' :: u.take (scanGroup u).2, .pattern⟩ :
          Token).isWhole
      · rw [Token.depth?_mark hw] at hm
        simp only [Token.nesting, Token.operator?, Token.inClass, hg] at hm
        simp at hm
        omega
      · simp [Token.depth?_broken hw] at hm
    subst he
    exact List.mem_of_mem_drop (close_mem h)

theorem bracket_mem_of_open (h : Mark.depth? d (outlineAt fine .pattern ('[' :: u)) = some 0) :
    ']' ∈ u := by
  by_cases hp : ['^', ']'].isPrefixOf u
  · obtain ⟨r, rfl⟩ := List.isPrefixOf_iff_prefix.mp hp
    simp
  · have hs : scan .pattern '[' u = (.classOpen .plain, 0) := by rw [scan_class, if_neg hp]
    rw [outlineAt_cons hs, Mark.depth?_append, Option.bind_eq_some_iff] at h
    obtain ⟨e, -, h⟩ := h
    exact bracket_mem h

theorem drop_of_scan_escape {d : Char} {e : Escape} (h : scan context c [d] = (.escape e, n)) :
    [d].drop n = [] := by
  obtain rfl : c = '\\' := of_scan h rfl
  rw [scan_escape, Prod.mk.injEq] at h
  have := (scanEscape_fits d []).1
  exact List.drop_eq_nil_of_le (by simp; omega)

/-- The first token of a closed text. What the token opens is closed in the text,
and the text behind it is closed as well. -/
structure Leads (fine : Bool) (context : Context) (c : Char) (u : Text) (k : TokenKind) (n : Nat) :
    Prop where
  scan : scan context c u = (k, n)
  length : n ≤ u.length
  whole : (⟨k, c :: u.take n, context⟩ : Token).isWhole
  group : context = .pattern → c = '(' → ')' ∈ u
  charClass : context = .pattern → c = '[' → ']' ∈ u
  behind : ∃ e, Mark.depth? e (outlineAt fine (contextAfter context k) (u.drop n)) = some 0

theorem exists_leads (h : Mark.depth? d (outlineAt fine context (c :: u)) = some 0) :
    ∃ k n, Leads fine context c u k n := by
  obtain ⟨k, n, hs⟩ : ∃ k n, scan context c u = (k, n) := ⟨_, _, rfl⟩
  have hn : n ≤ u.length := by
    have := scan_length_le context c u
    rwa [hs] at this
  have hgroup : context = .pattern → c = '(' → ')' ∈ u := by
    rintro rfl rfl
    exact close_mem_of_open hs h
  have hclass : context = .pattern → c = '[' → ']' ∈ u := by
    rintro rfl rfl
    exact bracket_mem_of_open h
  rw [outlineAt_cons hs, Mark.depth?_append, Option.bind_eq_some_iff] at h
  obtain ⟨e, hm, hbehind⟩ := h
  refine ⟨k, n, hs, hn, ?_, hgroup, hclass, e, hbehind⟩
  by_contra hw
  simp [Token.depth?_broken hw] at hm

theorem outlineAt_append {context : Context} {d : Nat} {u : Text}
    (h : Mark.depth? d (outlineAt fine context u) = some 0)
    (hf : fine → (outlineAt fine context u).any Mark.isFinal → Sequel.of y ≠ .digit) :
    outlineAt fine context (u ++ y) =
      (outlineAt fine context u).map (Mark.before (.of y)) ++ outlineAt fine .pattern y := by
  match u with
  | [] =>
    cases context with
    | charClass => simp at h
    | pattern => simp
  | c :: u =>
    obtain ⟨k, n, hs, hn, hw, hgroup, hclass, e, hbehind⟩ := exists_leads h
    have hcons : outlineAt fine context (c :: u) = _ := outlineAt_cons hs
    rcases scan_append hs hn hw hgroup hclass y with hsame | ⟨k', m, hnew, hgrow⟩
    · rw [hcons, List.any_append] at hf
      have ih := outlineAt_append hbehind fun hfine hfin => hf hfine (by simp [hfin])
      rw [List.cons_append, outlineAt_cons hsame, List.take_append_of_le_length hn,
        List.drop_append_of_le_length hn, ih, hcons, mark?_append, List.map_append,
        List.append_assoc]
      congr 1
      cases (⟨k, c :: u.take n, context⟩ : Token).mark? fine (.of (u.drop n)) <;> rfl
    · cases hgrow with
      | plain old new taken =>
        obtain ⟨he, hy⟩ : outlineAt fine context (c :: u) = _ ∧
            outlineAt fine context (c :: (u ++ y)) = _ := outlineAt_grown hs hnew old new taken
        rw [he] at h
        rw [List.cons_append, hy, he]
        cases context with
        | charClass => simp at h
        | pattern => simp
      | reference i j d old new alone two digit =>
        subst old new alone two
        have hmark : ∀ (l : Nat) (w : Text) (q : Sequel),
            (⟨.escape (.backReference l), w, .pattern⟩ : Token).mark? false q = none :=
          fun _ _ _ => rfl
        have hlast : [d].drop n = [] := drop_of_scan_escape hs
        rw [hlast] at hbehind hcons
        cases context with
        | charClass => simp [contextAfter] at hbehind
        | pattern =>
          cases fine with
          | true =>
            refine absurd (Sequel.of_eq_digit.mpr digit) (hf rfl ?_)
            rw [hcons]
            rfl
          | false =>
            have hdrop : ([d] ++ y).drop 2 = y.drop 1 := rfl
            have hsoft : ∀ x ∈ y.take 1, isSoft x := by
              cases y with
              | nil => simp
              | cons a y => simpa using isSoft_of_isDigit (by simpa using digit)
            have hold : outlineAt false .pattern [c, d] = [] := by
              rw [hcons]
              simp [contextAfter, hmark]
            rw [List.cons_append, outlineAt_cons hnew, hmark, hdrop, hold]
            exact (outlineAt_soft y 1 hsoft).symm
termination_by u.length
decreasing_by exact Text.length_drop_lt ..

-- ---------------------------------------------------------------------------
-- Single tokens at the start
-- ---------------------------------------------------------------------------

def isFlat (c : Char) : Bool := !"\\()[]\x7b|".toList.contains c

theorem scan_flat (hc : isFlat c) : ∃ k, k.isPlain ∧ ∀ t, scan .pattern c t = (k, 0) := by
  simp only [isFlat, Bool.not_eq_true'] at hc
  refine ⟨(scan .pattern c []).1, ?_, fun t => ?_⟩
  · unfold scan
    split <;> simp_all <;> rfl
  · unfold scan
    split <;> simp_all

theorem outlineAt_flat (hu : ∀ c ∈ u, isFlat c) (y : Text) :
    outlineAt fine .pattern (u ++ y) = outlineAt fine .pattern y := by
  induction u with
  | nil => rfl
  | cons c u ih =>
    rw [List.forall_mem_cons] at hu
    obtain ⟨k, hk, hs⟩ := scan_flat hu.1
    rw [List.cons_append, outlineAt_plain (hs _) hk, List.drop_zero, ih hu.2]

end Lexer

namespace Source

open Lexer

variable {fine : Bool} {a b s : Text}

theorem outline_append (ha : Closed a)
    (hf : fine → (outline fine a).any Mark.isFinal → Sequel.of b ≠ .digit) :
    outline fine (a ++ b) = (outline fine a).map (Mark.before (.of b)) ++ outline fine b :=
  outlineAt_append ((closed_iff fine).mp ha) hf

theorem outline_bar (b : Text) : outline fine ('|' :: b) = .bar :: outline fine b := by
  have hs : scan .pattern '|' b = (.pipe, 0) := rfl
  rw [outline, outlineAt_cons hs]
  rfl

theorem outline_close (b : Text) : outline fine (')' :: b) = .closes :: outline fine b := by
  have hs : scan .pattern ')' b = (.groupClose, 0) := rfl
  rw [outline, outlineAt_cons hs]
  rfl

theorem outline_open (h : Marker.tail? ('?' :: ':' :: b) = none) :
    outline fine ('(' :: '?' :: ':' :: b) = .opens false :: outline fine b := by
  have hs : scan .pattern '(' ('?' :: ':' :: b) = (.groupOpen .nonCapture, 2) := by
    rw [scan_group]
    simp [scanGroup, h]
  rw [outline, outlineAt_cons hs]
  rfl

theorem outline_emptyGroup (b : Text) :
    outline fine (Pattern.emptyGroup ++ b) = .opens false :: .closes :: outline fine b := by
  have ht : Marker.tail? ('?' :: ':' :: ')' :: b) = none := rfl
  exact (outline_open ht).trans (congrArg _ (outline_close b))

theorem flat_of_tail?_group {a : Marker × Nat} (hs : Closed s)
    (ht : Marker.tail? ('?' :: ':' :: (s ++ [')'])) = some a) :
    (∀ c ∈ s, isFlat c) ∧ a.2 = s.length + 3 := by
  obtain ⟨_, rest, he, ds, is, hd, hi, rfl, hlength⟩ := (Marker.reads_tail.some_iff _ _).mp ht
  have digit : ∀ c : Char, c.isDigit → isFlat c := by
    intro c hc
    simp only [isFlat, Bool.not_eq_true', List.contains_eq_mem, decide_eq_false_iff_not]
    rintro hm
    have : ∀ x ∈ "\\()[]\x7b|".toList, x.isDigit = false := forall_mem_of_all (by decide)
    simp [this c hm] at hc
  have flat : ∀ c ∈ "$ ^d:".toList ++ ds ++ Marker.middle ++ is, isFlat c := by
    simp only [List.forall_mem_append]
    exact ⟨⟨⟨forall_mem_of_all (by decide), fun c hc => digit c (hd.isDigit c hc)⟩,
      forall_mem_of_all (by decide)⟩, fun c hc => digit c (hi.isDigit c hc)⟩
  generalize hw : "$ ^d:".toList ++ ds ++ Marker.middle ++ is = w at flat
  have hopen : Marker.opening = '?' :: ':' :: "$ ^d:".toList := rfl
  have hlength : a.2 = w.length + 3 := by
    rw [hlength, ← hw, hopen]
    simp only [List.length_append, List.length_cons, List.length_nil]
    omega
  have he : s ++ [')'] = w ++ ')' :: rest := by
    rw [hopen] at he
    simpa [← hw] using he
  rcases List.eq_nil_or_concat rest with rfl | ⟨r, x, rfl⟩
  · obtain rfl : s = w := List.append_cancel_right he
    exact ⟨flat, hlength⟩
  · have hsplit : s = w ++ ')' :: r := by
      rw [List.concat_eq_append, ← List.cons_append, ← List.append_assoc] at he
      exact (List.append_inj' he rfl).1
    have := (closed_iff false).mp hs
    rw [hsplit, outline, outlineAt_flat flat, ← outline, outline_close] at this
    simp at this

/-- A group around alternatives is no marker: the text of a marker has no bar. -/
theorem tail?_group (hs : Closed s) (hb : alternates s) :
    Marker.tail? ('?' :: ':' :: (s ++ [')'])) = none := by
  cases ht : Marker.tail? ('?' :: ':' :: (s ++ [')'])) with
  | none => rfl
  | some a =>
    have : outline false s = [] := by
      have h : outlineAt false .pattern (s ++ []) = _ :=
        outlineAt_flat (flat_of_tail?_group hs ht).1 []
      simpa [outline] using h
    rw [alternates_eq, ← hs.bars false, this] at hb
    simp [Mark.bars] at hb

def grouped (s : Text) : Text := "(?:".toList ++ s ++ [')']

theorem outline_group (hs : Closed s) (hb : alternates s) :
    outline fine (grouped s) =
      .opens false :: (outline fine s).map (Mark.before .other) ++ [.closes] := by
  have hp : grouped s = '(' :: '?' :: ':' :: (s ++ [')']) := rfl
  have hc : outline fine [')'] = [.closes] := by
    rw [outline_close, outline, outlineAt_nil]
  rw [hp, outline_open (tail?_group hs hb), outline_append hs fun _ _ => by decide, hc]
  rfl

theorem Closed.grouped (hs : Closed s) (hb : alternates s) : Closed (grouped s) := by
  have hd : Mark.depth? 0 ((outline false s).map (Mark.before .other)) = some 0 := by
    rw [Mark.depth?_map (Mark.before_alike _)]
    exact (closed_iff false).mp hs
  rw [closed_iff false, outline_group hs hb, List.cons_append, Mark.depth?_cons,
    Mark.step?_opens, Option.bind_some, Mark.depth?_append, Mark.depth?_add hd 1]
  rfl

theorem signals_grouped (hs : Closed s) (hb : alternates s) :
    signals fine (grouped s) = signals fine s := by
  have hopen : Mark.event? (.opens false) = none := rfl
  have hclose : Mark.event? .closes = none := rfl
  simp only [signals, outline_group hs hb, List.filterMap_append, List.filterMap_cons,
    List.filterMap_map, Function.comp_def, Mark.event?_before, hopen, hclose, List.filterMap_nil,
    List.append_nil]

theorem topBars_grouped (hs : Closed s) (hb : alternates s) : topBars (grouped s) = 0 := by
  have hd : Mark.depth? 0 ((outline false s).map (Mark.before .other)) = some 0 := by
    rw [Mark.depth?_map (Mark.before_alike _)]
    exact (closed_iff false).mp hs
  rw [← (hs.grouped hb).bars false, outline_group hs hb, List.cons_append, Mark.bars,
    Mark.step?_opens, Option.getD_some, Mark.bars_append (Mark.depth?_add hd 1), Mark.bars_succ hd]
  simp [Mark.bars]

end Source

end Splice
