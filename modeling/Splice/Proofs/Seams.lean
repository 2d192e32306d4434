import Splice.Proofs.Pieces
import Splice.Proofs.Renumbering

/-!
# Seams

Where one source is written behind another, a token may run across the seam.
That takes a construct that the first source begins and does not finish, and a
character of the second that goes on with it. Without one, and without a digit
behind a reference, both sources are read as they are by themselves.
-/

namespace Splice

namespace Lexer

variable {c d : Char} {t u y : Text} {context : Context} {k : TokenKind} {n : Nat}

-- ---------------------------------------------------------------------------
-- Constructs that are not finished
-- ---------------------------------------------------------------------------

def goesOnBraced (allowed : Char → Bool) : Text → Char → Bool
  | [], c => c == '{'
  | '{' :: inside, c => inside.all allowed && (allowed c || c == '}')
  | _, _ => false

def goesOnBounds (t : Text) (c : Char) : Bool :=
  match t.dropWhile Char.isDigit with
  | [] => c.isDigit || !t.isEmpty && (c == ',' || c == '}')
  | ',' :: most => most.all Char.isDigit && (c.isDigit || c == '}')
  | _ => false

/-- Whether a character goes on with the escape of `d` that `t` does not finish.
Back references are left out: a digit is kept apart from them. -/
def goesOnEscape (d : Char) (t : Text) (c : Char) : Bool :=
  match d with
  | '0' =>
    match t with
    | [] => c.isDigit
    | [a] => Text.isOctalDigit a && Text.isOctalDigit c
    | _ => false
  | 'x' => t.length < 2 && t.all Text.isHexDigit && Text.isHexDigit c
  | 'u' =>
    t.length < 4 && t.all Text.isHexDigit && Text.isHexDigit c ||
      goesOnBraced Text.isHexDigit t c
  | 'c' => t.isEmpty && c.isAlpha
  | 'p' | 'P' => goesOnBraced isPropertyChar t c
  | _ => false

/-- Whether a character goes on with a construct that a text begins and does not
finish. -/
def goesOn (t : Text) (c : Char) : Bool :=
  match t with
  | '\\' :: d :: t => goesOnEscape d t c
  | '\x7b' :: t => goesOnBounds t c
  | _ => false

theorem any_head_imp {p q : Char → Bool} (h : y.head?.any p) (hpq : ∀ c, p c → q c) :
    y.head?.any q := by
  cases y with
  | nil => exact h
  | cons c y => exact hpq c h

theorem exists_cons_of_take (hm : 0 < n) (hn : n ≤ y.length) : ∃ c r, y = c :: r := by
  cases y with
  | nil => exact absurd hn (Nat.not_le_of_lt hm)
  | cons c r => exact ⟨c, r, rfl⟩

theorem startsWithHex_grows (h : startsWithHex n (u ++ y) ≠ startsWithHex n u) :
    u.length < n ∧ u.all Text.isHexDigit ∧ y.head?.any Text.isHexDigit := by
  have hlt : u.length < n := by
    by_contra hle
    have hn : n ≤ u.length := by omega
    exact h (by simp [startsWithHex, hn, List.take_append_of_le_length hn,
      Nat.le_add_right_of_le hn])
  have hold : startsWithHex n u = false := by simp [startsWithHex, hlt]
  have hnew : startsWithHex n (u ++ y) = true := by simpa [hold] using h
  simp only [startsWithHex, Bool.and_eq_true, decide_eq_true_eq, List.length_append] at hnew
  obtain ⟨hn, hall⟩ := hnew
  rw [List.take_append, List.take_of_length_le (by omega), List.all_append,
    Bool.and_eq_true] at hall
  obtain ⟨c, r, rfl⟩ := exists_cons_of_take (y := y) (n := n - u.length) (by omega) (by omega)
  obtain ⟨m, hm⟩ := Nat.exists_eq_succ_of_ne_zero (by omega : n - u.length ≠ 0)
  rw [hm, List.take_succ_cons, List.all_cons, Bool.and_eq_true] at hall
  exact ⟨hlt, hall.1, by simpa using hall.2.1⟩

/-- A reader that answers otherwise in front of more text has found a construct
that reaches into it. -/
theorem Reads.grows {reader : Text → Option Nat} {Form : Nat → Text → Prop}
    (hr : Reads reader id Form) (h : reader (u ++ y) ≠ reader u) :
    ∃ c r a z, y = c :: r ∧ Form a (u ++ c :: z) := by
  cases hu : reader u with
  | some a => exact absurd ((hr.append hu).trans hu.symm) h
  | none =>
    cases hnew : reader (u ++ y) with
    | none => exact absurd (hnew.trans hu.symm) h
    | some a =>
      obtain ⟨m, -, hm, hle, hf⟩ := hr.body_eq hu hnew
      obtain ⟨c, r, rfl⟩ := exists_cons_of_take hm hle
      obtain ⟨m, rfl⟩ := Nat.exists_eq_succ_of_ne_zero (by omega : m ≠ 0)
      exact ⟨c, r, a, r.take m, rfl, hf⟩

theorem mem_or_eq_last {inside z : Text} {stop : Char} (h : u ++ c :: z = inside ++ [stop]) :
    (∀ x ∈ u, x ∈ inside) ∧ (c ∈ inside ∨ c = stop ∧ u = inside) := by
  obtain rfl | ⟨z, x, rfl⟩ := z.eq_nil_or_concat
  · obtain ⟨rfl, hc⟩ := List.append_inj' h rfl
    exact ⟨fun _ hx => hx, .inr ⟨by simpa using hc, rfl⟩⟩
  · rw [List.concat_eq_append, ← List.cons_append, ← List.append_assoc] at h
    obtain ⟨rfl, -⟩ := List.append_inj' h rfl
    exact ⟨fun x hx => List.mem_append_left _ hx, .inl (by simp)⟩

theorem goesOnBraced_of_grows {allowed : Char → Bool} (ha : allowed '}' = false)
    (h : bracedLength? allowed (u ++ y) ≠ bracedLength? allowed u) :
    y.head?.any (goesOnBraced allowed u) := by
  obtain ⟨c, r, a, z, rfl, inside, -, hin, hbody, -⟩ := (reads_braced ha).grows h
  cases u with
  | nil =>
    obtain rfl : c = '\x7b' := by
      have := congrArg List.head? hbody
      simpa using this
    rfl
  | cons b u =>
    simp only [List.cons_append, List.cons.injEq] at hbody
    obtain ⟨rfl, hbody⟩ := hbody
    obtain ⟨hu, hc⟩ := mem_or_eq_last hbody
    have hall : u.all allowed := List.all_eq_true.mpr fun x hx => hin x (hu x hx)
    have hlast : allowed c || c == '}' := by
      obtain hc | ⟨rfl, -⟩ := hc
      · simp [hin c hc]
      · simp
    simp [goesOnBraced, hall, hlast]

theorem goesOnBounds_digits (hu : ∀ x ∈ u, x.isDigit)
    (hc : c.isDigit ∨ u ≠ [] ∧ (c = ',' ∨ c = '}')) : goesOnBounds u c := by
  have hdrop : u.dropWhile Char.isDigit = [] := List.dropWhile_eq_nil_iff.mpr hu
  unfold goesOnBounds
  rw [hdrop]
  obtain hc | ⟨hne, rfl | rfl⟩ := hc
  · simp [hc]
  · simp [hne]
  · simp [hne]

theorem goesOnBounds_of_grows (h : quantifierLength? (u ++ y) ≠ quantifierLength? u) :
    y.head?.any (goesOnBounds u) := by
  obtain ⟨c, r, a, z, rfl, least, hne, hl, -, hbody | ⟨most, hm, hbody⟩⟩ :=
    reads_quantifier.grows h
  · obtain ⟨hu, hc⟩ := mem_or_eq_last hbody
    refine goesOnBounds_digits (fun x hx => hl x (hu x hx)) ?_
    obtain hc | ⟨rfl, rfl⟩ := hc
    · exact .inl (hl c hc)
    · exact .inr ⟨hne, .inr rfl⟩
  · rw [List.append_assoc, List.append_eq_append_iff] at hbody
    obtain ⟨w, rfl, hbody⟩ | ⟨w, rfl, hbody⟩ := hbody
    · refine goesOnBounds_digits (fun x hx => hl x (List.mem_append_left _ hx)) ?_
      cases w with
      | nil =>
        obtain rfl : c = ',' := by simpa using (List.cons.inj hbody).1
        exact .inr ⟨by simpa using hne, .inl rfl⟩
      | cons b w =>
        obtain rfl : c = b := by simpa using (List.cons.inj hbody).1
        exact .inl (hl c (by simp))
    · cases w with
      | nil =>
        obtain rfl : ',' = c := by simpa using (List.cons.inj hbody).1
        exact goesOnBounds_digits (by simpa using hl) (.inr ⟨by simpa using hne, .inl rfl⟩)
      | cons b w =>
        simp only [List.cons_append, List.cons.injEq] at hbody
        obtain ⟨rfl, hbody⟩ := hbody
        obtain ⟨hw, hc⟩ := mem_or_eq_last hbody.symm
        have hdrop : (least ++ ',' :: w).dropWhile Char.isDigit = ',' :: w := by
          rw [List.dropWhile_append_of_pos hl]
          rfl
        have hall : w.all Char.isDigit := List.all_eq_true.mpr fun x hx => hm x (hw x hx)
        have hlast : c.isDigit || c == '}' := by
          obtain hc | ⟨rfl, -⟩ := hc
          · simp [hm c hc]
          · rfl
        simp [goesOnBounds, hdrop, hall, hlast]

-- ---------------------------------------------------------------------------
-- Tokens at a seam
-- ---------------------------------------------------------------------------

theorem goesOn_of_scanZero (h : scanZero (u ++ y) ≠ scanZero u) :
    y.head?.any (goesOnEscape '0' u) := by
  cases y with
  | nil => exact absurd (by rw [List.append_nil]) h
  | cons c y =>
    cases u with
    | nil =>
      by_cases hc : c.isDigit
      · simpa [goesOnEscape] using hc
      · have ho : Text.isOctalDigit c = false := by
          by_contra ho
          exact hc (isDigit_of_isOctalDigit (by simpa using ho))
        exact absurd (by simp [scanZero, hc, ho]) h
    | cons a u =>
      cases u with
      | nil =>
        by_cases ha : Text.isOctalDigit a
        · by_cases hc : Text.isOctalDigit c
          · simp [goesOnEscape, ha, hc]
          · exact absurd (by simp [scanZero, ha, hc]) h
        · exact absurd (by simp [scanZero, ha]) h
      | cons b u => exact absurd rfl h

theorem digit_of_scanReference (h : scanReference d (u ++ y) ≠ scanReference d u) :
    u = [] ∧ y.head?.any Char.isDigit := by
  cases u with
  | cons a u => exact absurd (by simp [scanReference]) h
  | nil =>
    cases y with
    | nil => exact absurd rfl h
    | cons c y =>
      by_cases hc : c.isDigit
      · exact ⟨rfl, by simpa using hc⟩
      · exact absurd (by simp [scanReference, hc]) h

theorem goesOn_of_scanEscape (hk : d ≠ 'k') (h : scanEscape d (u ++ y) ≠ scanEscape d u) :
    (u = [] ∧ d.isDigit ∧ d ≠ '0' ∧ y.head?.any Char.isDigit) ∨
      y.head?.any (goesOnEscape d u) := by
  by_cases hd : d.isDigit
  · by_cases h0 : d = '0'
    · subst h0
      exact .inr (goesOn_of_scanZero fun hz => h (by simp [scanEscape, hz]))
    · obtain ⟨hu, hy⟩ := digit_of_scanReference (d := d) (u := u) (y := y) fun hr =>
        h (by simp [scanEscape, hd, h0, hr])
      exact .inl ⟨hu, hd, h0, hy⟩
  · right
    by_cases hm : d ∈ ['k', 'u', 'x', 'c', 'p', 'P']
    · simp only [List.mem_cons, List.not_mem_nil, or_false, hk, false_or] at hm
      have property : (propertyLength? (u ++ y) ≠ propertyLength? u) →
          y.head?.any (goesOnBraced isPropertyChar u) := goesOnBraced_of_grows (by decide)
      rcases hm with rfl | rfl | rfl | rfl | rfl
      · by_cases hb : bracedLength? Text.isHexDigit (u ++ y) = bracedLength? Text.isHexDigit u
        · have h4 : startsWithHex 4 (u ++ y) ≠ startsWithHex 4 u := by
            intro h4
            exact h (by simp [scanEscape, scanUnicode, hb, h4])
          obtain ⟨hlt, hall, hc⟩ := startsWithHex_grows h4
          refine any_head_imp hc fun c hc => ?_
          simp [goesOnEscape, hlt, hall, hc]
        · refine any_head_imp (goesOnBraced_of_grows (by decide) hb) fun c hc => ?_
          simp [goesOnEscape, hc]
      · have h2 : startsWithHex 2 (u ++ y) ≠ startsWithHex 2 u := by
          intro h2
          exact h (by simp [scanEscape, h2])
        obtain ⟨hlt, hall, hc⟩ := startsWithHex_grows h2
        refine any_head_imp hc fun c hc => ?_
        simp [goesOnEscape, hlt, hall, hc]
      · cases u with
        | cons a u => exact absurd rfl h
        | nil =>
          by_cases hc : y.head?.any Char.isAlpha
          · exact hc
          · exact absurd (by simp [scanEscape, hc]) h
      · have hp : propertyLength? (u ++ y) ≠ propertyLength? u := by
          intro hp
          exact h (by simp [scanEscape, hp])
        exact any_head_imp (property hp) fun c hc => by simp [goesOnEscape, hc]
      · have hp : propertyLength? (u ++ y) ≠ propertyLength? u := by
          intro hp
          exact h (by simp [scanEscape, hp])
        exact any_head_imp (property hp) fun c hc => by simp [goesOnEscape, hc]
    · obtain ⟨e, he⟩ := scanEscape_of_not_mem (by simpa using hd) hm
      exact absurd ((he _).trans (he _).symm) h

/-- Text that changes how a token of a closed source is read goes on with a
construct, or a back reference stands in front of a digit. -/
theorem goesOn_of_scan (h : scan .pattern c u = (k, n)) (hn : n ≤ u.length)
    (hw : (⟨k, c :: u.take n, .pattern⟩ : Token).isWhole) (hg : c = '(' → ')' ∈ u)
    (hc : c = '[' → ']' ∈ u) (hne : scan .pattern c (u ++ y) ≠ (k, n)) :
    y.head?.any (goesOn (c :: u)) ∨
      ∃ d, c = '\\' ∧ u = [d] ∧ d.isDigit ∧ d ≠ '0' ∧ y.head?.any Char.isDigit := by
  have hu : u ++ [] = u := List.append_nil u
  rcases IsSimple.or .pattern c with hs | rfl | ⟨-, rfl | rfl | rfl⟩
  · obtain ⟨k', hk⟩ := scan_of_isSimple hs
    rw [hk] at h hne
    exact absurd h hne
  · cases u with
    | nil =>
      simp only [scan, Prod.mk.injEq] at h
      obtain ⟨rfl, -⟩ := h
      simp [Token.isWhole] at hw
    | cons d u =>
      rw [List.cons_append, scan_escape, ← h, scan_escape] at hne
      have hescape : scanEscape d (u ++ y) ≠ scanEscape d u := fun he => hne (by rw [he])
      by_cases hd : d = 'k'
      · subst hd
        rw [scan_escape, Prod.mk.injEq] at h
        obtain ⟨rfl, rfl⟩ := h
        have hnamed : scanEscape 'k' (u ++ y) = scanEscape 'k' (u ++ []) :=
          scanEscape_named_congr (by rwa [List.append_nil]) (by rwa [List.append_nil])
        rw [List.append_nil] at hnamed
        exact absurd hnamed hescape
      · obtain ⟨rfl, hd, h0, hy⟩ | hy := goesOn_of_scanEscape hd hescape
        · exact .inr ⟨d, rfl, rfl, hd, h0, hy⟩
        · exact .inl hy
  · refine absurd ?_ hne
    rw [scan_group, Prod.mk.injEq] at h
    have hn2 : (scanGroup u).1 = .named → 2 < n := by
      intro hm
      rw [← h.1, hm] at hw
      exact two_lt_of_isWhole (Prod.ext hm h.2) hw
    have := scanGroup_congr (w := u) (y := []) (z := y) (g := (scanGroup u).1) (n := n)
      (by rw [hu]; exact Prod.ext rfl h.2) hn hn2 (.inl (hg rfl))
    rw [scan_group, this, ← h.1]
  · exact absurd (scan_class_congr (w := u) (y := []) (by rwa [hu]) hn (.inl (hc rfl))) hne
  · left
    refine any_head_imp (goesOnBounds_of_grows (u := u) fun hq => hne ?_) fun c hc => hc
    rw [scan_brace, hq, ← scan_brace, h]

/-- How a text is read in front of another: both as they are by themselves, or
with a token that runs across the seam. -/
inductive Seam (context : Context) (u y : Text) : Prop
  | apart (read : lexFrom context (u ++ y) = lexFrom context u ++ lexFrom .pattern y)
  | across (front : List Token) (c : Char) (v : Text) (k k' : TokenKind) (n n' : Nat)
      (old : lexFrom context u = front ++ lexFrom .pattern (c :: v))
      (new : lexFrom context (u ++ y) = front ++ lexFrom .pattern (c :: (v ++ y)))
      (alone : scan .pattern c v = (k, n)) (joined : scan .pattern c (v ++ y) = (k', n'))
      (grows : TokenGrows k k' v y n')
      (goes : y.head?.any (goesOn (c :: v)) ∨
        ∃ d, c = '\\' ∧ v = [d] ∧ d.isDigit ∧ d ≠ '0' ∧ y.head?.any Char.isDigit)

theorem seam {context : Context} {d : Nat} {u : Text}
    (h : Mark.depth? d (outlineAt false context u) = some 0) (y : Text) : Seam context u y := by
  match u with
  | [] =>
    cases context with
    | charClass => simp at h
    | pattern => exact .apart (by simp [lexFrom_nil])
  | c :: u =>
    obtain ⟨k, n, hs, hn, hw, hgroup, hclass, e, hbehind⟩ := exists_leads h
    by_cases hsame : scan context c (u ++ y) = (k, n)
    · have hold : lexFrom context (c :: u) =
          ⟨k, c :: u.take n, context⟩ :: lexFrom (contextAfter context k) (u.drop n) := by
        rw [lexFrom_cons, hs]
      have hnew : lexFrom context (c :: u ++ y) =
          ⟨k, c :: u.take n, context⟩ :: lexFrom (contextAfter context k) (u.drop n ++ y) := by
        rw [List.cons_append, lexFrom_cons, hsame, List.take_append_of_le_length hn,
          List.drop_append_of_le_length hn]
      cases seam hbehind y with
      | apart read => exact .apart (by rw [hnew, hold, read, List.cons_append])
      | across front c v k k' n n' old new alone joined grows goes =>
        exact .across (_ :: front) c v k k' n n' (by rw [hold, old, List.cons_append])
          (by rw [hnew, new, List.cons_append]) alone joined grows goes
    · obtain ⟨k', m, hnew, hgrow⟩ := (scan_append hs hn hw hgroup hclass y).resolve_left hsame
      cases context with
      | pattern =>
        exact .across [] c u k k' n m rfl rfl hs hnew hgrow
          (goesOn_of_scan hs hn hw (hgroup rfl) (hclass rfl) hsame)
      | charClass =>
        -- Nothing that closes the class could be left behind the token.
        cases hgrow with
        | plain old new taken =>
          have hnone : outlineAt false .charClass (c :: u) = _ :=
            (outlineAt_grown hs hnew old new taken).1
          simp [hnone] at h
        | reference i j d old new alone two digit =>
          subst old new alone two
          have hlast : [d].drop n = [] := drop_of_scan_escape hs
          rw [hlast] at hbehind
          simp [contextAfter] at hbehind
termination_by u.length
decreasing_by exact Text.length_drop_lt ..

end Lexer

namespace Source

open Lexer

variable {a b : Text}

/-- A construct that `a` begins and does not finish, and that `b` goes on with. -/
def runsInto (a b : Text) : Bool :=
  (lex a).tails.any fun ts => b.head?.any (goesOn (untokenize ts))

theorem runsInto_nil (a : Text) : runsInto a [] = false := by simp [runsInto]

def endsInShortReference (s : Text) : Bool := (lex s).getLast?.any Token.isShortReference

theorem lex_append (ha : Closed a) (hr : runsInto a b = false)
    (hd : endsInShortReference a → b.head?.any Char.isDigit = false) :
    lex (a ++ b) = lex a ++ lex b := by
  cases seam ((closed_iff false).mp ha) b with
  | apart read => exact read
  | across front c v k k' n n' old new alone joined grows goes =>
    obtain hgoes | ⟨d, rfl, rfl, hdigit, h0, hb⟩ := goes
    · have htail : lexFrom .pattern (c :: v) ∈ (lex a).tails :=
        (List.mem_tails _ _).mpr ⟨front, old.symm⟩
      have hnone := List.any_eq_false.mp hr _ htail
      rw [untokenize_lexFrom] at hnone
      exact absurd hgoes hnone
    · have hone : lexFrom .pattern ['\\', d] =
          [⟨.escape (.backReference (digit d)), ['\\', d], .pattern⟩] := by
        have hs : scan .pattern '\\' [d] = (.escape (.backReference (digit d)), 1) := by
          rw [scan_escape]
          simp [scanEscape, hdigit, h0, scanReference]
        rw [lexFrom_cons, hs]
        simp [lexFrom_nil]
      have hshort : endsInShortReference a := by
        have hlast : lex a = front ++ [⟨.escape (.backReference (digit d)), ['\\', d], .pattern⟩] :=
          hone ▸ old
        simp [endsInShortReference, hlast, Token.isShortReference, Token.operator?, Token.inClass]
      simp [hd hshort] at hb

-- A null escape and a digit make one octal escape.
example : lex "\\01".toList ≠ lex "\\0".toList ++ lex ['1'] := by decide +kernel

theorem lex_separator (b : Text) :
    lex (Pattern.emptyGroup ++ b) = lex Pattern.emptyGroup ++ lex b := by
  refine lex_append silent_separator.closed ?_ fun h => ?_
  · have hlex : lex Pattern.emptyGroup =
        [⟨.groupOpen .nonCapture, "(?:".toList, .pattern⟩, ⟨.groupClose, [')'], .pattern⟩] := by
      decide +kernel
    cases b with
    | nil => exact runsInto_nil _
    | cons c b => simp [runsInto, hlex, untokenize, goesOn]
  · have hshort : endsInShortReference Pattern.emptyGroup = false := by decide +kernel
    simp [hshort] at h

end Source

namespace Piece

open Source

def segments : List Piece → List Text
  | [] => []
  | p :: rest => p.source :: p.separator (sequence rest) :: segments rest

theorem flatten_segments (pieces : List Piece) : (segments pieces).flatten = sequence pieces := by
  induction pieces with
  | nil => rfl
  | cons p rest ih => rw [segments, List.flatten_cons, List.flatten_cons, ih, sequence_cons]

/-- No piece begins a construct that the text behind it goes on with. -/
def apart : List Piece → Bool
  | [] => true
  | p :: rest => !runsInto p.source (p.separator (sequence rest) ++ sequence rest) && apart rest

structure Writable (p : Piece) : Prop where
  closed : Closed p.source
  final : endsInShortReference p.source → p.endsInReference

theorem lex_sequence {pieces : List Piece} (h : ∀ p ∈ pieces, p.Writable) (ha : apart pieces) :
    lex (sequence pieces) = (segments pieces).flatMap lex := by
  induction pieces with
  | nil => exact Lexer.lexFrom_nil _
  | cons p rest ih =>
    rw [List.forall_mem_cons] at h
    rw [apart, Bool.and_eq_true, Bool.not_eq_true'] at ha
    have hmeets : endsInShortReference p.source →
        (p.separator (sequence rest) ++ sequence rest).head?.any Char.isDigit = false := by
      intro hs
      obtain ⟨hnil, hd⟩ | hsep := p.separator_cases (sequence rest)
      · have := hd (h.1.final hs)
        rw [hnil, List.nil_append]
        simpa [Sequel.of_eq_digit] using this
      · rw [hsep]
        rfl
    have htail : lex (p.separator (sequence rest) ++ sequence rest) =
        lex (p.separator (sequence rest)) ++ lex (sequence rest) := by
      obtain ⟨hnil, -⟩ | hsep := p.separator_cases (sequence rest)
      · rw [hnil]
        exact (congrArg (· ++ _) (Lexer.lexFrom_nil _)).symm
      · rw [hsep, lex_separator]
    rw [sequence_cons, lex_append h.1.closed ha.1 hmeets, htail, ih h.2 ha.2, segments,
      List.flatMap_cons, List.flatMap_cons]

end Piece

end Splice
