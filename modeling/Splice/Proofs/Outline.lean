import Splice.Proofs.Shape

/-!
# Outlines

An outline lists the tokens of a source that bear on its shape, each reference
with a note of what stands behind it. Everything that `Shape` says of a source
can be read off its outline. A coarse outline leaves the references out: it is
all that nesting depends on, and it is kept by respellings that run a
reference into the digits behind it.
-/

namespace Splice

/-- What stands behind a reference. -/
inductive Sequel
  | stop
  | digit
  | other
  deriving DecidableEq, Repr

def Sequel.of : Text → Sequel
  | [] => .stop
  | c :: _ => if c.isDigit then .digit else .other

theorem Sequel.of_append_of_ne_nil {u : Text} (hu : u ≠ []) (y : Text) : of (u ++ y) = of u := by
  cases u with
  | nil => exact absurd rfl hu
  | cons c u => rfl

theorem Sequel.of_eq_digit {t : Text} : of t = .digit ↔ t.head?.any Char.isDigit := by
  cases t with
  | nil => simp [of]
  | cons c t => by_cases hc : c.isDigit <;> simp [of, hc]

inductive Mark
  | opens (captures : Bool)
  | closes
  | bar
  | refers (number : Nat) (behind : Sequel)
  | defers (marker : Marker) (behind : Sequel)
  /-- A token that lacks something, or the end of a source inside a class. -/
  | broken
  deriving DecidableEq, Repr

def TokenKind.mark? (fine : Bool) (behind : Sequel) : TokenKind → Option Mark
  | .escape (.backReference n) => if fine then some (.refers n behind) else none
  | .groupOpen (.deferred m) => if fine then some (.defers m behind) else none
  | .groupOpen g => some (.opens g.isCapture)
  | .groupClose => some .closes
  | .pipe => some .bar
  | _ => none

/-- The mark of a token. Inside classes a token can only be broken. -/
def Token.mark? (fine : Bool) (behind : Sequel) (t : Token) : Option Mark :=
  if t.isWhole then t.operator?.bind (TokenKind.mark? fine behind) else some .broken

/-- The outline of some tokens that are read from a context on. -/
def outlineFrom (fine : Bool) (context : Context) : List Token → List Mark
  | [] => if context = .charClass then [.broken] else []
  | t :: rest => (t.mark? fine (.of (untokenize rest))).toList ++
      outlineFrom fine (Lexer.contextAfter context t.kind) rest

namespace Lexer

variable {fine : Bool} {context : Context} {c : Char} {k : TokenKind} {n : Nat} {t u y : Text}

def outlineAt (fine : Bool) (context : Context) (t : Text) : List Mark :=
  outlineFrom fine context (lexFrom context t)

@[simp] theorem outlineAt_nil : outlineAt fine .pattern [] = [] := by
  simp [outlineAt, lexFrom_nil, outlineFrom]

@[simp] theorem outlineAt_nil_class : outlineAt fine .charClass [] = [.broken] := by
  simp [outlineAt, lexFrom_nil, outlineFrom]

theorem outlineAt_cons (h : scan context c t = (k, n)) :
    outlineAt fine context (c :: t) =
      ((⟨k, c :: t.take n, context⟩ : Token).mark? fine (.of (t.drop n))).toList ++
        outlineAt fine (contextAfter context k) (t.drop n) := by
  simp only [outlineAt, lexFrom_cons, outlineFrom, untokenize_lexFrom, h]

-- ---------------------------------------------------------------------------
-- Soft characters leave no mark
-- ---------------------------------------------------------------------------

theorem isWhole_of_isPlain (hk : k.isPlain) (t : Text) : (⟨k, t, context⟩ : Token).isWhole := by
  cases k with
  | escape e =>
    cases e with
    | char c => exact hk
    | _ => rfl
  | _ => first | rfl | cases hk

theorem mark?_of_isPlain (hk : k.isPlain) (q : Sequel) : k.mark? fine q = none := by
  unfold TokenKind.mark?
  split <;> simp_all [TokenKind.isPlain, Escape.isPlain]

theorem contextAfter_of_isPlain (hk : k.isPlain) : contextAfter context k = context := by
  unfold contextAfter
  split <;> simp_all [TokenKind.isPlain]

theorem outlineAt_plain (h : scan context c t = (k, n)) (hk : k.isPlain) :
    outlineAt fine context (c :: t) = outlineAt fine context (t.drop n) := by
  rw [outlineAt_cons h, contextAfter_of_isPlain hk, Token.mark?, if_pos (isWhole_of_isPlain hk _)]
  cases context with
  | charClass => rfl
  | pattern =>
    have : (⟨k, c :: t.take n, .pattern⟩ : Token).operator? = some k := rfl
    simp [this, mark?_of_isPlain hk]

theorem scan_soft (hc : isSoft c) (context : Context) (t : Text) :
    ∃ k n, scan context c t = (k, n) ∧ k.isPlain ∧ n ≤ t.length ∧ ∀ x ∈ t.take n, isSoft x := by
  by_cases hb : c = '{'
  · subst hb
    have literal : TokenKind.isPlain (.braceOpen .literal) := rfl
    cases context with
    | charClass => exact ⟨_, _, rfl, literal, by simp, by simp⟩
    | pattern =>
      rw [scan_brace]
      cases h : quantifierLength? t with
      | none => exact ⟨_, _, rfl, literal, by simp, by simp⟩
      | some n =>
        obtain ⟨body, rest, rfl, hf⟩ := (reads_quantifier.some_iff _ _).mp h
        have hl : n = body.length := (reads_quantifier.length_eq _ _ hf).symm
        refine ⟨_, _, rfl, rfl, by simp [hl], ?_⟩
        simpa [hl] using bounds_soft n body hf
  · have hr : ∀ x, isSoft x = false → c ≠ x := by
      rintro x hx rfl
      simp [hx] at hc
    unfold scan
    split <;> first
      | exact absurd rfl (hr _ (by decide))
      | exact absurd rfl hb
      | exact ⟨_, _, rfl, rfl, by simp, by simp⟩

/-- Soft characters at the start of a text add nothing to its outline. A
quantifier that begins among them is soft to its end. -/
theorem outlineAt_soft (t : Text) (m : Nat) (hs : ∀ x ∈ t.take m, isSoft x) :
    outlineAt fine context t = outlineAt fine context (t.drop m) := by
  match t, m with
  | [], _ => rw [List.drop_nil]
  | _ :: _, 0 => rfl
  | c :: t, m + 1 =>
    rw [List.take_succ_cons, List.forall_mem_cons] at hs
    obtain ⟨k, n, hk, hp, -, hn⟩ := scan_soft hs.1 context t
    rw [outlineAt_plain hk hp, List.drop_succ_cons]
    -- The token stops within the given characters, or they stop within the token.
    rcases Nat.le_total n m with h | h
    · have : t.drop m = (t.drop n).drop (m - n) := by rw [List.drop_drop]; congr 1; omega
      rw [this]
      refine outlineAt_soft (t.drop n) (m - n) fun x hx => hs.2 x ?_
      rw [List.take_drop, Nat.add_sub_cancel' h] at hx
      exact List.mem_of_mem_drop hx
    · have : t.drop n = (t.drop m).drop (n - m) := by rw [List.drop_drop]; congr 1; omega
      rw [this]
      refine (outlineAt_soft (t.drop m) (n - m) fun x hx => hn x ?_).symm
      rw [List.take_drop, Nat.add_sub_cancel' h] at hx
      exact List.mem_of_mem_drop hx
termination_by t.length
decreasing_by all_goals exact Text.length_drop_lt ..

theorem outlineAt_of_soft (hs : ∀ x ∈ u, isSoft x) :
    outlineAt fine context u = outlineAt fine context [] := by
  have : outlineAt fine context u = outlineAt fine context (u.drop u.length) :=
    outlineAt_soft u u.length (by simpa using hs)
  simpa using this

end Lexer

-- ---------------------------------------------------------------------------
-- What marks say
-- ---------------------------------------------------------------------------

namespace Mark

/-- The nesting depth behind a mark. Fails below zero and where a token is broken. -/
def step? : Nat → Mark → Option Nat
  | d, .opens _ => some (d + 1)
  | d + 1, .closes => some d
  | 0, .closes | _, .broken => none
  | d, _ => some d

def depth? (start : Nat) (marks : List Mark) : Option Nat := marks.foldlM step? start

def event? : Mark → Option Event
  | .opens true => some .capture
  | .refers n _ => some (.reference n)
  | .defers m _ => some (.deferred m)
  | _ => none

def bars : Nat → List Mark → Nat
  | _, [] => 0
  | d, m :: rest => (if m = .bar ∧ d = 0 then 1 else 0) + bars ((step? d m).getD d) rest

def isFinal : Mark → Bool
  | .refers _ .stop | .defers _ .stop => true
  | _ => false

/-- Any mark but a marker with a digit behind it. -/
def isClear : Mark → Bool
  | .defers _ .digit => false
  | _ => true

/-- The mark, once something is known to stand behind the source. -/
def before (q : Sequel) : Mark → Mark
  | .refers n .stop => .refers n q
  | .defers m .stop => .defers m q
  | mark => mark

@[simp] theorem step?_opens (d : Nat) (b : Bool) : step? d (.opens b) = some (d + 1) := by
  cases d <;> rfl

@[simp] theorem step?_bar (d : Nat) : step? d .bar = some d := by cases d <;> rfl

@[simp] theorem step?_refers (d n : Nat) (q : Sequel) : step? d (.refers n q) = some d := by
  cases d <;> rfl

@[simp] theorem step?_defers (d : Nat) (m : Marker) (q : Sequel) :
    step? d (.defers m q) = some d := by
  cases d <;> rfl

@[simp] theorem step?_broken (d : Nat) : step? d .broken = none := by cases d <;> rfl

@[simp] theorem step?_closes (d : Nat) :
    step? d .closes = if 0 < d then some (d - 1) else none := by
  cases d <;> rfl

@[simp] theorem depth?_nil (d : Nat) : depth? d [] = some d := rfl

@[simp] theorem depth?_cons (d : Nat) (m : Mark) (marks : List Mark) :
    depth? d (m :: marks) = (step? d m).bind fun e => depth? e marks := rfl

theorem depth?_append (d : Nat) (first second : List Mark) :
    depth? d (first ++ second) = (depth? d first).bind fun e => depth? e second :=
  List.foldlM_append

theorem bars_append {d e : Nat} {first second : List Mark} (h : depth? d first = some e) :
    bars d (first ++ second) = bars d first + bars e second := by
  induction first generalizing d with
  | nil =>
    rw [depth?_nil, Option.some.injEq] at h
    simp [bars, h]
  | cons m marks ih =>
    rw [depth?_cons, Option.bind_eq_some_iff] at h
    obtain ⟨d', hm, h⟩ := h
    simp [bars, hm, ih h, Nat.add_assoc]

theorem step?_add {d e : Nat} {m : Mark} (h : step? d m = some e) (n : Nat) :
    step? (d + n) m = some (e + n) := by
  cases m with
  | opens b =>
    rw [step?_opens, Option.some.injEq] at h ⊢
    omega
  | closes =>
    rw [step?_closes] at h ⊢
    split at h
    · rw [Option.some.injEq] at h
      rw [if_pos (by omega), Option.some.injEq]
      omega
    · simp at h
  | broken => simp at h
  | _ => simpa using h

theorem depth?_add {d e : Nat} {marks : List Mark} (h : depth? d marks = some e) (n : Nat) :
    depth? (d + n) marks = some (e + n) := by
  induction marks generalizing d with
  | nil => simpa using h
  | cons m marks ih =>
    rw [depth?_cons, Option.bind_eq_some_iff] at h ⊢
    obtain ⟨d', hm, h⟩ := h
    exact ⟨_, step?_add hm n, ih h⟩

theorem bars_succ {d e : Nat} {marks : List Mark} (h : depth? d marks = some e) :
    bars (d + 1) marks = 0 := by
  induction marks generalizing d with
  | nil => rfl
  | cons m marks ih =>
    rw [depth?_cons, Option.bind_eq_some_iff] at h
    obtain ⟨d', hm, h⟩ := h
    simp [bars, step?_add hm 1, ih h]

def Alike (m m' : Mark) : Prop := (∀ d, step? d m' = step? d m) ∧ (m' = .bar ↔ m = .bar)

theorem depth?_map {g : Mark → Mark} (hg : ∀ m, Alike m (g m)) (d : Nat) (marks : List Mark) :
    depth? d (marks.map g) = depth? d marks := by
  simp only [depth?, List.foldlM_map, (hg _).1]

theorem bars_map {g : Mark → Mark} (hg : ∀ m, Alike m (g m)) (d : Nat) (marks : List Mark) :
    bars d (marks.map g) = bars d marks := by
  induction marks generalizing d with
  | nil => rfl
  | cons m marks ih => simp only [List.map_cons, bars, (hg m).1, (hg m).2, ih]

theorem before_alike (q : Sequel) (m : Mark) : Alike m (m.before q) := by
  unfold before
  split
  · exact ⟨by simp, by simp⟩
  · exact ⟨by simp, by simp⟩
  · exact ⟨fun _ => rfl, Iff.rfl⟩

@[simp] theorem event?_before (q : Sequel) (m : Mark) : (m.before q).event? = m.event? := by
  unfold before
  split <;> rfl

theorem isFinal_before (q : Sequel) (m : Mark) :
    (m.before q).isFinal = (m.isFinal && q = .stop) := by
  unfold before
  split
  · cases q <;> rfl
  · cases q <;> rfl
  · rename_i h₁ h₂
    unfold isFinal
    split
    · exact absurd rfl (h₁ _)
    · exact absurd rfl (h₂ _)
    · rfl

theorem isClear_before {q : Sequel} {m : Mark} (hm : m.isClear) (hq : m.isFinal → q ≠ .digit) :
    (m.before q).isClear := by
  unfold before
  split
  · rfl
  · cases q with
    | digit => exact absurd rfl (hq rfl)
    | _ => rfl
  · exact hm

end Mark

-- ---------------------------------------------------------------------------
-- Shapes read off outlines
-- ---------------------------------------------------------------------------

section
variable {fine : Bool} {context : Context} {t : Token} {ts : List Token}

theorem outlineFrom_cons (t : Token) (ts : List Token) :
    outlineFrom fine context (t :: ts) = (t.mark? fine (.of (untokenize ts))).toList ++
      outlineFrom fine (Lexer.contextAfter context t.kind) ts := rfl

theorem Token.mark?_of_isWhole (ht : t.isWhole) (q : Sequel) :
    t.mark? fine q = t.operator?.bind (TokenKind.mark? fine q) := if_pos ht

theorem Token.depth?_mark (ht : t.isWhole) (q : Sequel) (d : Nat) :
    Mark.depth? d (t.mark? fine q).toList =
      if 0 ≤ d + t.nesting then some (d + t.nesting).toNat else none := by
  rw [mark?_of_isWhole ht]
  have none' : 0 ≤ (d : Int) := Int.natCast_nonneg d
  unfold nesting
  cases t.operator? with
  | none => simp [none']
  | some k =>
    cases k with
    | groupOpen g =>
      cases g with
      | deferred m => cases fine <;> simp [TokenKind.mark?, none']
      | _ => simp [TokenKind.mark?]; omega
    | groupClose =>
      by_cases hd : 0 < d
      · have : 0 ≤ (d : Int) + -1 := by omega
        simp [TokenKind.mark?, hd, this]
        omega
      · have : ¬ 0 ≤ (d : Int) + -1 := by omega
        simp [TokenKind.mark?, hd, this]
    | escape e => cases e <;> cases fine <;> simp [TokenKind.mark?, none']
    | _ => simp [TokenKind.mark?, none']

theorem Token.depth?_broken (ht : ¬ t.isWhole) (q : Sequel) (d : Nat) :
    Mark.depth? d (t.mark? fine q).toList = none := by
  simp [mark?, ht]

theorem outlineFrom_depth? {d : Nat} (e : Nat) :
    Mark.depth? d (outlineFrom fine context ts) = some e ↔
      (∀ t ∈ ts, t.isWhole) ∧ Source.contextBehind context ts = .pattern ∧
        (∀ front, front <+: ts → 0 ≤ d + (front.map Token.nesting).sum) ∧
        d + (ts.map Token.nesting).sum = e := by
  induction ts generalizing context d with
  | nil =>
    cases context with
    | charClass => simp [outlineFrom, Source.contextBehind]
    | pattern =>
      have hnil : Mark.depth? d (outlineFrom fine .pattern []) = some d := rfl
      rw [hnil, Option.some.injEq]
      constructor
      · rintro rfl
        refine ⟨by simp, rfl, fun front hf => ?_, by simp⟩
        obtain rfl := List.prefix_nil.mp hf
        simp
      · rintro ⟨-, -, -, h⟩
        exact Int.ofNat_inj.mp (by simpa using h)
  | cons t ts ih =>
    rw [outlineFrom_cons, Mark.depth?_append, List.forall_mem_cons]
    by_cases ht : t.isWhole
    · rw [Token.depth?_mark ht]
      split
      · rename_i hd
        rw [Option.bind_some, ih]
        have hcast : ((d + t.nesting).toNat : Int) = d + t.nesting := Int.toNat_of_nonneg hd
        simp only [hcast, ht, true_and, Source.contextBehind, List.foldl_cons, List.map_cons,
          List.sum_cons, Int.add_assoc]
        refine and_congr_right fun _ => and_congr_right fun _ => and_congr_left fun _ => ?_
        constructor
        · intro h front hf
          cases front with
          | nil => simp
          | cons a front =>
            obtain ⟨rfl, hfront⟩ := List.cons_prefix_cons.mp hf
            simpa using h front hfront
        · intro h front hf
          simpa using h (t :: front) (List.cons_prefix_cons.mpr ⟨rfl, hf⟩)
      · rename_i hd
        simp only [Option.bind_none, reduceCtorEq, false_iff, not_and]
        intro _ _ h
        have := h [t] (by simp)
        simp at this
        omega
    · simp [Token.depth?_broken ht, ht]

theorem Token.mark?_event (ht : t.isWhole) (q : Sequel) :
    (t.mark? true q).bind Mark.event? = t.event? := by
  rw [mark?_of_isWhole ht]
  unfold event?
  cases t.operator? with
  | none => rfl
  | some k => cases k with
    | groupOpen g => cases g <;> rfl
    | escape e => cases e <;> rfl
    | _ => rfl

theorem outlineFrom_events (hw : ∀ t ∈ ts, t.isWhole) :
    (outlineFrom true context ts).filterMap Mark.event? = ts.filterMap Token.event? := by
  induction ts generalizing context with
  | nil => cases context <;> rfl
  | cons t ts ih =>
    rw [List.forall_mem_cons] at hw
    rw [outlineFrom_cons, List.filterMap_append, ih hw.2, List.filterMap_cons,
      ← Token.mark?_event hw.1 (.of (untokenize ts))]
    cases t.mark? true (.of (untokenize ts)) with
    | none => rfl
    | some m => cases h : m.event? <;> simp [h]

theorem Token.mark?_captures (ht : t.isWhole) (q : Sequel) :
    Event.captures ((t.mark? fine q).toList.filterMap Mark.event?) =
      if t.opensCapture then 1 else 0 := by
  rw [mark?_of_isWhole ht]
  unfold opensCapture
  cases t.operator? with
  | none => rfl
  | some k => cases k with
    | groupOpen g => cases g <;> cases fine <;> rfl
    | escape e => cases e <;> cases fine <;> rfl
    | _ => rfl

theorem outlineFrom_captures (hw : ∀ t ∈ ts, t.isWhole) :
    Event.captures ((outlineFrom fine context ts).filterMap Mark.event?) =
      ts.countP Token.opensCapture := by
  induction ts generalizing context with
  | nil => cases context <;> rfl
  | cons t ts ih =>
    rw [List.forall_mem_cons] at hw
    rw [outlineFrom_cons, List.filterMap_append, Event.captures_append, ih hw.2,
      Token.mark?_captures hw.1, List.countP_cons, Nat.add_comm]

theorem Token.mark?_bar (ht : t.isWhole) (q : Sequel) :
    t.mark? fine q = some .bar ↔ t.isBar := by
  rw [mark?_of_isWhole ht]
  unfold isBar
  cases t.operator? with
  | none => simp
  | some k => cases k with
    | groupOpen g => cases g <;> cases fine <;> simp [TokenKind.mark?]
    | escape e => cases e <;> cases fine <;> simp [TokenKind.mark?]
    | _ => simp [TokenKind.mark?]

theorem outlineFrom_bars {d e : Nat} (h : Mark.depth? d (outlineFrom fine context ts) = some e) :
    Mark.bars d (outlineFrom fine context ts) = Source.barsFrom d ts := by
  induction ts generalizing context d with
  | nil =>
    cases context with
    | charClass => simp [outlineFrom] at h
    | pattern => rfl
  | cons t ts ih =>
    rw [outlineFrom_cons, Mark.depth?_append, Option.bind_eq_some_iff] at h
    obtain ⟨d', hd, h⟩ := h
    have ht : t.isWhole := by
      by_contra ht
      simp [Token.depth?_broken ht] at hd
    have hnest := hd.symm.trans (Token.depth?_mark ht (.of (untokenize ts)) d)
    have hcast : (d' : Int) = d + t.nesting := by
      split at hnest
      · simp only [Option.some.injEq] at hnest
        omega
      · simp at hnest
    have hbar : t.mark? fine (.of (untokenize ts)) = some .bar ↔ t.isBar := Token.mark?_bar ht _
    rw [outlineFrom_cons, Mark.bars_append hd, ih h, Source.barsFrom, ← hcast]
    congr 1
    cases hm : t.mark? fine (.of (untokenize ts)) with
    | none =>
      have : t.isBar = false := by simpa [hm] using hbar
      simp [this, Mark.bars]
    | some m =>
      rw [hm, Option.some.injEq] at hbar
      have hzero : (d : Int) = 0 ↔ d = 0 := Int.natCast_eq_zero
      simp only [Option.toList_some, Mark.bars, Nat.add_zero, hbar, Bool.and_eq_true,
        beq_iff_eq, hzero]

theorem Token.mark?_final (ht : t.isWhole) (q : Sequel) :
    (t.mark? true q).any Mark.isFinal = (t.isReference && q = .stop) := by
  rw [mark?_of_isWhole ht]
  unfold isReference
  cases t.operator? with
  | none => rfl
  | some k => cases k with
    | groupOpen g => cases g <;> cases q <;> rfl
    | escape e => cases e <;> cases q <;> rfl
    | _ => rfl

theorem outlineFrom_final (hw : ∀ t ∈ ts, t.isWhole) (hne : ∀ t ∈ ts, t.text ≠ []) :
    (outlineFrom true context ts).any Mark.isFinal = ts.getLast?.any Token.isReference := by
  induction ts generalizing context with
  | nil => cases context <;> rfl
  | cons t ts ih =>
    rw [List.forall_mem_cons] at hw hne
    have hmark : (t.mark? true (.of (untokenize ts))).toList.any Mark.isFinal =
        (t.isReference && Sequel.of (untokenize ts) = .stop) := by
      rw [← Token.mark?_final hw.1]
      cases t.mark? true (.of (untokenize ts)) <;> simp
    rw [outlineFrom_cons, List.any_append, ih hw.2 hne.2, hmark]
    cases ts with
    | nil => simp [untokenize, Sequel.of]
    | cons u us =>
      have hq : Sequel.of (untokenize (u :: us)) ≠ .stop := by
        obtain ⟨c, w, hc⟩ := List.exists_cons_of_ne_nil (hne.2 u (by simp))
        rw [untokenize_cons, hc, List.cons_append, Sequel.of]
        split <;> simp
      simp [hq]

theorem Token.mark?_clear (t : Token) (q : Sequel) :
    (t.mark? true q).all Mark.isClear = !(t.isMarker && q = .digit) := by
  by_cases ht : t.isWhole
  · rw [mark?_of_isWhole ht]
    unfold isMarker
    cases t.operator? with
    | none => rfl
    | some k => cases k with
      | groupOpen g => cases g <;> cases q <;> rfl
      | escape e => cases e <;> cases q <;> rfl
      | _ => rfl
  · have hm : t.isMarker = false := by
      unfold isMarker operator?
      unfold isWhole at ht
      split
      · rename_i h
        split at h
        · simp at h
        · rw [Option.some.injEq] at h
          simp [h] at ht
      · rfl
    simp [mark?, ht, hm, Mark.isClear]

theorem outlineFrom_clear : (∀ m ∈ outlineFrom true context ts, m.isClear) ↔
    ∀ front t rest, ts = front ++ t :: rest → t.isMarker →
      (untokenize rest).head?.any Char.isDigit = false := by
  induction ts generalizing context with
  | nil => cases context <;> simp [outlineFrom, Mark.isClear]
  | cons t ts ih =>
    have hmark := t.mark?_clear (.of (untokenize ts))
    rw [outlineFrom_cons, List.forall_mem_append, ih]
    have hhead : (∀ m ∈ (t.mark? true (.of (untokenize ts))).toList, m.isClear) ↔
        (t.isMarker → (untokenize ts).head?.any Char.isDigit = false) := by
      have hd := Sequel.of_eq_digit (t := untokenize ts)
      cases hm : t.mark? true (.of (untokenize ts)) <;> simp_all <;> grind
    rw [hhead]
    constructor
    · rintro ⟨h, hs⟩ front u rest he
      cases front with
      | nil =>
        simp only [List.nil_append, List.cons.injEq] at he
        obtain ⟨rfl, rfl⟩ := he
        exact h
      | cons a front =>
        simp only [List.cons_append, List.cons.injEq] at he
        exact hs front u rest he.2
    · intro h
      exact ⟨h [] t ts rfl, fun front u rest he => h (t :: front) u rest (by rw [he]; rfl)⟩

end

namespace Lexer

theorem text_ne_nil {context : Context} {s : Text} {t : Token} (h : t ∈ lexFrom context s) :
    t.text ≠ [] := by
  fun_induction lexFrom context s with
  | case1 => simp at h
  | case2 context c rest kind n _ ih =>
    rcases List.mem_cons.mp h with rfl | h
    · simp
    · exact ih h

end Lexer

namespace Source

variable {fine : Bool} {s : Text}

def outline (fine : Bool) (source : Text) : List Mark := Lexer.outlineAt fine .pattern source

theorem closed_iff (fine : Bool) : Closed s ↔ Mark.depth? 0 (outline fine s) = some 0 := by
  rw [outline, Lexer.outlineAt, outlineFrom_depth?]
  simp only [Int.ofNat_zero, Int.zero_add]
  exact ⟨fun h => ⟨h.whole, h.leaves_class, h.nonneg, h.balanced⟩,
    fun ⟨hw, hc, hn, hb⟩ => ⟨hw, hc, hn, hb⟩⟩

instance : Decidable (Closed s) := decidable_of_iff _ (closed_iff false).symm

/-- The events that an outline shows: all of them, or the captures only. -/
def signals (fine : Bool) (source : Text) : List Event :=
  (outline fine source).filterMap Mark.event?

theorem Closed.captures (h : Closed s) (fine : Bool) :
    Event.captures (signals fine s) = captureCount s :=
  outlineFrom_captures h.whole

theorem Closed.events (h : Closed s) : signals true s = events s := outlineFrom_events h.whole

theorem Closed.bars (h : Closed s) (fine : Bool) : Mark.bars 0 (outline fine s) = topBars s :=
  outlineFrom_bars ((closed_iff fine).mp h)

theorem Closed.final (h : Closed s) : (outline true s).any Mark.isFinal = (references s).final :=
  outlineFrom_final h.whole fun _ => Lexer.text_ne_nil

theorem clear_iff : Clear s ↔ ∀ m ∈ outline true s, m.isClear := outlineFrom_clear.symm

instance : Decidable (Clear s) := decidable_of_iff _ clear_iff.symm

end Source

end Splice
