import Splice.Proofs.Scanning
import Splice.Source.Groups
import Splice.Source.References

/-!
# The shape of a source

What composition depends on: the groups that a source captures and the
references that it holds, whether its groups and classes are closed, and the
bars that stand outside all groups.
-/

namespace Splice

-- ---------------------------------------------------------------------------
-- Events
-- ---------------------------------------------------------------------------

/-- A capturing group that opens, or a reference to one. -/
inductive Event
  | capture
  | reference (number : Nat)
  | deferred (marker : Marker)
  deriving DecidableEq, Repr

def TokenKind.event? : TokenKind → Option Event
  | .escape (.backReference n) => some (.reference n)
  | .groupOpen (.deferred m) => some (.deferred m)
  | .groupOpen g => if g.isCapture then some .capture else none
  | _ => none

def Token.event? (t : Token) : Option Event := t.operator?.bind TokenKind.event?

def Event.isDeferred : Event → Bool
  | .deferred _ => true
  | _ => false

def Event.isReference : Event → Bool
  | .capture => false
  | _ => true

def Event.captures (events : List Event) : Nat := events.count .capture

theorem Event.captures_append (first second : List Event) :
    captures (first ++ second) = captures first + captures second := List.count_append

theorem Token.event?_isReference (t : Token) :
    t.event?.any Event.isReference = t.isReference := by
  unfold event? isReference
  cases t.operator? with
  | none => rfl
  | some k => cases k with
    | escape e => cases e <;> rfl
    | groupOpen g => cases g <;> rfl
    | _ => rfl

theorem Token.event?_capture (t : Token) :
    (t.event? == some .capture) = t.opensCapture := by
  unfold event? opensCapture
  cases t.operator? with
  | none => rfl
  | some k => cases k with
    | escape e => cases e <;> rfl
    | groupOpen g => cases g <;> rfl
    | _ => rfl

namespace Source

def events (source : Text) : List Event := (lex source).filterMap Token.event?

theorem captures_events (s : Text) : Event.captures (events s) = captureCount s := by
  unfold events captureCount Event.captures
  induction lex s with
  | nil => rfl
  | cons t ts ih =>
    have hc := t.event?_capture
    rw [List.countP_cons, ← hc, ← ih, List.filterMap_cons]
    cases he : t.event? with
    | none => simp
    | some e => cases e <;> simp

theorem references_present (s : Text) :
    (references s).present = (events s).any Event.isReference := by
  unfold events references
  induction lex s with
  | nil => rfl
  | cons t ts ih =>
    simp only [List.any_cons] at ih ⊢
    rw [← t.event?_isReference, ih, List.filterMap_cons]
    cases t.event? with
    | none => rfl
    | some e => rfl

-- ---------------------------------------------------------------------------
-- Closed sources
-- ---------------------------------------------------------------------------

/-- Where a source is read on behind some tokens. -/
def contextBehind (start : Context) (tokens : List Token) : Context :=
  tokens.foldl (fun context t => Lexer.contextAfter context t.kind) start

/-- A source whose tokens lack nothing, which closes every class that it opens,
and whose groups balance without ever going below zero. -/
structure Closed (source : Text) : Prop where
  whole : ∀ t ∈ lex source, t.isWhole
  leaves_class : contextBehind .pattern (lex source) = .pattern
  nonneg : ∀ front, front <+: lex source → 0 ≤ (front.map Token.nesting).sum
  balanced : ((lex source).map Token.nesting).sum = 0

end Source

def Token.isMarker (t : Token) : Bool :=
  match t.operator? with
  | some (.groupOpen (.deferred _)) => true
  | _ => false

namespace Source

/-- A source in which no digit stands directly behind a marker. -/
def Clear (source : Text) : Prop :=
  ∀ front t rest, lex source = front ++ t :: rest → t.isMarker →
    (untokenize rest).head?.any Char.isDigit = false

/-- A source that composition keeps intact. -/
def Composable (source : Text) : Prop := Closed source ∧ Clear source

def MarkerFree (source : Text) : Prop := ∀ t ∈ lex source, t.isMarker = false

instance (s : Text) : Decidable (MarkerFree s) :=
  inferInstanceAs (Decidable (∀ t ∈ lex s, t.isMarker = false))

theorem MarkerFree.clear {s : Text} (h : MarkerFree s) : Clear s := by
  intro front t rest hs ht
  have := h t (by simp [hs])
  simp [this] at ht

end Source

theorem Token.event?_isDeferred (t : Token) : t.event?.any Event.isDeferred = t.isMarker := by
  unfold event? isMarker
  cases t.operator? with
  | none => rfl
  | some k => cases k with
    | escape e => cases e <;> rfl
    | groupOpen g => cases g <;> rfl
    | _ => rfl

namespace Source

theorem markerFree_iff {s : Text} : MarkerFree s ↔ ∀ e ∈ events s, e.isDeferred = false := by
  simp only [MarkerFree, events, List.mem_filterMap]
  constructor
  · rintro h e ⟨t, ht, he⟩
    have := t.event?_isDeferred
    rw [he, h t ht] at this
    exact this
  · intro h t ht
    rw [← t.event?_isDeferred]
    cases he : t.event? with
    | none => rfl
    | some e => exact h e ⟨t, ht, he⟩

-- ---------------------------------------------------------------------------
-- Bars
-- ---------------------------------------------------------------------------

/-- The number of bars at depth zero, when reading starts at some depth. -/
def barsFrom (depth : Int) : List Token → Nat
  | [] => 0
  | t :: rest => (if t.isBar && depth == 0 then 1 else 0) + barsFrom (depth + t.nesting) rest

def topBars (source : Text) : Nat := barsFrom 0 (lex source)

theorem alternatesFrom_eq (depth : Int) (ts : List Token) :
    alternatesFrom depth ts = decide (0 < barsFrom depth ts) := by
  induction ts generalizing depth with
  | nil => rfl
  | cons t ts ih =>
    rw [alternatesFrom, barsFrom, ih]
    by_cases hb : (t.isBar && depth == 0) = true
    · simp only [hb, if_true, Bool.true_or]
      exact (decide_eq_true (by omega)).symm
    · simp [hb]

theorem alternates_eq (s : Text) : alternates s = decide (0 < topBars s) := alternatesFrom_eq 0 _

end Source

end Splice
