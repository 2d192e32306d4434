import Splice.Text

/-!
# Pattern flags

A set of the seven flag letters. `Flags.parse` reads a set from its letters
in any order and rejects unknown and repeated ones; `Flags.render` writes it
in the order `dgimsuy`.
-/

namespace Splice

inductive Flag
  | indices
  | global
  | ignoreCase
  | multiline
  | dotAll
  | unicode
  | sticky
  deriving DecidableEq, Repr

namespace Flag

def all : List Flag := [.indices, .global, .ignoreCase, .multiline, .dotAll, .unicode, .sticky]

def letter : Flag → Char
  | .indices => 'd'
  | .global => 'g'
  | .ignoreCase => 'i'
  | .multiline => 'm'
  | .dotAll => 's'
  | .unicode => 'u'
  | .sticky => 'y'

def ofLetter? : Char → Option Flag
  | 'd' => some .indices
  | 'g' => some .global
  | 'i' => some .ignoreCase
  | 'm' => some .multiline
  | 's' => some .dotAll
  | 'u' => some .unicode
  | 'y' => some .sticky
  | _ => none

theorem ofLetter_letter (f : Flag) : ofLetter? f.letter = some f := by cases f <;> rfl

end Flag

structure Flags where
  indices : Bool
  global : Bool
  ignoreCase : Bool
  multiline : Bool
  dotAll : Bool
  unicode : Bool
  sticky : Bool
  deriving DecidableEq, Repr

inductive FlagsError
  | unknown (letters : Text)
  | duplicate (letters : Text)
  deriving DecidableEq, Repr

namespace Flags

def has (s : Flags) : Flag → Bool
  | .indices => s.indices
  | .global => s.global
  | .ignoreCase => s.ignoreCase
  | .multiline => s.multiline
  | .dotAll => s.dotAll
  | .unicode => s.unicode
  | .sticky => s.sticky

def ofPred (p : Flag → Bool) : Flags :=
  ⟨p .indices, p .global, p .ignoreCase, p .multiline, p .dotAll, p .unicode, p .sticky⟩

theorem has_ofPred (p : Flag → Bool) (f : Flag) : (ofPred p).has f = p f := by cases f <;> rfl

theorem ext_has {s t : Flags} (h : ∀ f, s.has f = t.has f) : s = t := by
  cases s
  cases t
  simp only [Flags.mk.injEq]
  exact ⟨h .indices, h .global, h .ignoreCase, h .multiline, h .dotAll, h .unicode, h .sticky⟩

def empty : Flags := ofPred fun _ => false

def insert (s : Flags) (f : Flag) : Flags := ofPred fun g => s.has g || g == f

def union (s t : Flags) : Flags := ofPred fun f => s.has f || t.has f

def difference (s t : Flags) : Flags := ofPred fun f => s.has f && !t.has f

theorem has_empty (f : Flag) : empty.has f = false := has_ofPred _ f

theorem has_insert (s : Flags) (f g : Flag) : (s.insert f).has g = (s.has g || g == f) :=
  has_ofPred _ g

def isEmpty (s : Flags) : Bool := s == empty

def render (s : Flags) : Text := (Flag.all.filter s.has).map Flag.letter

/-- What has been read of a flag text so far. -/
structure Reading where
  flags : Flags
  unknown : Text
  duplicate : Text

def Reading.start : Reading := ⟨empty, [], []⟩

/-- Reads one letter. Every occurrence after the first is a duplicate. -/
def Reading.next (r : Reading) (c : Char) : Reading :=
  match Flag.ofLetter? c with
  | none => { r with unknown := r.unknown ++ [c] }
  | some f =>
    if r.flags.has f then { r with duplicate := r.duplicate ++ [c] }
    else { r with flags := r.flags.insert f }

/-- Unknown letters are reported before duplicate ones. -/
def Reading.finish (r : Reading) : Except FlagsError Flags :=
  if r.unknown ≠ [] then .error (.unknown r.unknown)
  else if r.duplicate ≠ [] then .error (.duplicate r.duplicate)
  else .ok r.flags

def parse (t : Text) : Except FlagsError Flags := (t.foldl Reading.next .start).finish

end Flags

end Splice
