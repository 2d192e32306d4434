import Splice.GroupName
import Splice.Token.Lexer

/-!
# Narrow sources in wide mode

Wide mode reads sources under the `u` flag. Some narrow constructs are errors
there and some mean another thing; `hasWideProblem` finds them. Stray braces
and brackets, `.` and `[^]` are no problem, because `promote` respells them.
-/

namespace Splice

/-- The members of a class, as far as ranges depend on them. -/
inductive ClassMember
  /-- A shorthand such as `\w`, which cannot bound a range. -/
  | shorthand
  | other
  deriving DecidableEq, Repr

/-- How far the body of a class has been read. -/
structure ClassProgress where
  atStart : Bool
  /-- The member that a dash would make the start of a range. -/
  last : Option ClassMember
  /-- The member before an open range's dash. -/
  rangeStart : Option ClassMember
  deriving DecidableEq, Repr

namespace ClassProgress

def start : ClassProgress := ⟨true, none, none⟩

/-- Reads a member. Fails when it completes a range with a shorthand at an end. -/
def member (p : ClassProgress) (m : ClassMember) : Option ClassProgress :=
  match p.rangeStart with
  | some first =>
    if first = .shorthand ∨ m = .shorthand then none else some ⟨false, none, none⟩
  | none => some ⟨false, some m, none⟩

/-- Reads a dash: it opens a range behind a member, and is a member elsewhere. -/
def dash (p : ClassProgress) : Option ClassProgress :=
  match p.last, p.rangeStart with
  | some first, none => some ⟨false, none, some first⟩
  | _, _ => ({ p with last := none } : ClassProgress).member .other

end ClassProgress

/-- Characters whose escapes mean the same in both modes, wherever they stand. -/
def sharedEscapes : Text := "^$\\.*+?()[]\x7b\x7d|/fnrtv".toList

/-- Characters whose escapes mean the same in both modes outside classes. -/
def patternEscapes : Text := sharedEscapes ++ ['b', 'B']

/-- Characters whose escapes mean the same in both modes inside classes. -/
def classEscapes : Text := sharedEscapes ++ ['b', '-']

/-- The name between `\k<` and `>`. -/
def Token.referencedName (t : Token) : Text := (t.text.drop 3).dropLast

/-- An escape outside classes that wide mode reads in another way. -/
def Token.patternEscapeChanges (t : Token) : Escape → Bool
  | .char c => !patternEscapes.contains c
  | .octal | .property | .unicodeBraced => true
  | .namedReference => !GroupName.isValid t.referencedName
  | _ => false

/-- An escape inside a class that wide mode reads in another way. -/
def Escape.classEscapeChanges : Escape → Bool
  | .char c => !classEscapes.contains c
  | .octal | .property | .unicodeBraced | .backReference _ | .namedReference => true
  | _ => false

structure WideProgress where
  /-- The groups that are open, innermost first. -/
  groups : List GroupOpener
  /-- Whether the last token outside classes closed a lookahead. -/
  afterLookahead : Bool
  charClass : ClassProgress
  deriving DecidableEq, Repr

namespace WideProgress

def start : WideProgress := ⟨[], false, ⟨false, none, none⟩⟩

def classToken (p : ClassProgress) : TokenKind → Option ClassProgress
  | .classClose => some p
  | .caret => if p.atStart then some { p with atStart := false } else p.member .other
  | .dash => p.dash
  | .escape (.shorthand _) => p.member .shorthand
  | .escape e => if e.classEscapeChanges then none else p.member .other
  | .garbage => none
  | _ => p.member .other

def patternToken (p : WideProgress) (t : Token) : Option WideProgress :=
  let next := { p with afterLookahead := false }
  match t.kind with
  | .escape e => if t.patternEscapeChanges e then none else some next
  | .groupOpen (.deferred _) => some next
  | .groupOpen g => some { next with groups := g :: p.groups }
  | .groupClose =>
    some { next with
      groups := p.groups.tail
      afterLookahead := p.groups.head?.any GroupOpener.isLookahead }
  | .classOpen .plain => some { next with charClass := .start }
  | .garbage => none
  | kind => if kind.isQuantifier && p.afterLookahead then none else some next

/-- Reads one token. Fails where wide mode differs. -/
def step (p : WideProgress) (t : Token) : Option WideProgress :=
  if t.inClass then (classToken p.charClass t.kind).map fun c => { p with charClass := c }
  else p.patternToken t

end WideProgress

namespace Source

/-- Whether reading a narrow source in wide mode fails or changes its meaning,
spellings that `promote` replaces aside. -/
def hasWideProblem (source : Text) : Bool :=
  ((lex source).foldlM WideProgress.step .start).isNone

end Source

-- ---------------------------------------------------------------------------
-- Promotion
-- ---------------------------------------------------------------------------

/-- Any code unit but a line terminator, which is what narrow `.` matches. A
character beyond the basic plane is two units there, so none is in the class. -/
def wideDot : Text := "[^\\n\\r\\u2028\\u2029\\u\x7b10000\x7d-\\u\x7b10FFFF\x7d]".toList

def wideAnyUnit : Text := "[\\u0000-\\uFFFF]".toList

def Token.promoted (t : Token) : Text :=
  match t.operator? with
  | some (.braceOpen .literal) => ['\\', '{']
  | some .braceClose => ['\\', '}']
  | some .classClose => ['\\', ']']
  | some .dot => wideDot
  | some (.classOpen .emptyNegated) => wideAnyUnit
  | _ => t.text

namespace Source

/-- Respells a narrow source for wide mode. Keeps its meaning only where
`hasWideProblem` finds nothing. -/
def promote (source : Text) : Text := ((lex source).map Token.promoted).flatten

end Source

end Splice
