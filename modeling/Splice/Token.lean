import Splice.Marker

/-!
# Tokens

The pieces into which a pattern source is cut. Groups are not matched up:
a token knows its own text, its kind, and whether it was read inside a
character class, where most characters stand for themselves.
-/

namespace Splice

/-- Where a token was read. The bracket that opens a class is read outside it,
the one that closes it inside. -/
inductive Context
  | pattern
  | charClass
  deriving DecidableEq, Repr

/-- What a backslash introduces. -/
inductive Escape
  /-- A number from `\1` to `\99`; a second digit is always taken. -/
  | backReference (number : Nat)
  /-- A `\0` before no digit. -/
  | null
  /-- A `\0` before a digit, with up to two octal digits. -/
  | octal
  /-- One of `\d`, `\s`, `\w` and their complements. -/
  | shorthand (letter : Char)
  /-- A name, as in `\k<name>`. -/
  | namedReference
  /-- Four hexadecimal digits, as in `\u0061`. -/
  | unicode
  /-- Hexadecimal digits in braces, as in `\u{61}`. -/
  | unicodeBraced
  /-- Two hexadecimal digits, as in `\x61`. -/
  | hex
  /-- A control letter, as in `\cA`. -/
  | control
  /-- A character property, as in `\p{L}` or `\P{L}`. -/
  | property
  /-- Any other character, the word boundaries `\b` and `\B` among them. -/
  | char (c : Char)
  deriving DecidableEq, Repr

/-- The forms of an opening parenthesis. -/
inductive GroupOpener
  | capture
  /-- A group with a name; the opener `(?<name>` is taken whole. -/
  | named
  | nonCapture
  | lookahead
  | negativeLookahead
  | lookbehind
  | negativeLookbehind
  /-- Any other `(?`, as of inline modifiers. -/
  | modifiers
  /-- A whole marker; it opens nothing. -/
  | deferred (marker : Marker)
  deriving DecidableEq, Repr

inductive ClassOpener
  | plain
  /-- The whole class `[^]`. -/
  | emptyNegated
  deriving DecidableEq, Repr

inductive Brace
  /-- One of `{n}`, `{n,}` and `{n,m}`, taken whole. -/
  | quantifier
  | literal
  deriving DecidableEq, Repr

inductive TokenKind
  | escape (e : Escape)
  | groupOpen (g : GroupOpener)
  | groupClose
  | classOpen (c : ClassOpener)
  | classClose
  | pipe
  | dot
  | caret
  | dollar
  | dash
  | star
  | plus
  | question
  | braceOpen (b : Brace)
  | braceClose
  | char
  /-- A backslash that ends the source. -/
  | garbage
  deriving DecidableEq, Repr

structure Token where
  kind : TokenKind
  text : Text
  context : Context
  deriving DecidableEq, Repr

def GroupOpener.isCapture : GroupOpener → Bool
  | .capture | .named => true
  | _ => false

def GroupOpener.isLookahead : GroupOpener → Bool
  | .lookahead | .negativeLookahead => true
  | _ => false

def GroupOpener.isLookaround : GroupOpener → Bool
  | .lookahead | .negativeLookahead | .lookbehind | .negativeLookbehind => true
  | _ => false

/-- Whether a kind repeats what stands before it. -/
def TokenKind.isQuantifier : TokenKind → Bool
  | .star | .plus | .question | .braceOpen .quantifier => true
  | _ => false

namespace Token

def inClass (t : Token) : Bool := t.context == .charClass

/-- The kind of a token outside classes; inside them operators are plain
characters and have none. -/
def operator? (t : Token) : Option TokenKind := if t.inClass then none else some t.kind

def opensCapture (t : Token) : Bool :=
  match t.operator? with
  | some (.groupOpen g) => g.isCapture
  | _ => false

def isReference (t : Token) : Bool :=
  match t.operator? with
  | some (.escape (.backReference _)) | some (.groupOpen (.deferred _)) => true
  | _ => false

end Token

end Splice
