import Splice.Error
import Splice.Source.Groups

/-!
# What a quantifier binds to

A quantifier written behind a source repeats its last atom only. This module
decides whether that is the whole source, part of it, or nothing at all.
-/

namespace Splice

/-- What can be said about repeating a source before it is known to be one
group. -/
inductive Repeatability
  | nothing
  /-- A quantifier binds to the whole source. -/
  | whole
  /-- It binds to the whole source if that is one group. `assertion` says that
  this group would be a lookaround, which cannot be repeated. -/
  | wholeIfGroup (assertion : Bool)
  deriving DecidableEq, Repr

/-- Escapes that stand for one character or one set. Properties and braced
code points do so in wide mode only. -/
def Escape.isAtomic (wide : Bool) : Escape → Bool
  | .char c => c != 'b' && c != 'B'
  | .property | .unicodeBraced => wide
  | .namedReference => false
  | _ => true

/-- A token that is one atom by itself. -/
def TokenKind.isAtomic (wide : Bool) : TokenKind → Bool
  | .escape e => e.isAtomic wide
  | .classOpen .emptyNegated => true
  | _ => false

namespace Source

def anchors : List Text := ["".toList, "^".toList, "$".toList, "\\b".toList, "\\B".toList]

/-- Whether some tokens are one class from bracket to bracket. -/
def isSingleClass : List Token → Bool
  | [] | [_] => false
  | first :: second :: rest =>
    first.operator? == some (.classOpen .plain) &&
      ((second :: rest).getLast?.any fun t => t.kind == .classClose && t.inClass) &&
      (second :: rest).dropLast.all Token.inClass

def repeatability (wide : Bool) (source : Text) : Repeatability :=
  if anchors.contains source then .nothing
  else if source.length = 1 then .whole
  else
    let tokens := lex source
    let single := match tokens with
      | [t] => t.kind.isAtomic wide
      | _ => isSingleClass tokens
    if single then .whole
    else .wholeIfGroup <| match tokens.head?.map Token.kind with
      | some (.groupOpen g) => g.isLookaround
      | _ => false

def nothingToRepeat (source : Text) : Error :=
  .nothingToRepeat (if source = [] then "(?:)".toList else source)

/-- Whether a source has to be wrapped before a quantifier, given whether it is
one group. -/
def wrapsGiven (source : Text) (isGroup assertion : Bool) : Except Error Bool :=
  if !isGroup then .ok true
  else if assertion then .error (nothingToRepeat source)
  else .ok false

/-- Whether a source has to be wrapped for a quantifier to apply to all of it. -/
def needsWrapping (wide : Bool) (source : Text) : Except Error Bool :=
  match repeatability wide source with
  | .nothing => .error (nothingToRepeat source)
  | .whole => .ok false
  | .wholeIfGroup assertion => wrapsGiven source (isSingleGroup source) assertion

end Source

end Splice
