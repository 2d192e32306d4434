import Splice.Token.Lexer

/-!
# Flags spelled out in the source

A composite has no `s` flag of its own and, when line anchors are folded, no
`m` flag either. Sources built under these flags are respelled: `.` as `[^]`,
and `^` and `$` as explicit tests for a line boundary. Anchors that are
already spelled out are copied as they stand.
-/

namespace Splice

def foldedStart : Text := "(?:^|(?<=[\\n\\r\\u2028\\u2029]))".toList

def foldedEnd : Text := "(?:$|(?=[\\n\\r\\u2028\\u2029]))".toList

def foldedAnchor? (t : Text) : Option Text :=
  [foldedStart, foldedEnd].find? fun anchor => anchor.isPrefixOf t

/-- The spelling of a token under the flags that are emulated. -/
def Token.emulated (dotAll fold : Bool) (t : Token) : Text :=
  match t.operator? with
  | some .dot => if dotAll then "[^]".toList else t.text
  | some .caret => if fold then foldedStart else t.text
  | some .dollar => if fold then foldedEnd else t.text
  | _ => t.text

namespace Source

/-- Respells some tokens. `copied` counts the characters at the front that are
already written as part of a folded anchor; tokens that start in them are
skipped whole. -/
def emulateFrom (dotAll fold : Bool) (copied : Nat) : List Token → Text
  | [] => []
  | t :: rest =>
    if copied > 0 then emulateFrom dotAll fold (copied - t.text.length) rest
    else
      match if fold && !t.inClass then foldedAnchor? (untokenize (t :: rest)) else none with
      | some anchor => anchor ++ emulateFrom dotAll fold (anchor.length - t.text.length) rest
      | none => t.emulated dotAll fold ++ emulateFrom dotAll fold 0 rest

/-- Spells out `.` for `dotAll` and the anchors for `fold`, outside classes. -/
def emulate (dotAll fold : Bool) (source : Text) : Text :=
  emulateFrom dotAll fold 0 (lex source)

end Source

end Splice
