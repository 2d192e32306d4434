import Splice.Token.Lexer

/-!
# Groups and alternation of a source

How many groups a source captures, whether it alternates at its top level, and
whether it is one group from end to end. Parentheses are counted and not
matched up, so a source need not be well formed to have answers.
-/

namespace Splice

/-- How a token changes the nesting depth. Markers open nothing. -/
def Token.nesting (t : Token) : Int :=
  match t.operator? with
  | some (.groupOpen (.deferred _)) => 0
  | some (.groupOpen _) => 1
  | some .groupClose => -1
  | _ => 0

def Token.isBar (t : Token) : Bool := t.operator? == some .pipe

namespace Source

def captureCount (source : Text) : Nat := (lex source).countP Token.opensCapture

/-- Whether a bar stands at depth zero, when reading starts at some depth. -/
def alternatesFrom (depth : Int) : List Token → Bool
  | [] => false
  | t :: rest => (t.isBar && depth == 0) || alternatesFrom (depth + t.nesting) rest

/-- Whether a source has a bar outside every group and class. -/
def alternates (source : Text) : Bool := alternatesFrom 0 (lex source)

/-- Whether the first parenthesis that leaves no group open is the last token.
A marker outside groups counts as such a parenthesis, and so does one that
closes nothing. -/
def closesAtEnd (depth : Nat) : List Token → Bool
  | [] => false
  | t :: rest =>
    match t.operator? with
    | some (.groupOpen (.deferred _)) => if depth = 0 then rest.isEmpty else closesAtEnd depth rest
    | some (.groupOpen _) => closesAtEnd (depth + 1) rest
    | some .groupClose => if depth - 1 = 0 then rest.isEmpty else closesAtEnd (depth - 1) rest
    | _ => closesAtEnd depth rest

/-- Whether a source is one group or assertion from end to end. -/
def isSingleGroup (source : Text) : Bool :=
  match lex source with
  | [] => false
  | first :: rest =>
    match first.kind with
    | .groupOpen _ => closesAtEnd 0 (first :: rest)
    | _ => false

end Source

end Splice
