import Splice.Token

/-!
# Cutting a source into tokens

`lex` reads a source from left to right. A token's first character and the
text behind it decide its kind and its length; the kind alone decides whether
the next token is read inside a class. Every reader below answers how many
characters a construct takes, so no character is lost or read twice.
-/

namespace Splice.Lexer

-- ---------------------------------------------------------------------------
-- Lengths of look-ahead constructs
-- ---------------------------------------------------------------------------

def startsWithHex (n : Nat) (t : Text) : Bool :=
  n ≤ t.length && (t.take n).all Text.isHexDigit

/-- Length of an opening brace, characters of one kind, and a closing brace. -/
def bracedLength? (allowed : Char → Bool) : Text → Option Nat
  | '{' :: body =>
    match body.takeWhile allowed with
    | [] => none
    | inside =>
      if (body.drop inside.length).head? = some '}' then some (inside.length + 2) else none
  | _ => none

/-- Length of the body of a property escape: a name, or a name and a value. -/
def propertyLength? (t : Text) : Option Nat :=
  bracedLength? (fun c => c.isAlphanum || c == '_' || c == '=') t

def isNameEnd (c : Char) : Bool := c == '>' || c == ']' || c == '(' || c == ')'

/-- Length of `name>`. A name is not empty and holds no bracket or parenthesis. -/
def nameLength? (t : Text) : Option Nat :=
  match t.takeWhile (!isNameEnd ·) with
  | [] => none
  | name => if (t.drop name.length).head? = some '>' then some (name.length + 1) else none

/-- Length of `n}`, `n,}` or `n,m}`. -/
def quantifierLength? (t : Text) : Option Nat :=
  match Text.leadingDigits t with
  | [] => none
  | least =>
    match t.drop least.length with
    | '}' :: _ => some (least.length + 1)
    | ',' :: rest =>
      let most := Text.leadingDigits rest
      if (rest.drop most.length).head? = some '}' then some (least.length + most.length + 2)
      else none
    | _ => none

-- ---------------------------------------------------------------------------
-- Escapes
-- ---------------------------------------------------------------------------

def digit (c : Char) : Nat := c.toNat - '0'.toNat

def scanReference (c : Char) : Text → Escape × Nat
  | d :: _ => if d.isDigit then (.backReference (10 * digit c + digit d), 2)
    else (.backReference (digit c), 1)
  | [] => (.backReference (digit c), 1)

def scanZero (rest : Text) : Escape × Nat :=
  let octals := (rest.take 2).takeWhile Text.isOctalDigit
  if octals = [] && !rest.head?.any Char.isDigit then (.null, 1) else (.octal, octals.length + 1)

def scanUnicode (rest : Text) : Escape × Nat :=
  match bracedLength? Text.isHexDigit rest with
  | some n => (.unicodeBraced, n + 1)
  | none => if startsWithHex 4 rest then (.unicode, 5) else (.char 'u', 1)

def scanNamedReference : Text → Escape × Nat
  | '<' :: rest =>
    match nameLength? rest with
    | some n => (.namedReference, n + 2)
    | none => (.char 'k', 1)
  | _ => (.char 'k', 1)

/-- The escape that starts with a character, and its length without the
backslash. -/
def scanEscape (c : Char) (rest : Text) : Escape × Nat :=
  if c.isDigit then if c = '0' then scanZero rest else scanReference c rest
  else match c with
    | 'd' | 'D' | 's' | 'S' | 'w' | 'W' => (.shorthand c, 1)
    | 'k' => scanNamedReference rest
    | 'u' => scanUnicode rest
    | 'x' => if startsWithHex 2 rest then (.hex, 3) else (.char c, 1)
    | 'c' => if rest.head?.any Char.isAlpha then (.control, 2) else (.char c, 1)
    | 'p' | 'P' =>
      match propertyLength? rest with
      | some n => (.property, n + 1)
      | none => (.char c, 1)
    | _ => (.char c, 1)

-- ---------------------------------------------------------------------------
-- Tokens
-- ---------------------------------------------------------------------------

/-- The opener of a group, read behind its parenthesis, and its length. -/
def scanGroup (rest : Text) : GroupOpener × Nat :=
  match Marker.tail? rest with
  | some (marker, n) => (.deferred marker, n)
  | none =>
    match rest with
    | '?' :: ':' :: _ => (.nonCapture, 2)
    | '?' :: '=' :: _ => (.lookahead, 2)
    | '?' :: '!' :: _ => (.negativeLookahead, 2)
    | '?' :: '<' :: '=' :: _ => (.lookbehind, 3)
    | '?' :: '<' :: '!' :: _ => (.negativeLookbehind, 3)
    | '?' :: '<' :: name => (.named, 2 + (nameLength? name).getD 0)
    | '?' :: _ => (.modifiers, 1)
    | _ => (.capture, 0)

/-- The kind of the token that starts with a character, and how many
characters it takes from the text behind. -/
def scan (context : Context) (c : Char) (rest : Text) : TokenKind × Nat :=
  match c with
  | '\\' =>
    match rest with
    | [] => (.garbage, 0)
    | d :: rest =>
      let (escape, n) := scanEscape d rest
      (.escape escape, n)
  | '(' =>
    match context with
    | .charClass => (.groupOpen .capture, 0)
    | .pattern =>
      let (opener, n) := scanGroup rest
      (.groupOpen opener, n)
  | ')' => (.groupClose, 0)
  | '[' =>
    match context, rest with
    | .pattern, '^' :: ']' :: _ => (.classOpen .emptyNegated, 2)
    | _, _ => (.classOpen .plain, 0)
  | ']' => (.classClose, 0)
  | '|' => (.pipe, 0)
  | '.' => (.dot, 0)
  | '^' => (.caret, 0)
  | '$' => (.dollar, 0)
  | '-' => (.dash, 0)
  | '*' => (.star, 0)
  | '+' => (.plus, 0)
  | '?' => (.question, 0)
  | '{' =>
    match context, quantifierLength? rest with
    | .pattern, some n => (.braceOpen .quantifier, n)
    | _, _ => (.braceOpen .literal, 0)
  | '}' => (.braceClose, 0)
  | _ => (.char, 0)

def contextAfter (context : Context) : TokenKind → Context
  | .classOpen .plain => .charClass
  | .classClose => .pattern
  | _ => context

/-- The tokens of a text that starts in a given context. -/
def lexFrom (context : Context) : Text → List Token
  | [] => []
  | c :: rest =>
    let (kind, n) := scan context c rest
    ⟨kind, c :: rest.take n, context⟩ :: lexFrom (contextAfter context kind) (rest.drop n)
termination_by t => t.length
decreasing_by exact Text.length_drop_lt ..

theorem lexFrom_nil (context : Context) : lexFrom context [] = [] := by rw [lexFrom]

theorem lexFrom_cons (context : Context) (c : Char) (rest : Text) :
    lexFrom context (c :: rest) =
      ⟨(scan context c rest).1, c :: rest.take (scan context c rest).2, context⟩ ::
        lexFrom (contextAfter context (scan context c rest).1)
          (rest.drop (scan context c rest).2) := by
  rw [lexFrom]

end Splice.Lexer

namespace Splice

def lex (source : Text) : List Token := Lexer.lexFrom .pattern source

def untokenize (tokens : List Token) : Text := (tokens.map Token.text).flatten

theorem untokenize_cons (t : Token) (tokens : List Token) :
    untokenize (t :: tokens) = t.text ++ untokenize tokens := rfl

theorem untokenize_append (first second : List Token) :
    untokenize (first ++ second) = untokenize first ++ untokenize second := by
  simp [untokenize]

theorem untokenize_lexFrom (context : Context) (t : Text) :
    untokenize (Lexer.lexFrom context t) = t := by
  fun_induction Lexer.lexFrom context t with
  | case1 => rfl
  | case2 context c rest kind n _ ih =>
    rw [untokenize_cons, ih, List.cons_append, List.take_append_drop]

namespace Token

/-- The tokens with the byte offsets at which they start and end. -/
def spansFrom (start : Nat) : List Token → List (Token × Nat × Nat)
  | [] => []
  | t :: rest =>
    let stop := start + Text.byteSize t.text
    (t, start, stop) :: spansFrom stop rest

def spans (tokens : List Token) : List (Token × Nat × Nat) := spansFrom 0 tokens

end Token

end Splice
