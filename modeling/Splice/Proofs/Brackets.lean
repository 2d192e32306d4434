import Splice.Proofs.Skipping

/-!
# The brackets of a source

Where classes and groups open and close can be told character by character: a
backslash hides the character behind it, and a class everything up to the
bracket that closes it. The tokens of a source open and close the same classes
and groups, as long as no token that ends in a name runs over the beginning of
a class.
-/

namespace Splice

inductive Bracket
  | opens (captures : Bool)
  | closes
  /-- The end, behind a backslash or inside a class. -/
  | missing
  /-- A `\x` that may hide the two characters behind it, where one of them opens,
  closes or hides something itself. -/
  | loose
  deriving DecidableEq, Repr

namespace Bracket

def isCapture : Bracket → Bool
  | .opens captures => captures
  | _ => false

/-- The depth behind a bracket. Fails below zero and where something is missing. -/
def step? : Nat → Bracket → Option Nat
  | d, .opens _ => some (d + 1)
  | d + 1, .closes => some d
  | 0, .closes | _, .missing => none
  | d, .loose => some d

def depth? (start : Nat) (brackets : List Bracket) : Option Nat := brackets.foldlM step? start

end Bracket

namespace Source

variable {context : Context} {c : Char} {t : Text} {n : Nat}

/-- The brackets of a text that is read from a context on. -/
def brackets : Context → Text → List Bracket
  | .pattern, [] => []
  | .charClass, [] => [.missing]
  | context, ['\\'] => .missing :: brackets context []
  | context, '\\' :: c :: rest =>
    if c = 'x' ∧ ¬ (rest.take 2).all (IsPlain context ·) then .loose :: brackets context rest
    else brackets context rest
  | .pattern, '(' :: rest => .opens (opensCapture rest) :: brackets .pattern rest
  | .pattern, ')' :: rest => .closes :: brackets .pattern rest
  | .pattern, '[' :: rest => brackets .charClass rest
  | .charClass, ']' :: rest => brackets .pattern rest
  | context, _ :: rest => brackets context rest

-- ---------------------------------------------------------------------------
-- Brackets of longer texts
-- ---------------------------------------------------------------------------

theorem brackets_plain (hc : IsPlain context c) (t : Text) :
    brackets context (c :: t) = brackets context t := by
  obtain ⟨hb, hc⟩ := hc
  cases context with
  | pattern => rw [brackets] <;> simp_all
  | charClass => rw [brackets] <;> simp_all

theorem brackets_escape (h : .loose ∉ brackets context ('\\' :: c :: t)) :
    brackets context ('\\' :: c :: t) = brackets context t := by
  rw [brackets] at h ⊢
  split at h
  · simp at h
  · rw [if_neg ‹_›]

theorem brackets_drop (n : Nat) (h : ∀ x ∈ t.take n, IsPlain context x) :
    brackets context t = brackets context (t.drop n) := by
  induction n generalizing t with
  | zero => rfl
  | succ n ih =>
    cases t with
    | nil => rfl
    | cons c t =>
      rw [List.take_succ_cons, List.forall_mem_cons] at h
      rw [brackets_plain h.1, List.drop_succ_cons, ih h.2]

theorem brackets_soft (n : Nat) (h : ∀ x ∈ t.take n, Lexer.isSoft x) :
    brackets context t = brackets context (t.drop n) :=
  brackets_drop n fun x hx => isPlain_of_isMute (isMute_of_isSoft (h x hx)) context

theorem brackets_skips {u : Text} (h : Skips (IsPlain context) t u)
    (hl : .loose ∉ brackets context t) : brackets context t = brackets context u := by
  induction h with
  | refl => rfl
  | plain hc rest ih =>
    rw [brackets_plain hc] at hl ⊢
    exact ih hl
  | escape c rest ih =>
    have hskip := brackets_escape hl
    rw [hskip] at hl ⊢
    exact ih hl

-- ---------------------------------------------------------------------------
-- Names
-- ---------------------------------------------------------------------------

/-- Whether a text has an opening bracket that no backslash hides. -/
def bareBracket : Text → Bool
  | '\\' :: _ :: rest => bareBracket rest
  | '[' :: _ => true
  | _ :: rest => bareBracket rest
  | [] => false

theorem bareBracket_cons (hc : c ≠ '\\') :
    bareBracket (c :: t) = (c == '[' || bareBracket t) := by
  by_cases hb : c = '['
  · subst hb
    simp [bareBracket]
  · rw [bareBracket]
    · simp [hb]
    · simp [hc]
    · exact hb

/-- What is read as a name opens and closes nothing, unless it runs over the
beginning of a class. -/
theorem skips_of_bareBracket {name : Text} (hn : ∀ c ∈ name, !Lexer.isNameEnd c)
    (hb : context = .charClass ∨ bareBracket (name ++ ['>']) = false) :
    Skips (IsPlain context) (name ++ ['>']) [] := by
  have hend : IsPlain context '>' := isPlain_of_isMute (by decide) context
  have plain : ∀ {c name}, c ≠ '\\' → !Lexer.isNameEnd c →
      (context = .charClass ∨ bareBracket (c :: (name ++ ['>'])) = false) →
        IsPlain context c ∧ (context = .charClass ∨ bareBracket (name ++ ['>']) = false) := by
    intro c name hc hn hb
    have hends : c ≠ '(' ∧ c ≠ ')' ∧ c ≠ ']' := by
      refine ⟨?_, ?_, ?_⟩ <;> (rintro rfl; simp [Lexer.isNameEnd] at hn)
    rw [bareBracket_cons hc, Bool.or_eq_false_iff] at hb
    cases context with
    | pattern =>
      obtain ⟨hbracket, hb⟩ := hb.resolve_left (by simp)
      exact ⟨⟨hc, hends.1, hends.2.1, by simpa using hbracket⟩, .inr hb⟩
    | charClass => exact ⟨⟨hc, hends.2.2⟩, .inl rfl⟩
  induction name using List.twoStepInduction with
  | nil => exact .plain hend (.refl [])
  | singleton c =>
    rw [List.forall_mem_cons] at hn
    by_cases hc : c = '\\'
    · subst hc
      exact .escape '>' (.refl [])
    · exact .plain (plain hc hn.1 hb).1 (.plain hend (.refl []))
  | cons_cons c d name ih ih' =>
    rw [List.forall_mem_cons] at hn
    by_cases hc : c = '\\'
    · subst hc
      exact .escape d
        (ih (fun x hx => hn.2 x (List.mem_cons_of_mem d hx)) (by simpa [bareBracket] using hb))
    · obtain ⟨hplain, hb⟩ := plain hc hn.1 hb
      exact .plain hplain (ih' d hn.2 hb)

end Source

-- ---------------------------------------------------------------------------
-- Tokens
-- ---------------------------------------------------------------------------

namespace Token

def brackets (t : Token) : List Bracket :=
  if t.kind = .garbage then [.missing]
  else
    match t.operator? with
    | some (.groupOpen (.deferred _)) => [.opens false, .closes]
    | some (.groupOpen g) => [.opens g.isCapture]
    | some .groupClose => [.closes]
    | _ => []

/-- Whether a token is a name, as far as it was read as one, and opens a class
nonetheless. Inside classes there is nothing to open. -/
def opensInName (t : Token) : Bool :=
  match t.operator? with
  | some (.groupOpen .named) | some (.escape .namedReference) => Source.bareBracket t.text
  | _ => false

end Token

namespace Source

/-- The brackets of some tokens that are read from a context on. -/
def bracketsOf (context : Context) : List Token → List Bracket
  | [] => if context = .charClass then [.missing] else []
  | t :: rest => t.brackets ++ bracketsOf (Lexer.contextAfter context t.kind) rest

variable {context : Context} {c : Char} {t : Text} {n : Nat} {k : TokenKind} {g : GroupOpener}

open Lexer

theorem skipsName_of_opensInName {a : Token} (h : a.opensInName = false) :
    a.SkipsName (IsPlain a.context) := by
  obtain ⟨k, text, context⟩ := a
  rintro hnaming lead name hlead hends rfl
  refine skips_of_bareBracket hends ?_
  cases context with
  | charClass => exact .inl rfl
  | pattern =>
    have hbare : bareBracket (lead ++ (name ++ ['>'])) = false := by
      unfold Token.isNaming at hnaming
      split at hnaming
      · rename_i hk
        obtain rfl : k = _ := hk
        exact h
      · rename_i hk
        obtain rfl : k = _ := hk
        exact h
      · cases hnaming
    obtain rfl | rfl := hlead <;> exact .inr (by simpa [bareBracket] using hbare)

theorem brackets_scan (h : scan context c t = (k, n))
    (hn : (⟨k, c :: t.take n, context⟩ : Token).opensInName = false)
    (hl : .loose ∉ brackets context (c :: t)) :
    brackets context (c :: t) = (⟨k, c :: t.take n, context⟩ : Token).brackets ++
      brackets (contextAfter context k) (t.drop n) := by
  have hgroup : brackets .pattern ('(' :: t) = .opens (opensCapture t) :: brackets .pattern t := by
    rw [brackets]
  cases spelt_scan (fun _ => And.left) h (skipsName_of_opensInName hn) with
  | silent skips silent after whole =>
    have hnone : (⟨k, c :: t.take n, context⟩ : Token).brackets = [] := by
      cases context with
      | charClass => simp [Token.brackets, whole, Token.operator?, Token.inClass]
      | pattern =>
        have hk := silent.resolve_left (by simp)
        cases k <;> first | rfl | cases hk
    rw [hnone, after, List.nil_append]
    exact brackets_skips skips hl
  | @opens g _ skips unmarked =>
    obtain rfl : (scanGroup t).1 = g := by simpa [scan_group] using congrArg Prod.fst h
    rw [hgroup] at hl ⊢
    rw [opensCapture_eq, brackets_skips skips fun hmem => hl (List.mem_cons_of_mem _ hmem)]
    generalize (scanGroup t).1 = g at unmarked ⊢
    cases g with
    | deferred m => exact absurd rfl (unmarked m)
    | _ => rfl
  | @marks m _ skips =>
    have hm : (scanGroup t).1 = .deferred m := by simpa [scan_group] using congrArg Prod.fst h
    rw [hgroup] at hl ⊢
    rw [opensCapture_eq, hm, brackets_skips skips fun hmem => hl (List.mem_cons_of_mem _ hmem),
      brackets]
    rfl
  | closes => rfl
  | bar => exact brackets_plain (isPlain_of_isMute (by decide) _) t
  | enters => rfl
  | leaves => rfl
  | anything rest ht =>
    subst ht
    have hcaret : IsPlain .charClass '^' := isPlain_of_isMute (by decide) _
    show brackets .charClass ('^' :: ']' :: rest) = brackets .pattern rest
    rw [brackets_plain hcaret, brackets]
  | hides ht =>
    subst ht
    rw [brackets]
    rfl

theorem bracketsOf_lexFrom (hn : ∀ x ∈ lexFrom context t, x.opensInName = false)
    (hl : .loose ∉ brackets context t) :
    bracketsOf context (lexFrom context t) = brackets context t := by
  fun_induction lexFrom context t with
  | case1 context => cases context <;> rfl
  | case2 context c rest kind n hscan ih =>
    rw [List.forall_mem_cons] at hn
    have hbrackets := brackets_scan hscan hn.1 hl
    rw [hbrackets, List.mem_append, not_or] at hl
    rw [hbrackets, bracketsOf, ih hn.2 hl.2]

-- ---------------------------------------------------------------------------
-- What brackets say
-- ---------------------------------------------------------------------------

end Source

theorem Bracket.depth?_append (d : Nat) (first second : List Bracket) :
    depth? d (first ++ second) = (depth? d first).bind fun e => depth? e second :=
  List.foldlM_append

theorem Token.depth?_brackets {t : Token} {d e : Nat}
    (h : Bracket.depth? d t.brackets = some e) :
    t.kind ≠ .garbage ∧ (e : Int) = d + t.nesting := by
  unfold brackets at h
  split at h
  · simp [Bracket.depth?, Bracket.step?] at h
  · refine ⟨‹_›, ?_⟩
    unfold nesting
    generalize t.operator? = o at h ⊢
    cases o with
    | none =>
      obtain rfl : d = e := Option.some.inj h
      simp
    | some k =>
      cases k with
      | groupOpen g =>
        cases g <;> (obtain rfl := Option.some.inj h; simp)
      | groupClose =>
        cases d with
        | zero => cases h
        | succ d =>
          obtain rfl : d = e := Option.some.inj h
          simp
      | _ =>
        obtain rfl : d = e := Option.some.inj h
        simp

theorem Token.captures_brackets (t : Token) :
    t.brackets.countP Bracket.isCapture = if t.opensCapture then 1 else 0 := by
  obtain ⟨kind, text, context⟩ := t
  cases context with
  | charClass => cases kind <;> rfl
  | pattern =>
    cases kind with
    | groupOpen g => cases g <;> rfl
    | _ => rfl

namespace Source

variable {context : Context} {ts : List Token}

/-- Where the brackets of tokens balance, no token lacks anything, the last class
is closed, and the groups nest. -/
theorem bracketsOf_depth? {d e : Nat} (h : Bracket.depth? d (bracketsOf context ts) = some e) :
    (∀ t ∈ ts, t.kind ≠ .garbage) ∧ contextBehind context ts = .pattern ∧
      (∀ front, front <+: ts → 0 ≤ d + (front.map Token.nesting).sum) ∧
      d + (ts.map Token.nesting).sum = e := by
  induction ts generalizing context d with
  | nil =>
    cases context with
    | charClass => simp [bracketsOf, Bracket.depth?, Bracket.step?] at h
    | pattern =>
      obtain rfl : d = e := Option.some.inj h
      refine ⟨by simp, rfl, fun front hf => ?_, by simp⟩
      obtain rfl := List.prefix_nil.mp hf
      simp
  | cons t ts ih =>
    rw [bracketsOf, Bracket.depth?_append, Option.bind_eq_some_iff] at h
    obtain ⟨d', ht, h⟩ := h
    obtain ⟨hkind, hd⟩ := Token.depth?_brackets ht
    obtain ⟨hwhole, hcontext, hnonneg, hsum⟩ := ih h
    refine ⟨List.forall_mem_cons.mpr ⟨hkind, hwhole⟩, hcontext, fun front hf => ?_, ?_⟩
    · cases front with
      | nil => simp
      | cons a front =>
        obtain ⟨rfl, hfront⟩ := List.cons_prefix_cons.mp hf
        have := hnonneg front hfront
        rw [List.map_cons, List.sum_cons]
        omega
    · rw [List.map_cons, List.sum_cons]
      omega

theorem bracketsOf_captures (context : Context) (ts : List Token) :
    (bracketsOf context ts).countP Bracket.isCapture = ts.countP Token.opensCapture := by
  induction ts generalizing context with
  | nil => cases context <;> rfl
  | cons t ts ih =>
    rw [bracketsOf, List.countP_append, ih, t.captures_brackets, List.countP_cons, Nat.add_comm]

end Source

end Splice
