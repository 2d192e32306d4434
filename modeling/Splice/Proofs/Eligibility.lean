import Splice.Proofs.Members

/-!
# What wide mode refuses

The scan for wide problems keeps a stack of open groups, remembers whether a
lookahead has just been closed, and follows each class with a little state of
its own. `WideProblem` says without any state what it looks for: a token that
is a problem by itself, a quantifier behind a lookahead, and a range with a
shorthand at an end. The scan finds a problem exactly if there is one.
-/

namespace Splice

open Lexer

-- ---------------------------------------------------------------------------
-- Problems
-- ---------------------------------------------------------------------------

/-- Escapes with a text that wide mode refuses or reads in another way outside classes. -/
inductive Escape.Foreign (text : Text) : Escape → Prop
  | identity {c : Char} (h : c ∉ patternEscapes) : Foreign text (.char c)
  | octal : Foreign text .octal
  | property : Foreign text .property
  | unicodeBraced : Foreign text .unicodeBraced
  | name {raw : Text} (ht : text = "\\k<".toList ++ raw ++ ['>'])
      (h : GroupName.isValid raw = false) : Foreign text .namedReference

/-- Escapes that wide mode refuses or reads in another way inside classes. -/
inductive Escape.ForeignInClass : Escape → Prop
  | identity {c : Char} (h : c ∉ classEscapes) : ForeignInClass (.char c)
  | octal : ForeignInClass .octal
  | property : ForeignInClass .property
  | unicodeBraced : ForeignInClass .unicodeBraced
  | backReference (n : Nat) : ForeignInClass (.backReference n)
  | namedReference : ForeignInClass .namedReference

/-- Tokens whose groups match up. Markers open nothing. -/
inductive Matched : List Token → Prop
  | nil : Matched []
  | other {t : Token} {ts : List Token} (level : t.nesting = 0) (rest : Matched ts) :
      Matched (t :: ts)
  | group {o c : Token} {inner rest : List Token} (opens : o.nesting = 1) (closes : c.nesting = -1)
      (inside : Matched inner) (behind : Matched rest) : Matched (o :: (inner ++ c :: rest))

def Token.isShorthand (t : Token) : Prop := ∃ c, t.kind = .escape (.shorthand c)

/-- The ranges of some class members: an atom, a dash and an atom are one range,
and any other atom stands alone. -/
def ranges : List Token → List (Token × Token)
  | a :: d :: b :: rest =>
    if d.kind = .dash then (a, b) :: ranges rest else ranges (d :: b :: rest)
  | _ => []

/-- The members of a class, whose body may begin with a negation. -/
def classMembers : List Token → List Token
  | [] => []
  | t :: ts => if t.kind = .caret then ts else t :: ts

/-- Something among the tokens of a narrow source that wide mode refuses or reads
in another way, apart from what promotion respells. -/
inductive WideProblem (ts : List Token) : Prop
  | garbage {t : Token} (mem : t ∈ ts) (kind : t.kind = .garbage)
  | escape {t : Token} {e : Escape} (mem : t ∈ ts) (kind : t.operator? = some (.escape e))
      (foreign : e.Foreign t.text)
  /-- A quantifier directly behind a lookahead. -/
  | repeated {front inner rest : List Token} {o c q : Token} {g : GroupOpener} {k : TokenKind}
      (split : ts = front ++ o :: (inner ++ c :: q :: rest))
      (opens : o.operator? = some (.groupOpen g))
      (lookahead : g = .lookahead ∨ g = .negativeLookahead)
      (inside : Matched inner) (closes : c.operator? = some .groupClose)
      (kind : q.operator? = some k) (quantifier : k.isQuantifier)
  | classEscape {t : Token} {e : Escape} (mem : t ∈ ts) (inside : t.context = .charClass)
      (kind : t.kind = .escape e) (foreign : e.ForeignInClass)
  /-- A range with a shorthand at an end, in a class that may lack its end. -/
  | range {front body rest : List Token} {o a b : Token} (split : ts = front ++ o :: (body ++ rest))
      (opens : o.operator? = some (.classOpen .plain))
      (inside : ∀ t ∈ body, t.context = .charClass ∧ t.kind ≠ .classClose)
      (ends : ∀ t ∈ rest.head?, t.context = .charClass ∧ t.kind = .classClose)
      (range : (a, b) ∈ ranges (classMembers body)) (shorthand : a.isShorthand ∨ b.isShorthand)

variable {context : Context} {t : Token} {ts body : List Token} {e : Escape} {k : TokenKind}
variable {g : GroupOpener} {gs : List GroupOpener} {p p' : WideProgress} {q : ClassProgress}

-- ---------------------------------------------------------------------------
-- Tokens by themselves
-- ---------------------------------------------------------------------------

theorem Token.operator?_eq (h : t.context = .pattern) : t.operator? = some t.kind := by
  simp [Token.operator?, Token.inClass, h]

theorem Token.operator?_inClass (h : t.context = .charClass) : t.operator? = none := by
  simp [Token.operator?, Token.inClass, h]

theorem Token.of_operator? (h : t.operator? = some k) : t.context = .pattern ∧ t.kind = k := by
  obtain ⟨kind, text, context⟩ := t
  cases context with
  | pattern => exact ⟨rfl, Option.some.inj h⟩
  | charClass => cases h

theorem not_contains_iff {letters : Text} {c : Char} :
    (!letters.contains c) = true ↔ c ∉ letters := by
  simp

theorem Token.patternEscapeChanges_char (t : Token) (c : Char) :
    t.patternEscapeChanges (.char c) = true ↔ c ∉ patternEscapes :=
  not_contains_iff

theorem Escape.classEscapeChanges_char (c : Char) :
    (Escape.char c).classEscapeChanges = true ↔ c ∉ classEscapes :=
  not_contains_iff

theorem Token.patternEscapeChanges_name {text raw : Text}
    (h : text = "\\k<".toList ++ raw ++ ['>']) :
    Token.patternEscapeChanges ⟨k, text, context⟩ .namedReference = !GroupName.isValid raw := by
  have hraw : Token.referencedName ⟨k, text, context⟩ = raw := by
    obtain rfl := h
    exact List.dropLast_concat
  exact congrArg (fun name => !GroupName.isValid name) hraw

theorem Escape.Foreign.changes (h : e.Foreign t.text) (ht : t.operator? = some (.escape e)) :
    t.changes := by
  obtain ⟨kind, text, context⟩ := t
  obtain ⟨rfl, rfl⟩ : context = .pattern ∧ kind = .escape e := Token.of_operator? ht
  change Token.patternEscapeChanges _ e = true
  cases h with
  | identity h => exact (Token.patternEscapeChanges_char _ _).mpr h
  | octal | property | unicodeBraced => rfl
  | name htext hname => rw [Token.patternEscapeChanges_name htext, hname, Bool.not_false]

theorem Escape.ForeignInClass.changes (h : e.ForeignInClass) (hc : t.context = .charClass)
    (ht : t.kind = .escape e) : t.changes := by
  obtain ⟨kind, text, context⟩ := t
  obtain rfl : context = .charClass := hc
  obtain rfl : kind = .escape e := ht
  change e.classEscapeChanges = true
  cases h with
  | identity h => exact (Escape.classEscapeChanges_char _).mpr h
  | octal | property | unicodeBraced | backReference | namedReference => rfl

theorem Escape.foreignInClass_of_changes (h : e.classEscapeChanges) : e.ForeignInClass := by
  cases e with
  | char c => exact .identity ((Escape.classEscapeChanges_char c).mp h)
  | octal => exact .octal
  | property => exact .property
  | unicodeBraced => exact .unicodeBraced
  | backReference n => exact .backReference n
  | namedReference => exact .namedReference
  | _ => cases h

/-- The text of a reference by name is read off the scan that found it. -/
theorem Lexed.foreign (h : Lexed context ts) (ht : t ∈ ts) (hk : t.operator? = some (.escape e))
    (hchange : t.changes) : e.Foreign t.text := by
  induction h with
  | nil => cases ht
  | @cons context c r k ts read rest ih =>
    obtain rfl | ht := List.mem_cons.mp ht
    · obtain ⟨rfl, rfl⟩ : context = .pattern ∧ k = .escape e := Token.of_operator? hk
      replace hchange : Token.patternEscapeChanges ⟨.escape e, c :: r, .pattern⟩ e := hchange
      cases e with
      | char d => exact .identity ((Token.patternEscapeChanges_char _ d).mp hchange)
      | octal => exact .octal
      | property => exact .property
      | unicodeBraced => exact .unicodeBraced
      | namedReference =>
        obtain rfl : c = '\\' := of_scan read rfl
        cases r with
        | nil =>
          cases hts : untokenize ts with
          | nil =>
            rw [hts] at read
            cases read
          | cons d X =>
            have hfits := (scanEscape_fits d X).1
            rw [hts, List.nil_append, scan_escape, Prod.mk.injEq, List.length_nil] at read
            omega
        | cons d w =>
          rw [List.cons_append, scan_escape, Prod.mk.injEq, TokenKind.escape.injEq] at read
          obtain ⟨rfl, raw, rfl⟩ := spelled_scanEscape (Prod.ext read.1 read.2)
          have hname : Token.patternEscapeChanges ⟨.escape .namedReference,
              '\\' :: 'k' :: '<' :: (raw ++ ['>']), .pattern⟩ .namedReference =
                !GroupName.isValid raw := Token.patternEscapeChanges_name rfl
          rw [hname, Bool.not_eq_true'] at hchange
          exact .name rfl hchange
      | _ => cases hchange
    · exact ih ht

theorem Lexed.problem (h : Lexed context ts) (ht : t ∈ ts) (hchange : t.changes) :
    WideProblem ts := by
  cases hk : t.kind with
  | garbage => exact .garbage ht hk
  | escape e =>
    cases hc : t.context with
    | pattern =>
      have hop : t.operator? = some (.escape e) := hk ▸ Token.operator?_eq hc
      exact .escape ht hop (h.foreign ht hop hchange)
    | charClass =>
      refine .classEscape ht hc hk (Escape.foreignInClass_of_changes ?_)
      simpa [Token.changes, hk, Token.inClass, hc] using hchange
  | _ => simp [Token.changes, hk] at hchange

-- ---------------------------------------------------------------------------
-- Groups
-- ---------------------------------------------------------------------------

theorem Matched.append {first second : List Token} (h : Matched first) (h' : Matched second) :
    Matched (first ++ second) := by
  induction h with
  | nil => exact h'
  | other level _ ih => exact .other level ih
  | @group o c inner rest opens closes inside _ _ ih =>
    rw [List.cons_append, List.append_assoc, List.cons_append]
    exact .group opens closes inside ih

theorem matched_of_level (h : ∀ t ∈ ts, t.nesting = 0) : Matched ts := by
  induction ts with
  | nil => exact .nil
  | cons t ts ih =>
    rw [List.forall_mem_cons] at h
    exact .other h.1 (ih h.2)

/-- The groups that are open behind a token. -/
def Token.grouped (groups : List GroupOpener) (t : Token) : List GroupOpener :=
  match t.operator? with
  | some (.groupOpen (.deferred _)) => groups
  | some (.groupOpen g) => g :: groups
  | some .groupClose => groups.tail
  | _ => groups

theorem Token.grouped_cases (t : Token) : (t.nesting = 0 ∧ ∀ gs, t.grouped gs = gs) ∨
    (t.nesting = 1 ∧ ∃ g, t.operator? = some (.groupOpen g) ∧ ∀ gs, t.grouped gs = g :: gs) ∨
    (t.nesting = -1 ∧ t.operator? = some .groupClose ∧ ∀ gs, t.grouped gs = gs.tail) := by
  unfold Token.nesting Token.grouped
  cases ht : t.operator? with
  | none => exact .inl ⟨rfl, fun _ => rfl⟩
  | some k =>
    cases k with
    | groupOpen g =>
      cases g with
      | deferred m => exact .inl ⟨rfl, fun _ => rfl⟩
      | _ => exact .inr (.inl ⟨rfl, _, rfl, fun _ => rfl⟩)
    | groupClose => exact .inr (.inr ⟨rfl, rfl, fun _ => rfl⟩)
    | _ => exact .inl ⟨rfl, fun _ => rfl⟩

theorem WideProgress.step_pattern (ht : t.context = .pattern) : p.step t =
    if t.changes || t.kind.isQuantifier && p.afterLookahead then none
    else some ⟨t.grouped p.groups,
      t.kind == .groupClose && p.groups.head?.any GroupOpener.isLookahead,
      if t.kind = .classOpen .plain then .start else p.charClass⟩ := by
  obtain ⟨kind, text, context⟩ := t
  obtain rfl : context = .pattern := ht
  cases kind with
  | escape e =>
    change (if Token.patternEscapeChanges _ e then none else some _) =
      if Token.patternEscapeChanges _ e || false then none else some _
    rw [Bool.or_false]
    rfl
  | groupOpen g => cases g <;> rfl
  | classOpen o => cases o <;> rfl
  | braceOpen b => cases b <;> rfl
  | _ => rfl

theorem WideProgress.step_class (ht : t.context = .pattern) (hk : t.kind = .classOpen .plain)
    (p : WideProgress) :
    p.step t =
      some { ({ p with afterLookahead := false } : WideProgress) with charClass := .start } := by
  obtain ⟨kind, text, context⟩ := t
  obtain rfl : context = .pattern := ht
  obtain rfl : kind = .classOpen .plain := hk
  rfl

/-- Tokens of which the last opener that is not closed is `g`, the one before it
the next of `gs`, and so on, as far as the list goes. -/
inductive Opened : List Token → List GroupOpener → Prop
  | nil (front : List Token) : Opened front []
  | cons {front inner : List Token} {o : Token} {g : GroupOpener} {gs : List GroupOpener}
      (outer : Opened front gs) (level : o.nesting = 1) (opens : o.operator? = some (.groupOpen g))
      (inside : Matched inner) : Opened (front ++ o :: inner) (g :: gs)

theorem Opened.matched {front inner : List Token} (h : Opened front gs) (hm : Matched inner) :
    Opened (front ++ inner) gs := by
  cases h with
  | nil => exact .nil _
  | cons outer level opens inside =>
    rw [List.append_assoc, List.cons_append]
    exact .cons outer level opens (inside.append hm)

theorem Opened.push {front : List Token} (h : Opened front gs) (t : Token) :
    Opened (front ++ [t]) (t.grouped gs) := by
  obtain ⟨hlevel, hgroups⟩ | ⟨hlevel, g, hopens, hgroups⟩ | ⟨hlevel, -, hgroups⟩ := t.grouped_cases
  · rw [hgroups]
    exact h.matched (.other hlevel .nil)
  · rw [hgroups]
    exact .cons h hlevel hopens .nil
  · rw [hgroups]
    cases h with
    | nil => exact .nil _
    | cons outer level opens inside =>
      rw [List.append_assoc]
      exact outer.matched (.group level hlevel inside .nil)

/-- Tokens that end where a lookahead is closed. -/
def EndsLookahead (ts : List Token) : Prop :=
  ∃ front inner o c g, ts = front ++ o :: (inner ++ [c]) ∧ o.operator? = some (.groupOpen g) ∧
    (g = .lookahead ∨ g = .negativeLookahead) ∧ Matched inner ∧ c.operator? = some .groupClose

theorem GroupOpener.eq_of_isLookahead (h : g.isLookahead) :
    g = .lookahead ∨ g = .negativeLookahead := by
  cases g with
  | lookahead => exact .inl rfl
  | negativeLookahead => exact .inr rfl
  | _ => cases h

theorem Opened.endsLookahead {front : List Token} (h : Opened front gs)
    (ht : t.operator? = some .groupClose) (hg : gs.head?.any GroupOpener.isLookahead) :
    EndsLookahead (front ++ [t]) := by
  cases h with
  | nil => cases hg
  | @cons front inner o g gs outer level opens inside =>
    exact ⟨front, inner, o, t, g, by simp, opens, GroupOpener.eq_of_isLookahead hg, inside, ht⟩

theorem WideProgress.groups_of_step (h : p.step t = some p') : p'.groups = t.grouped p.groups := by
  cases hc : t.context with
  | pattern =>
    rw [step_pattern hc] at h
    split at h
    · cases h
    · obtain rfl := Option.some.inj h
      rfl
  | charClass =>
    rw [step, if_pos (by simp [Token.inClass, hc])] at h
    obtain ⟨q, -, rfl⟩ := Option.map_eq_some_iff.mp h
    rw [Token.grouped, Token.operator?_inClass hc]

theorem WideProgress.groups_of_run (h : ts.foldlM WideProgress.step p = some p') :
    p'.groups = ts.foldl Token.grouped p.groups := by
  induction ts generalizing p with
  | nil =>
    obtain rfl := Option.some.inj h
    rfl
  | cons t ts ih =>
    rw [List.foldlM_cons] at h
    obtain ⟨p'', hstep, hrest⟩ := Option.bind_eq_some_iff.mp h
    rw [ih hrest, groups_of_step hstep]
    rfl

theorem Matched.foldl_grouped (h : Matched ts) (gs : List GroupOpener) :
    ts.foldl Token.grouped gs = gs := by
  induction h generalizing gs with
  | nil => rfl
  | @other t ts level _ ih =>
    obtain ⟨-, hgroups⟩ | ⟨hlevel, -⟩ | ⟨hlevel, -⟩ := t.grouped_cases
    · rw [List.foldl_cons, hgroups, ih]
    · omega
    · omega
  | @group o c inner rest opens closes _ _ ihInner ihRest =>
    obtain ⟨hlevel, -⟩ | ⟨-, g, -, hopen⟩ | ⟨hlevel, -⟩ := o.grouped_cases
    · omega
    · obtain ⟨hlevel, -⟩ | ⟨hlevel, -⟩ | ⟨-, -, hclose⟩ := c.grouped_cases
      · omega
      · omega
      · rw [List.foldl_cons, hopen, List.foldl_append, ihInner, List.foldl_cons, hclose,
          List.tail_cons, ihRest]
    · omega

-- ---------------------------------------------------------------------------
-- Classes
-- ---------------------------------------------------------------------------

def ClassProgress.run (q : ClassProgress) (body : List Token) : Option ClassProgress :=
  body.foldlM (fun q t => WideProgress.classToken q t.kind) q

def ClassProgress.fresh : ClassProgress := ⟨false, none, none⟩

theorem ClassProgress.run_cons (q : ClassProgress) (t : Token) (body : List Token) :
    q.run (t :: body) = (WideProgress.classToken q t.kind).bind fun q => q.run body := by
  rw [run, List.foldlM_cons]
  rfl

theorem WideProgress.run_body (h : ∀ t ∈ body, t.context = .charClass) (q : ClassProgress)
    (rest : List Token) : (body ++ rest).foldlM step { p with charClass := q } =
      (q.run body).bind fun q => rest.foldlM step { p with charClass := q } := by
  induction body generalizing q with
  | nil => rfl
  | cons t body ih =>
    rw [List.forall_mem_cons] at h
    obtain ⟨kind, text, context⟩ := t
    obtain rfl : context = .charClass := h.1
    rw [List.cons_append, foldlM_class, ClassProgress.run_cons, Option.bind_assoc]
    simp only [ih h.2]

def IsMember (t : Token) : Prop := t.context = .charClass ∧ t.kind ≠ .classClose ∧ t.changes = false

theorem IsMember.classToken (ht : IsMember t) (hd : t.kind ≠ .dash)
    (hcaret : q.atStart → t.kind ≠ .caret) :
    WideProgress.classToken q t.kind = q.member t.kind.member := by
  obtain ⟨hc, hk, hchange⟩ := ht
  obtain ⟨kind, text, context⟩ := t
  obtain rfl : context = .charClass := hc
  cases kind with
  | classClose => exact absurd rfl hk
  | dash => exact absurd rfl hd
  | garbage => cases hchange
  | caret => exact if_neg fun hstart => hcaret hstart rfl
  | escape e =>
    replace hchange : e.classEscapeChanges = false := hchange
    rw [classToken_escape, hchange, if_neg Bool.false_ne_true]
  | _ => rfl

theorem IsMember.classToken_fresh (ht : IsMember t) :
    WideProgress.classToken .fresh t.kind = some ⟨false, some t.kind.member, none⟩ := by
  by_cases hd : t.kind = .dash
  · rw [hd]
    rfl
  · rw [ht.classToken hd (fun h => by cases h)]
    rfl

theorem IsMember.classToken_range (ht : IsMember t) (m : ClassMember) :
    WideProgress.classToken ⟨false, none, some m⟩ t.kind =
      if m = .shorthand ∨ t.kind.member = .shorthand then none else some .fresh := by
  by_cases hd : t.kind = .dash
  · rw [hd]
    rfl
  · rw [ht.classToken hd (fun h => by cases h)]
    rfl

theorem isShorthand_iff : t.isShorthand ↔ t.kind.member = .shorthand := by
  unfold Token.isShorthand TokenKind.member
  constructor
  · rintro ⟨c, hc⟩
    rw [hc]
  · intro h
    split at h
    · exact ⟨_, ‹_›⟩
    · cases h

theorem ClassProgress.run_fresh (h : ∀ t ∈ body, IsMember t) :
    ClassProgress.fresh.run body = none ↔
      ∃ r ∈ ranges body, r.1.isShorthand ∨ r.2.isShorthand := by
  fun_induction ranges body with
  | case1 a d b rest hdash ih =>
    simp only [List.forall_mem_cons] at h
    obtain ⟨ha, -, hb, hrest⟩ := h
    have hopen : WideProgress.classToken ⟨false, some a.kind.member, none⟩ .dash =
        some ⟨false, none, some a.kind.member⟩ := rfl
    rw [run_cons, ha.classToken_fresh, Option.bind_some, run_cons, hdash, hopen, Option.bind_some,
      run_cons, hb.classToken_range]
    simp only [List.mem_cons, exists_eq_or_imp, isShorthand_iff]
    split
    · simp [*]
    · rename_i hends
      simp only [hends, false_or, Option.bind_some, ih hrest, isShorthand_iff]
  | case2 a d b rest hdash ih =>
    rw [List.forall_mem_cons] at h
    have hd := (List.forall_mem_cons.mp h.2).1
    rw [run_cons, h.1.classToken_fresh, Option.bind_some, ← ih h.2, run_cons, run_cons,
      hd.classToken hdash (fun h => by cases h), hd.classToken hdash (fun h => by cases h)]
    rfl
  | case3 body hshort =>
    match body with
    | [] => simp [run]
    | [a] =>
      rw [run_cons, (h a (by simp)).classToken_fresh]
      simp [run]
    | [a, d] =>
      simp only [List.forall_mem_cons] at h
      rw [run_cons, h.1.classToken_fresh, Option.bind_some, run_cons]
      have hsome : ∃ q,
          WideProgress.classToken ⟨false, some a.kind.member, none⟩ d.kind = some q := by
        by_cases hdash : d.kind = .dash
        · rw [hdash]
          exact ⟨_, rfl⟩
        · rw [h.2.1.classToken hdash (fun h => by cases h)]
          exact ⟨_, rfl⟩
      obtain ⟨q, hq⟩ := hsome
      rw [hq]
      simp [run]
    | a :: d :: b :: rest => exact absurd rfl (hshort a d b rest)

theorem mem_of_mem_classMembers (h : t ∈ classMembers body) : t ∈ body := by
  cases body with
  | nil => exact h
  | cons a body =>
    rw [classMembers] at h
    split at h
    · exact List.mem_cons_of_mem _ h
    · exact h

theorem ClassProgress.run_start (h : ∀ t ∈ body, IsMember t) :
    ClassProgress.start.run body = none ↔ ClassProgress.fresh.run (classMembers body) = none := by
  cases body with
  | nil => simp [run, classMembers]
  | cons t body =>
    by_cases hcaret : t.kind = .caret
    · rw [classMembers, if_pos hcaret, run_cons, hcaret]
      rfl
    · rw [classMembers, if_neg hcaret, run_cons, run_cons]
      have ht := (List.forall_mem_cons.mp h).1
      by_cases hd : t.kind = .dash
      · rw [hd]
        rfl
      · rw [ht.classToken hd fun _ => hcaret, ht.classToken hd (fun h => by cases h)]
        rfl

theorem Lexed.class_split (h : Lexed .charClass ts) : ∃ body rest, ts = body ++ rest ∧
    (∀ t ∈ body, t.context = .charClass ∧ t.kind ≠ .classClose) ∧
    (rest = [] ∨ ∃ w us, rest = ⟨.classClose, w, .charClass⟩ :: us ∧ Lexed .pattern us) := by
  suffices key : ∀ {context ts}, Lexed context ts → context = .charClass →
      ∃ body rest, ts = body ++ rest ∧
        (∀ t ∈ body, t.context = .charClass ∧ t.kind ≠ .classClose) ∧
        (rest = [] ∨ ∃ w us, rest = ⟨.classClose, w, .charClass⟩ :: us ∧ Lexed .pattern us) from
    key h rfl
  intro context ts h
  induction h with
  | nil => exact fun _ => ⟨[], [], rfl, by simp, .inl rfl⟩
  | @cons context c r k ts read rest ih =>
    rintro rfl
    by_cases hk : k = .classClose
    · subst hk
      exact ⟨[], _, rfl, by simp, .inr ⟨_, ts, rfl, rest⟩⟩
    · obtain ⟨body, behind, rfl, hbody, hbehind⟩ := ih (contextAfter_class hk)
      exact ⟨_ :: body, behind, rfl, List.forall_mem_cons.mpr ⟨⟨rfl, hk⟩, hbody⟩, hbehind⟩

-- ---------------------------------------------------------------------------
-- The scan
-- ---------------------------------------------------------------------------

/-- What the scan remembers of the tokens that it has read. -/
structure WideProgress.Recalls (p : WideProgress) (front : List Token) : Prop where
  groups : Opened front p.groups
  lookahead : p.afterLookahead → EndsLookahead front

theorem WideProgress.Recalls.push {front : List Token} (h : p.Recalls front)
    (ht : t.context = .pattern) (hstep : p.step t = some p') : p'.Recalls (front ++ [t]) := by
  rw [step_pattern ht] at hstep
  split at hstep
  · cases hstep
  · obtain rfl := Option.some.inj hstep
    refine ⟨h.groups.push t, fun hafter => ?_⟩
    rw [Bool.and_eq_true, beq_iff_eq] at hafter
    exact h.groups.endsLookahead (hafter.1 ▸ Token.operator?_eq ht) hafter.2

theorem WideProblem.behind (h : WideProblem ts) (front : List Token) :
    WideProblem (front ++ ts) := by
  cases h with
  | garbage mem kind => exact .garbage (List.mem_append_right _ mem) kind
  | escape mem kind foreign => exact .escape (List.mem_append_right _ mem) kind foreign
  | @repeated before inner rest o c q _ _ split opens lookahead inside closes kind quantifier =>
    have hsplit : front ++ ts = (front ++ before) ++ o :: (inner ++ c :: q :: rest) := by
      rw [split, List.append_assoc]
    exact .repeated hsplit opens lookahead inside closes kind quantifier
  | classEscape mem inside kind foreign =>
    exact .classEscape (List.mem_append_right _ mem) inside kind foreign
  | @range before body rest o _ _ split opens inside ends range shorthand =>
    have hsplit : front ++ ts = (front ++ before) ++ o :: (body ++ rest) := by
      rw [split, List.append_assoc]
    exact .range hsplit opens inside ends range shorthand

theorem WideProgress.Recalls.problem {front : List Token} (h : p.Recalls front)
    (hts : Lexed .pattern (t :: ts)) (ht : t.context = .pattern) (hstep : p.step t = none) :
    WideProblem (front ++ t :: ts) := by
  rw [step_pattern ht] at hstep
  split at hstep
  · rename_i hfail
    rw [Bool.or_eq_true, Bool.and_eq_true] at hfail
    obtain hchange | ⟨hquantifier, hafter⟩ := hfail
    · exact (hts.problem List.mem_cons_self hchange).behind front
    · obtain ⟨before, inner, o, c, g, rfl, hopens, hg, hinner, hcloses⟩ := h.lookahead hafter
      have hsplit : before ++ o :: (inner ++ [c]) ++ t :: ts =
          before ++ o :: (inner ++ c :: t :: ts) := by simp
      exact .repeated hsplit hopens hg hinner hcloses (Token.operator?_eq ht) hquantifier
  · cases hstep

theorem problem_of_class {o : Token} {rest : List Token} (hts : Lexed .charClass (body ++ rest))
    (hopens : o.operator? = some (.classOpen .plain))
    (hbody : ∀ t ∈ body, t.context = .charClass ∧ t.kind ≠ .classClose)
    (hends : ∀ t ∈ rest.head?, t.context = .charClass ∧ t.kind = .classClose)
    (hrun : ClassProgress.start.run body = none) : WideProblem (o :: (body ++ rest)) := by
  by_cases hchange : ∀ t ∈ body, t.changes = false
  · have hmembers : ∀ t ∈ body, IsMember t := fun t ht =>
      ⟨(hbody t ht).1, (hbody t ht).2, hchange t ht⟩
    have hmembers' : ∀ t ∈ classMembers body, IsMember t := fun t ht =>
      hmembers t (mem_of_mem_classMembers ht)
    rw [ClassProgress.run_start hmembers, ClassProgress.run_fresh hmembers'] at hrun
    obtain ⟨⟨a, b⟩, hrange, hends'⟩ := hrun
    have hsplit : o :: (body ++ rest) = [] ++ o :: (body ++ rest) := rfl
    exact .range hsplit hopens hbody hends hrange hends'
  · simp only [not_forall, Bool.not_eq_false] at hchange
    obtain ⟨t, ht, hchange⟩ := hchange
    exact (hts.problem (List.mem_append_left _ ht) hchange).behind [o]

theorem WideProgress.Recalls.inClass {front : List Token} (h : p.Recalls front)
    (hafter : p.afterLookahead = false) (ts : List Token) (hts : ∀ t ∈ ts, t.context = .charClass)
    (q : ClassProgress) : WideProgress.Recalls { p with charClass := q } (front ++ ts) := by
  have hlevel : ∀ t ∈ ts, t.nesting = 0 := fun t ht => by
    rw [Token.nesting, Token.operator?_inClass (hts t ht)]
  refine ⟨h.groups.matched (matched_of_level hlevel), fun hlookahead => ?_⟩
  rw [hafter] at hlookahead
  cases hlookahead

/-- Where the scan stops there is a problem. A source is read token by token
outside classes, and a class as a whole. -/
theorem problem_of_run {p : WideProgress} {front ts : List Token} (h : p.Recalls front)
    (hts : Lexed .pattern ts) (hrun : ts.foldlM WideProgress.step p = none) :
    WideProblem (front ++ ts) := by
  cases hts with
  | nil => cases hrun
  | @cons _ c r k ts read rest =>
    rw [List.foldlM_cons] at hrun
    cases hstep : p.step ⟨k, c :: r, .pattern⟩ with
    | none => exact h.problem (.cons read rest) rfl hstep
    | some p' =>
      replace hrun : ts.foldlM WideProgress.step p' = none := by rwa [hstep] at hrun
      have hnext := h.push rfl hstep
      by_cases hk : k = .classOpen .plain
      · subst hk
        obtain rfl := Option.some.inj hstep
        obtain ⟨body, behind, rfl, hbody, hbehind⟩ := rest.class_split
        have hends : ∀ t ∈ behind.head?, t.context = .charClass ∧ t.kind = .classClose := by
          obtain rfl | ⟨w, us, rfl, -⟩ := hbehind <;> simp
        rw [WideProgress.run_body fun t ht => (hbody t ht).1] at hrun
        cases hq : ClassProgress.start.run body with
        | none => exact (problem_of_class rest rfl hbody hends hq).behind front
        | some q =>
          rw [hq, Option.bind_some] at hrun
          obtain rfl | ⟨w, us, rfl, hus⟩ := hbehind
          · cases hrun
          · have hclosed := hnext.inClass rfl (body ++ [⟨.classClose, w, .charClass⟩])
              (by simpa [or_imp, forall_and] using fun t ht => (hbody t ht).1) q
            have hproblem := problem_of_run hclosed hus hrun
            simpa using hproblem
      · have hcontext : contextAfter .pattern k = .pattern := by
          cases k with
          | classOpen o =>
            cases o with
            | plain => exact absurd rfl hk
            | emptyNegated => rfl
          | _ => rfl
        rw [hcontext] at rest
        have hproblem := problem_of_run hnext rest hrun
        rwa [List.append_assoc] at hproblem
termination_by ts.length
decreasing_by all_goals (simp_all; try omega)

theorem WideProgress.run_cons : (t :: ts).foldlM step p = some p' ↔
    ∃ p'', p.step t = some p'' ∧ ts.foldlM step p'' = some p' := by
  rw [List.foldlM_cons]
  exact Option.bind_eq_some_iff

theorem WideProgress.run_append {us : List Token} : (ts ++ us).foldlM step p = some p' ↔
    ∃ p'', ts.foldlM step p = some p'' ∧ us.foldlM step p'' = some p' := by
  rw [List.foldlM_append]
  exact Option.bind_eq_some_iff

theorem WideProgress.step_groupClose (ht : t.operator? = some .groupClose) (hg : p.groups = g :: gs)
    (h : p.step t = some p') : p'.afterLookahead = g.isLookahead := by
  obtain ⟨hc, hk⟩ := Token.of_operator? ht
  rw [step_pattern hc] at h
  split at h
  · cases h
  · obtain rfl := Option.some.inj h
    simp [hk, hg]

theorem WideProblem.run (h : WideProblem ts) : ts.foldlM WideProgress.step p = none := by
  by_contra hne
  obtain ⟨p', hrun⟩ := Option.ne_none_iff_exists'.mp hne
  have hchange := WideProgress.not_changes (Option.isSome_of_eq_some hrun)
  cases h with
  | garbage mem kind =>
    have hgarbage := hchange _ mem
    simp [Token.changes, kind] at hgarbage
  | escape mem kind foreign => exact absurd (foreign.changes kind) (by simp [hchange _ mem])
  | classEscape mem inside kind foreign =>
    exact absurd (foreign.changes inside kind) (by simp [hchange _ mem])
  | @repeated front inner rest o c q g k split opens lookahead inside closes kind quantifier =>
    subst split
    obtain ⟨p₁, -, hrun⟩ := WideProgress.run_append.mp hrun
    obtain ⟨p₂, hopen, hrun⟩ := WideProgress.run_cons.mp hrun
    obtain ⟨p₃, hinner, hrun⟩ := WideProgress.run_append.mp hrun
    obtain ⟨p₄, hclose, hrun⟩ := WideProgress.run_cons.mp hrun
    obtain ⟨p₅, hquantifier, -⟩ := WideProgress.run_cons.mp hrun
    have hgroups : p₃.groups = g :: p₁.groups := by
      rw [WideProgress.groups_of_run hinner, inside.foldl_grouped,
        WideProgress.groups_of_step hopen, Token.grouped, opens]
      obtain rfl | rfl := lookahead <;> rfl
    have hafter : p₄.afterLookahead := by
      rw [WideProgress.step_groupClose closes hgroups hclose]
      obtain rfl | rfl := lookahead <;> rfl
    obtain ⟨hc, rfl⟩ := Token.of_operator? kind
    rw [WideProgress.step_pattern hc, hafter, quantifier] at hquantifier
    simp at hquantifier
  | @range front body rest o a b split opens inside ends range shorthand =>
    subst split
    obtain ⟨p₁, -, hrun⟩ := WideProgress.run_append.mp hrun
    obtain ⟨p₂, hopen, hrun⟩ := WideProgress.run_cons.mp hrun
    obtain ⟨hc, hk⟩ := Token.of_operator? opens
    obtain rfl : _ = p₂ := Option.some.inj ((WideProgress.step_class hc hk p₁).symm.trans hopen)
    rw [WideProgress.run_body fun t ht => (inside t ht).1] at hrun
    obtain ⟨q, hq, -⟩ := Option.bind_eq_some_iff.mp hrun
    have hmembers : ∀ t ∈ body, IsMember t := fun t ht =>
      ⟨(inside t ht).1, (inside t ht).2, hchange t (by simp [ht])⟩
    have hnone := (ClassProgress.run_fresh fun t ht => hmembers t (mem_of_mem_classMembers ht)).mpr
      ⟨_, range, shorthand⟩
    rw [(ClassProgress.run_start hmembers).mpr hnone] at hq
    cases hq

namespace Source

/-- The scan finds a problem exactly if there is one. -/
theorem hasWideProblem_iff (s : Text) : hasWideProblem s = true ↔ WideProblem (lex s) := by
  rw [hasWideProblem, Option.isNone_iff_eq_none]
  refine ⟨fun hrun => ?_, WideProblem.run⟩
  have hstart : WideProgress.Recalls .start [] := ⟨.nil [], nofun⟩
  exact problem_of_run hstart (lexed_lexFrom .pattern s) hrun

end Source

end Splice
