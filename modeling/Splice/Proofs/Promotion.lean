import Splice.Proofs.Atoms

/-!
# Promotion keeps well-formedness

A source that is well formed in narrow mode, and in which the scan for wide
problems finds nothing, is well formed in wide mode once it is promoted. Both
readings go through the source together, atom by atom. The groups that are open
on both sides are those that the scan remembers, and they differ only in
whether a quantifier may follow a lookahead.
-/

namespace Splice

open Lexer Grammar

section
variable {found : Survey} {p p' : WideProgress} {t : Token} {ts toks us : List Token}
variable {c d : Char} {k : TokenKind} {g : GroupOpener} {r w X Y : Text} {captures n : Nat}

/-- Which of the groups that the scan remembers a quantifier may follow in a mode. -/
def WideProgress.repeatable (p : WideProgress) (wide : Bool) : List Bool :=
  p.groups.map (GroupOpener.repeatable wide)

/-- Wide mode reads what promotion makes of some tokens, if narrow mode reads them. -/
def Agrees (found : Survey) (p : WideProgress) (ts : List Token) : Prop :=
  ∀ captures n, readFrom false found (p.repeatable false) captures (untokenize ts) = some n →
    readFrom true found (p.repeatable true) captures (respell ts) = some n

/-- The same where a quantifier may come next. -/
def AgreesAfter (found : Survey) (p : WideProgress) (ts : List Token) : Prop :=
  ∀ captures n, readAfter false found (p.repeatable false) captures (untokenize ts) = some n →
    readAfter true found (p.repeatable true) captures (respell ts) = some n

theorem Atom.agrees (h : Atom found p toks us p') (hrest : AgreesAfter found p' us) :
    Agrees found p (toks ++ us) := by
  intro captures n hread
  have hgroups : ∀ wide, p.repeatable wide = p'.repeatable wide := fun wide => by
    rw [WideProgress.repeatable, WideProgress.repeatable, h.groups]
  rw [untokenize_append, h.narrow, hgroups] at hread
  rw [respell_append, h.wide, hgroups]
  exact hrest captures n hread

-- ---------------------------------------------------------------------------
-- Quantifiers
-- ---------------------------------------------------------------------------

theorem isQuantifier_of_scan (read : scan .pattern c X = (k, n)) (hc : c ∈ ['*', '+', '?']) :
    k.isQuantifier := by
  simp only [List.mem_cons, List.not_mem_nil, or_false] at hc
  obtain rfl | rfl | rfl := hc
  all_goals
    obtain rfl := (Prod.mk.inj read).1
    rfl

theorem quantifierLength_untokenize (h : Lexed .pattern ts)
    (hk : ∀ t ∈ ts.head?, t.kind.isQuantifier = false) :
    quantifierLength? false (untokenize ts) = some 0 := by
  cases h with
  | nil => rfl
  | @cons _ c r k us read rest =>
    have hnot : k.isQuantifier = false := hk _ rfl
    by_cases hbrace : c = '{'
    · subst hbrace
      rw [scan_brace] at read
      split at read
      · obtain rfl := (Prod.mk.inj read).1
        cases hnot
      · rename_i hnone
        rw [untokenize_cons, List.cons_append, Grammar.quantifierLength?, hnone]
        rfl
    · refine quantifierLength_none fun x hx hmem => ?_
      obtain rfl : c = x := Option.some.inj hx
      simp only [List.mem_cons, List.not_mem_nil, or_false, hbrace] at hmem
      have hquantifier := isQuantifier_of_scan read (by simpa using hmem)
      rw [hnot] at hquantifier
      cases hquantifier

theorem quantifierLength_respell (h : Lexed .pattern ts)
    (hk : ∀ t ∈ ts.head?, t.kind.isQuantifier = false) :
    quantifierLength? true (respell ts) = some 0 := by
  refine quantifierLength_none fun x hx hmem => ?_
  cases h with
  | nil => cases hx
  | @cons _ c r k us read rest =>
    have hnot : k.isQuantifier = false := hk _ rfl
    rw [respell_cons, Token.promoted_eq rfl] at hx
    cases hrespell : k.respelling? with
    | some w =>
      rw [hrespell] at hx
      obtain ⟨b, -, rfl⟩ | ⟨v, rfl⟩ := front_respelling hrespell
      all_goals
        obtain rfl := Option.some.inj hx
        simp at hmem
    | none =>
      rw [hrespell] at hx
      obtain rfl : c = x := Option.some.inj hx
      by_cases hbrace : c = '{'
      · subst hbrace
        rw [scan_brace] at read
        split at read <;> obtain rfl := (Prod.mk.inj read).1
        · cases hnot
        · cases hrespell
      · simp only [List.mem_cons, List.not_mem_nil, or_false, hbrace] at hmem
        have hquantifier := isQuantifier_of_scan read (by simpa using hmem)
        rw [hnot] at hquantifier
        cases hquantifier

theorem WideProgress.step_quantifier (hk : k.isQuantifier)
    (h : p.step ⟨k, w, .pattern⟩ = some p') :
    p.afterLookahead = false ∧ p' = { p with afterLookahead := false } := by
  have hstep : p.step ⟨k, w, .pattern⟩ =
      if p.afterLookahead then none else some { p with afterLookahead := false } := by
    cases k with
    | braceOpen b =>
      cases b with
      | quantifier => rfl
      | literal => cases hk
    | star | plus | question => rfl
    | _ => cases hk
  rw [hstep] at h
  cases hafter : p.afterLookahead with
  | true =>
    rw [hafter, if_pos rfl] at h
    cases h
  | false =>
    rw [hafter, if_neg (by simp)] at h
    exact ⟨rfl, (Option.some.inj h).symm⟩

theorem quantifier_kept (hk : k.isQuantifier) :
    k.respelling? = none ∧ contextAfter .pattern k = .pattern := by
  cases k with
  | braceOpen b =>
    cases b with
    | quantifier => exact ⟨rfl, rfl⟩
    | literal => cases hk
  | star | plus | question => exact ⟨rfl, rfl⟩
  | _ => cases hk

theorem lazy_cases (h : Lexed .pattern ts) :
    lazyLength (untokenize ts) = 0 ∧ lazyLength (respell ts) = 0 ∨
      ∃ us, ts = ⟨.question, ['?'], .pattern⟩ :: us ∧ Lexed .pattern us := by
  have zero : ∀ {Y : Text}, Y.head? ≠ some '?' → lazyLength Y = 0 := by
    intro Y hY
    unfold lazyLength
    split
    · simp at hY
    · rfl
  by_cases hq : (untokenize ts).head? = some '?'
  · cases h with
    | nil => cases hq
    | @cons _ c r k us read rest =>
      obtain rfl : c = '?' := Option.some.inj hq
      obtain ⟨rfl, hlength⟩ := Prod.mk.inj read
      obtain rfl := List.length_eq_zero_iff.mp hlength.symm
      exact .inr ⟨us, rfl, rest⟩
  · exact .inl ⟨zero hq, zero (respell_head h (by decide) hq)⟩

theorem Pending.tail (h : Pending found p (t :: us)) (hrest : Lexed .pattern us)
    (hstep : p.step t = some p') : Pending found p' us := by
  replace h : Pending found p ([t] ++ us) := h
  refine h.behind hrest ?_
  rw [List.foldlM_cons, hstep]
  rfl

theorem readAfter_quantifier {wide : Bool} {groups : List Bool}
    (h : ∀ wide Y, quantifierLength? wide (c :: (r ++ Y)) =
      some (r.length + 1 + lazyLength Y)) :
    readAfter wide found groups captures (c :: (r ++ Y)) =
      readFrom wide found groups captures (Y.drop (lazyLength Y)) := by
  rw [readAfter, h, Option.bind_some, Nat.add_right_comm, List.drop_succ_cons, ← List.drop_drop,
    List.drop_left]

theorem Pending.agreesAfter (h : Pending found p ts)
    (ih : ∀ us p', us.length ≤ ts.length → Pending found p' us → Agrees found p' us) :
    AgreesAfter found p ts := by
  intro captures n hread
  by_cases hk : ∀ t ∈ ts.head?, t.kind.isQuantifier = false
  · rw [readAfter_zero (quantifierLength_untokenize h.lexed hk)] at hread
    rw [readAfter_zero (quantifierLength_respell h.lexed hk)]
    exact ih ts p (Nat.le_refl _) h captures n hread
  · have hlexed := h.lexed
    cases hlexed with
    | nil => simp at hk
    | @cons _ c r k us read rest =>
      have hquantifier : k.isQuantifier := by simpa using hk
      obtain ⟨ordered, hlength⟩ := quantifierLength_scan hquantifier read
      obtain ⟨p', hstep⟩ := h.step
      obtain ⟨hafter, rfl⟩ := WideProgress.step_quantifier hquantifier hstep
      obtain ⟨hkept, hcontext⟩ := quantifier_kept hquantifier
      rw [hcontext] at rest
      have hbehind := h.tail rest hstep
      have hnarrow : untokenize (⟨k, c :: r, .pattern⟩ :: us) = c :: (r ++ untokenize us) := rfl
      have hwide : respell (⟨k, c :: r, .pattern⟩ :: us) = c :: (r ++ respell us) := by
        rw [respell_cons, Token.promoted_eq rfl, hkept]
        rfl
      rw [hnarrow] at hread
      rw [hwide]
      cases ordered with
      | false =>
        rw [readAfter, hlength] at hread
        cases hread
      | true =>
        rw [readAfter_quantifier hlength] at hread ⊢
        obtain ⟨hzero, hzero'⟩ | ⟨vs, rfl, hvs⟩ := lazy_cases rest
        · rw [hzero] at hread
          rw [hzero']
          exact ih us _ (Nat.le_succ _) hbehind captures n hread
        · have hlazy := hbehind.tail hvs rfl
          exact ih vs _ (Nat.le_add_right _ 2) hlazy captures n hread

/-- Behind a lookahead narrow mode finds no quantifier, and wide mode looks for none. -/
theorem Pending.agrees_behind_lookahead (h : Pending found p ts) (hafter : p.afterLookahead)
    (ih : Agrees found p ts)
    (hread : readAfter false found (p.repeatable false) captures (untokenize ts) = some n) :
    readFrom true found (p.repeatable true) captures (respell ts) = some n := by
  refine ih captures n ?_
  rwa [readAfter_zero (quantifierLength_untokenize h.lexed fun t ht => ?_)] at hread
  have hlexed := h.lexed
  cases hlexed with
  | nil => cases ht
  | @cons _ c r k us read rest =>
    obtain rfl := Option.some.inj ht
    by_contra hk
    obtain ⟨p', hstep⟩ := h.step
    obtain ⟨hnot, -⟩ := WideProgress.step_quantifier (by simpa using hk) hstep
    rw [hafter] at hnot
    cases hnot

-- ---------------------------------------------------------------------------
-- Groups
-- ---------------------------------------------------------------------------

theorem readFrom_open {wide capturing repeatable : Bool} {groups : List Bool}
    (h : opener? wide (w ++ Y) = some (.opening capturing repeatable, w.length)) :
    readFrom wide found groups captures ('(' :: (w ++ Y)) =
      readFrom wide found (repeatable :: groups) (captures + capturing.toNat) Y := by
  have hterm : term? wide found '(' (w ++ Y) = some (.opening capturing repeatable, w.length) := h
  rw [readFrom_term hterm, List.drop_left]
  rfl

theorem opener_modifiers {wide : Bool} (h : ∀ x ∈ Y.head?, x ∉ [':', '=', '!', '<']) :
    opener? wide ('?' :: Y) =
      (modifiersLength? Y).map fun length => (.opening false true, length + 1) := by
  unfold opener?
  split
  case h_7 =>
    rename_i heq
    obtain ⟨-, rfl⟩ := List.cons.inj heq
    rfl
  case h_8 =>
    rename_i hne
    exact absurd rfl (hne Y)
  all_goals
    rename_i heq
    obtain ⟨-, rfl⟩ := List.cons.inj heq
    exact absurd (h _ rfl) (by decide)

theorem isLiteral_modifiers (hw : ∀ x ∈ w, x ∈ "ims-".toList) :
    ∀ x ∈ w ++ [':'], isLiteral x ∧ x ≠ '.' := by
  have hall : ∀ x ∈ "ims-:".toList, isLiteral x && x != '.' := forall_mem_of_all (by decide)
  have hincl : ∀ x ∈ "ims-".toList, "ims-:".toList.contains x := forall_mem_of_all (by decide)
  intro x hx
  have hmem : x ∈ "ims-:".toList := by
    obtain hx | hx := List.mem_append.mp hx
    · exact List.contains_iff_mem.mp (hincl x (hw x hx))
    · obtain rfl := List.mem_singleton.mp hx
      decide
  simpa using hall x hmem

theorem modifiersLength_of_readFrom {groups : List Bool}
    (hhead : ∀ x ∈ X.head?, x ∉ [':', '=', '!', '<'])
    (hread : readFrom false found groups captures ('(' :: '?' :: X) = some n) :
    ∃ m, modifiersLength? X = some m := by
  have hterm : term? false found '(' ('?' :: X) =
      (modifiersLength? X).map fun length => (.opening false true, length + 1) :=
    opener_modifiers hhead
  cases hm : modifiersLength? X with
  | some m => exact ⟨m, rfl⟩
  | none =>
    rw [hm] at hterm
    rw [readFrom_cons, hterm] at hread
    cases hread

theorem Pending.agrees_open (h : Pending found p (⟨.groupOpen g, c :: r, .pattern⟩ :: us))
    (read : scan .pattern c (r ++ untokenize us) = (.groupOpen g, r.length))
    (rest : Lexed .pattern us) (hd : g.isDeferred = false) (hm : g ≠ .modifiers)
    (ih : ∀ p', Pending found p' us → Agrees found p' us) :
    Agrees found p (⟨.groupOpen g, c :: r, .pattern⟩ :: us) := by
  have hs := spelled_of_scan read
  obtain hfirst | ⟨hk, -⟩ := first_of_scan read
  · obtain rfl := Option.some.inj hfirst
    have hname := Token.named_of_closesName (h.names _ List.mem_cons_self)
    have hopener : ∀ wide Y, (g = .capture → Y.head? ≠ some '?') →
        opener? wide (r ++ Y) = some (.opening g.isCapture (g.repeatable wide), r.length) :=
      fun wide Y hY => opener_spelled hs hd hm hY hname
    have hnarrow : g = .capture → (untokenize us).head? ≠ some '?' := by
      rintro rfl
      exact hs.2
    have hwide : g = .capture → (respell us).head? ≠ some '?' := fun hg =>
      respell_head rest (by decide) (hnarrow hg)
    have hstep : p.step ⟨.groupOpen g, '(' :: r, .pattern⟩ =
        some { p with afterLookahead := false, groups := g :: p.groups } := by
      cases g with
      | deferred => cases hd
      | _ => rfl
    intro captures n hread
    have hagrees := ih _ (h.tail rest hstep)
    rw [untokenize_cons, List.cons_append, readFrom_open (hopener false _ hnarrow)] at hread
    have hrespell : respell (⟨.groupOpen g, '(' :: r, .pattern⟩ :: us) = '(' :: (r ++ respell us) :=
      rfl
    rw [hrespell, readFrom_open (hopener true _ hwide)]
    exact hagrees _ n hread
  · cases hk

/-- Inline modifiers, which are characters to the lexer. -/
theorem Pending.agrees_modifiers
    (h : Pending found p (⟨.groupOpen .modifiers, c :: r, .pattern⟩ :: us))
    (read : scan .pattern c (r ++ untokenize us) = (.groupOpen .modifiers, r.length))
    (rest : Lexed .pattern us)
    (ih : ∀ vs p', vs.length ≤ us.length → Pending found p' vs → Agrees found p' vs) :
    Agrees found p (⟨.groupOpen .modifiers, c :: r, .pattern⟩ :: us) := by
  obtain ⟨rfl, hhead⟩ := spelled_of_scan read
  obtain hfirst | ⟨hk, -⟩ := first_of_scan read
  · obtain rfl := Option.some.inj hfirst
    intro captures n hread
    obtain ⟨m, hm⟩ := modifiersLength_of_readFrom hhead hread
    obtain ⟨w, Z, htext, rfl, hletters, happend⟩ := modifiers_append hm
    obtain ⟨front, vs, rfl, hfront, rfl, hrespell, hrest, hrun⟩ :=
      exists_run (w := w ++ [':']) (Y := Z) rest (by simpa using htext)
        (isLiteral_modifiers hletters)
    have hopener : ∀ wide Y, opener? wide ('?' :: (w ++ [':']) ++ Y) =
        some (.opening false true, ('?' :: (w ++ [':'])).length) := by
      intro wide Y
      have hsame : (w ++ ':' :: Y).head? = (w ++ ':' :: untokenize vs).head? := by
        cases w <;> rfl
      rw [htext, ← hsame] at hhead
      rw [List.cons_append, List.append_assoc, List.singleton_append, opener_modifiers hhead,
        happend]
      simp
    have hstep : p.step ⟨.groupOpen .modifiers, ['(', '?'], .pattern⟩ =
        some { p with afterLookahead := false, groups := .modifiers :: p.groups } := rfl
    have hbehind : Pending found
        { p with afterLookahead := false, groups := .modifiers :: p.groups } vs := by
      rw [← List.cons_append] at h
      refine h.behind hrest ?_
      rw [List.foldlM_cons, hstep]
      exact hrun _ rfl
    have hnarrow : untokenize (⟨.groupOpen .modifiers, ['(', '?'], .pattern⟩ :: (front ++ vs)) =
        '(' :: ('?' :: (w ++ [':']) ++ untokenize vs) := by
      rw [untokenize_cons, untokenize_append, hfront]
      rfl
    have hwide : respell (⟨.groupOpen .modifiers, ['(', '?'], .pattern⟩ :: (front ++ vs)) =
        '(' :: ('?' :: (w ++ [':']) ++ respell vs) := by
      rw [respell_cons, respell_append, hrespell]
      rfl
    rw [hnarrow, readFrom_open (hopener false _)] at hread
    rw [hwide, readFrom_open (hopener true _)]
    exact ih vs _ (by simp) hbehind _ n hread
  · cases hk

theorem Pending.agrees_close (h : Pending found p (⟨.groupClose, [')'], .pattern⟩ :: us))
    (rest : Lexed .pattern us)
    (ih : ∀ vs p', vs.length ≤ us.length → Pending found p' vs → Agrees found p' vs) :
    Agrees found p (⟨.groupClose, [')'], .pattern⟩ :: us) := by
  intro captures n hread
  have hterm : ∀ wide Y, term? wide found ')' Y = some (.closing, 0) := fun _ _ => rfl
  have hnarrow : untokenize (⟨.groupClose, [')'], .pattern⟩ :: us) = ')' :: untokenize us := rfl
  have hwide : respell (⟨.groupClose, [')'], .pattern⟩ :: us) = ')' :: respell us := rfl
  rw [hnarrow, readFrom_term (hterm false _), List.drop_zero] at hread
  rw [hwide, readFrom_term (hterm true _), List.drop_zero]
  obtain ⟨groups, after, charClass⟩ := p
  cases groups with
  | nil => cases hread
  | cons g groups =>
    have hbehind : Pending found ⟨groups, g.isLookahead, charClass⟩ us := h.tail rest rfl
    cases g with
    | lookahead | negativeLookahead =>
      exact hbehind.agrees_behind_lookahead rfl (ih us _ (Nat.le_refl _) hbehind) hread
    | lookbehind | negativeLookbehind => exact ih us _ (Nat.le_refl _) hbehind _ n hread
    | _ => exact hbehind.agreesAfter ih _ n hread

theorem readFrom_divider {wide : Bool} {groups : List Bool}
    (h : term? wide found c Y = some (.divider, 0)) :
    readFrom wide found groups captures (c :: Y) = readFrom wide found groups captures Y := by
  rw [readFrom_term h]
  rfl

theorem Pending.agrees_divider (h : Pending found p (⟨k, c :: r, .pattern⟩ :: us))
    (read : scan .pattern c (r ++ untokenize us) = (k, r.length))
    (rest : Lexed (contextAfter .pattern k) us) (hk : k = .pipe ∨ k = .caret ∨ k = .dollar)
    (ih : ∀ p', Pending found p' us → Agrees found p' us) :
    Agrees found p (⟨k, c :: r, .pattern⟩ :: us) := by
  intro captures n hread
  obtain rfl | rfl | rfl := hk
  all_goals
    obtain ⟨rfl, rfl⟩ := of_scan_isAlone read rfl rfl
    have hagrees := ih { p with afterLookahead := false } (h.tail rest rfl)
    have hrest : readFrom false found (p.repeatable false) captures (untokenize us) = some n :=
      (readFrom_divider rfl).symm.trans hread
    exact (readFrom_divider rfl).trans (hagrees captures n hrest)

-- ---------------------------------------------------------------------------
-- Sources
-- ---------------------------------------------------------------------------

theorem term_quantifier (read : scan .pattern c (r ++ X) = (k, r.length)) (hk : k.isQuantifier) :
    term? false found c (r ++ X) = none := by
  obtain hfirst | ⟨rfl, -⟩ := first_of_scan read
  · cases k with
    | star | plus | question =>
      obtain rfl := Option.some.inj hfirst
      rfl
    | braceOpen b =>
      cases b with
      | literal => cases hk
      | quantifier =>
        obtain ⟨-, rfl, hbounds⟩ := of_scan_bounds read
        have hread : Lexer.quantifierLength? (r ++ X) = some r.length :=
          (reads_quantifier.some_iff _ _).mpr ⟨r, X, rfl, hbounds⟩
        simp [term?, hread]
    | _ => cases hk
  · cases hk

theorem Pending.agrees_cons (h : Pending found p (⟨k, c :: r, .pattern⟩ :: us))
    (read : scan .pattern c (r ++ untokenize us) = (k, r.length))
    (rest : Lexed (contextAfter .pattern k) us)
    (ih : ∀ vs p', vs.length ≤ us.length → Pending found p' vs → Agrees found p' vs) :
    Agrees found p (⟨k, c :: r, .pattern⟩ :: us) := by
  intro captures n hread
  have hsome : (readFrom false found (p.repeatable false) captures
      (c :: (r ++ untokenize us))).isSome := Option.isSome_of_eq_some hread
  have next : ∀ p', Pending found p' us → Agrees found p' us := fun p' => ih us p' (Nat.le_refl _)
  have atom : HasAtom found p (⟨k, c :: r, .pattern⟩ :: us) →
      Agrees found p (⟨k, c :: r, .pattern⟩ :: us) := by
    rintro ⟨toks, vs, p', hsplit, hatom⟩
    have hle : vs.length ≤ us.length := by
      have hlength := congrArg List.length hsplit
      have hpos := List.length_pos_of_ne_nil hatom.ne_nil
      simp only [List.length_cons, List.length_append] at hlength
      omega
    rw [hsplit] at h ⊢
    exact hatom.agrees ((h.behind hatom.lexed hatom.scanned).agreesAfter fun ws q hws =>
      ih ws q (hws.trans hle))
  have quantifier : k.isQuantifier → False := by
    intro hk
    rw [readFrom_cons, term_quantifier read hk] at hsome
    cases hsome
  refine (?_ : Agrees found p _) captures n hread
  cases k with
  | escape e =>
    cases e with
    | unicode => exact atom (h.atom_unicode rest)
    | backReference m => exact atom (h.atom_reference read rest)
    | _ => exact atom (h.atom_escape read rest hsome (by simp) (by simp))
  | groupOpen g =>
    cases g with
    | deferred m => exact atom (h.atom_marker read rest)
    | modifiers => exact h.agrees_modifiers read rest ih
    | _ => exact h.agrees_open read rest rfl (by simp) next
  | groupClose =>
    obtain ⟨rfl, rfl⟩ := of_scan_isAlone read rfl rfl
    exact h.agrees_close rest ih
  | classOpen o =>
    cases o with
    | plain => exact atom (h.atom_class read rest hsome)
    | emptyNegated => exact atom (h.atom_respelt read rest rfl)
  | braceOpen b =>
    cases b with
    | quantifier => exact (quantifier rfl).elim
    | literal => exact atom (h.atom_respelt read rest rfl)
  | classClose | braceClose | dot => exact atom (h.atom_respelt read rest rfl)
  | pipe | caret | dollar => exact h.agrees_divider read rest (by simp) next
  | star | plus | question => exact (quantifier rfl).elim
  | dash | char => exact atom (h.atom_literal read rest (by simp))
  | garbage => cases h.not_changes _ List.mem_cons_self

/-- Wide mode reads what promotion makes of any tokens that narrow mode reads and in
which the scan finds no problem. -/
theorem Pending.agrees (h : Pending found p ts) : Agrees found p ts := by
  induction hn : ts.length using Nat.strong_induction_on generalizing p ts with
  | _ m ih =>
    subst hn
    have hlexed := h.lexed
    cases hlexed with
    | nil =>
      intro captures n hread
      rw [untokenize, List.map_nil, List.flatten_nil, readFrom] at hread
      rw [respell, List.map_nil, List.flatten_nil, readFrom]
      cases hgroups : p.groups with
      | nil => simpa [WideProgress.repeatable, hgroups] using hread
      | cons g groups => simp [WideProgress.repeatable, hgroups] at hread
    | @cons _ c r k us read rest =>
      exact h.agrees_cons read rest fun vs p' hle hv => ih vs.length (Nat.lt_succ_of_le hle) hv rfl

end

namespace Source

/-- The numbers of the references outside classes, each read with all the digits
behind it. -/
def numbers (s : Text) : List Nat := (lex s).tails.filterMap number?

/-- Whether a range of a class ends with two escapes that make one character, and
another dash stands behind them. -/
def straddles (s : Text) : Bool := (lex s).tails.any Splice.straddles

/-- Whether every name of a group ends with its opener. -/
def closesNames (s : Text) : Bool := (lex s).all Token.closesName

variable {s : Text} {n : Nat}

theorem captures_promote (h : captures? false s = some n)
    (hnumbers : ∀ n ∈ numbers s, n ≤ captureCount s)
    (hnames : (∃ t ∈ lex s, t.refersByName) → ∃ t ∈ lex s, t.isNamed)
    (hproblem : hasWideProblem s = false) (hcloses : closesNames s)
    (hstraddles : straddles s = false) : captures? true (promote s) = some n := by
  obtain ⟨found, hfound, hread⟩ := Option.bind_eq_some_iff.mp h
  have hlexed := lexed_lexFrom .pattern s
  have hcloses : ∀ t ∈ lex s, t.closesName := List.all_eq_true.mp hcloses
  have hscanned : ((lex s).foldlM WideProgress.step .start).isSome := by
    unfold hasWideProblem at hproblem
    simpa using hproblem
  have hchange := WideProgress.not_changes hscanned
  have hsurveyed : (lex s).foldlM Token.surveyed ⟨0, []⟩ = some found :=
    (survey_lex hchange hcloses).trans hfound
  obtain ⟨hcount, hfoundNames⟩ := surveyed_grows hlexed hsurveyed hcloses
  have hpending : Pending found .start (lex s) := by
    refine ⟨hlexed, hscanned, hcloses, fun ts hts n hn => ?_, fun href hnone => ?_,
      fun ts hts => ?_⟩
    · have hle := hnumbers n (List.mem_filterMap.mpr ⟨ts, (List.mem_tails ts (lex s)).mpr hts, hn⟩)
      have hcaptures : captureCount s ≤ found.parentheses := by
        simpa [captureCount, lex] using hcount
      exact hle.trans hcaptures
    · obtain ⟨t, ht, hnamed⟩ := hnames href
      rw [(hfoundNames hnone).2 t ht] at hnamed
      cases hnamed
    · by_contra hstraddle
      exact List.any_eq_false.mp hstraddles ts ((List.mem_tails ts (lex s)).mpr hts)
        (by simpa using hstraddle)
  have htext : untokenize (lex s) = s := untokenize_lexFrom .pattern s
  have hwide : readFrom true found [] 0 (promote s) = some n :=
    hpending.agrees 0 n (htext.symm ▸ hread)
  rw [captures?, survey_promote hchange hcloses, hfound]
  exact hwide

/-- A source that may be promoted is well formed in wide mode once it is. -/
theorem accepts_promote (h : accepts false s)
    (hnumbers : ∀ n ∈ numbers s, n ≤ captureCount s)
    (hnames : (∃ t ∈ lex s, t.refersByName) → ∃ t ∈ lex s, t.isNamed)
    (hproblem : hasWideProblem s = false) (hcloses : closesNames s)
    (hstraddles : straddles s = false) : accepts true (promote s) := by
  obtain ⟨n, hn⟩ := Option.isSome_iff_exists.mp h
  rw [accepts, captures_promote hn hnumbers hnames hproblem hcloses hstraddles]
  rfl

theorem accepts_promote_named :
    let s : Text := "(?<n>[a-\\ud83d\\ude00\\.]\x7b|(?=\\k<n>\\1)[^].)x\x7b2\x7d".toList
    accepts false s ∧ (∀ n ∈ numbers s, n ≤ captureCount s) ∧
      ((∃ t ∈ lex s, t.refersByName) → ∃ t ∈ lex s, t.isNamed) ∧ hasWideProblem s = false ∧
      closesNames s ∧ straddles s = false ∧ accepts true (promote s) := by
  intro s
  have h : accepts false s ∧ (∀ n ∈ numbers s, n ≤ captureCount s) ∧
      ((∃ t ∈ lex s, t.refersByName) → ∃ t ∈ lex s, t.isNamed) ∧ hasWideProblem s = false ∧
      closesNames s ∧ straddles s = false := by decide +kernel
  obtain ⟨haccepts, hnumbers, hnames, hproblem, hcloses, hstraddles⟩ := h
  exact ⟨haccepts, hnumbers, hnames, hproblem, hcloses, hstraddles,
    accepts_promote haccepts hnumbers hnames hproblem hcloses hstraddles⟩

-- The scan takes the two escapes for two members, and the dash behind them for that of a
-- range between characters. To the grammar they are one, and the range goes from a dash.
example :
    let s : Text := "[a-\\ud83d\\ude00--\\w]".toList
    accepts false s ∧ hasWideProblem s = false ∧ straddles s ∧
      accepts true (promote s) = false := by
  decide +kernel

end Source

end Splice
