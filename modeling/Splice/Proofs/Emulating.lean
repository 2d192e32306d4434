import Splice.Proofs.Spelling

/-!
# Emulation settles

What emulation has written it copies: a dot is gone, and an anchor stands in a
folded anchor (`Emulated`). The one danger is a folded anchor that begins
elsewhere than where emulation put it. It would have a bare anchor behind its
parenthesis, and emulation leaves none. Dots and anchors are replaced
independently of each other, because a folded anchor has no dot.
-/

namespace Splice

open Lexer

variable {dotAll fold : Bool} {t : Token} {ts us front : List Token}

-- ---------------------------------------------------------------------------
-- Emulated tokens
-- ---------------------------------------------------------------------------

def Token.IsAnchor (t : Token) : Prop := t.operator? = some .caret ∨ t.operator? = some .dollar

/-- A token that emulation does not replace. -/
structure Token.Kept (dotAll fold : Bool) (t : Token) : Prop where
  dot : dotAll → t.operator? ≠ some .dot
  anchor : fold → ¬ t.IsAnchor

/-- Tokens that emulation leaves alone. -/
inductive Emulated (dotAll fold : Bool) : List Token → Prop
  | nil : Emulated dotAll fold []
  | anchor {front ts : List Token} (hf : fold) (mem : front ∈ foldedAnchors)
      (rest : Emulated dotAll fold ts) : Emulated dotAll fold (front ++ ts)
  | token {t : Token} {ts : List Token} (kept : t.Kept dotAll fold)
      (rest : Emulated dotAll fold ts) : Emulated dotAll fold (t :: ts)

theorem Token.kept_or_replaced (dotAll fold : Bool) (t : Token) :
    (t.Kept dotAll fold ∧ t.emulatedTokens dotAll fold = [t]) ∨
    (dotAll ∧ t.operator? = some .dot ∧ t.emulatedTokens dotAll fold = [anyUnitToken]) ∨
    (fold ∧ t.IsAnchor ∧ t.emulatedTokens dotAll fold ∈ foldedAnchors) := by
  unfold Token.emulatedTokens
  split
  · rename_i hdot
    cases dotAll with
    | true => exact .inr (.inl ⟨rfl, hdot, rfl⟩)
    | false => exact .inl ⟨⟨by simp, by simp [IsAnchor, hdot]⟩, rfl⟩
  · rename_i hcaret
    cases fold with
    | true => exact .inr (.inr ⟨rfl, .inl hcaret, by simp [foldedAnchors]⟩)
    | false => exact .inl ⟨⟨by simp [hcaret], by simp⟩, rfl⟩
  · rename_i hdollar
    cases fold with
    | true => exact .inr (.inr ⟨rfl, .inr hdollar, by simp [foldedAnchors]⟩)
    | false => exact .inl ⟨⟨by simp [hdollar], by simp⟩, rfl⟩
  · rename_i hdot hcaret hdollar
    exact .inl ⟨⟨fun _ => hdot, fun _ hanchor => hanchor.elim hcaret hdollar⟩, rfl⟩

theorem Token.Kept.emulatedTokens (h : t.Kept dotAll fold) :
    t.emulatedTokens dotAll fold = [t] := by
  rcases t.kept_or_replaced dotAll fold with ⟨-, hkeep⟩ | ⟨hd, hdot, -⟩ | ⟨hf, hanchor, -⟩
  · exact hkeep
  · exact absurd hdot (h.dot hd)
  · exact absurd hanchor (h.anchor hf)

theorem kept_anyUnit : anyUnitToken.Kept dotAll fold where
  dot _ := by decide
  anchor _ := by unfold Token.IsAnchor; decide

theorem Emulation.emulated (h : Emulation dotAll fold ts us) : Emulated dotAll fold us := by
  induction h with
  | nil => exact .nil
  | anchor hf mem _ ih => exact .anchor hf mem ih
  | @token t _ us _ _ ih =>
    rcases t.kept_or_replaced dotAll fold with ⟨hkept, hkeep⟩ | ⟨-, -, hunit⟩ | ⟨hf, -, hmem⟩
    · rw [hkeep]
      exact .token hkept ih
    · rw [hunit]
      exact .token kept_anyUnit ih
    · exact .anchor hf hmem ih

theorem StartsFolded.isAnchor (h : StartsFolded (t :: ts)) : ∃ u ∈ ts.head?, u.IsAnchor := by
  obtain ⟨front, hmem, rest, hsplit⟩ := h
  rcases foldedAnchors_cases hmem with rfl | rfl
  · obtain ⟨-, rfl⟩ := List.cons.inj hsplit
    exact ⟨_, rfl, .inl rfl⟩
  · obtain ⟨-, rfl⟩ := List.cons.inj hsplit
    exact ⟨_, rfl, .inr rfl⟩

theorem Emulated.not_isAnchor (h : Emulated dotAll fold us) (hf : fold) :
    ∀ u ∈ us.head?, ¬ u.IsAnchor := by
  cases h with
  | nil => simp
  | anchor _ mem _ =>
    intro u hu
    rcases foldedAnchors_cases mem with rfl | rfl <;>
      (obtain rfl := Option.some.inj hu; unfold Token.IsAnchor; decide)
  | token kept _ =>
    intro u hu
    obtain rfl := Option.some.inj hu
    exact kept.anchor hf

theorem Emulated.emulation (h : Emulated dotAll fold us) : Emulation dotAll fold us us := by
  induction h with
  | nil => exact .nil
  | anchor hf mem _ ih => exact .anchor hf mem ih
  | @token t us kept rest ih =>
    have hself : Emulation dotAll fold (t :: us) (t.emulatedTokens dotAll fold ++ us) := by
      -- A folded anchor that begins here would leave a bare anchor at the head of the rest.
      refine .token ?_ ih
      intro hf hstarts
      obtain ⟨u, hu, hanchor⟩ := hstarts.isAnchor
      exact rest.not_isAnchor hf u hu hanchor
    rwa [kept.emulatedTokens] at hself

-- ---------------------------------------------------------------------------
-- What is gone
-- ---------------------------------------------------------------------------

theorem Emulated.not_dot (h : Emulated dotAll fold us) (hd : dotAll) :
    ∀ t ∈ us, t.operator? ≠ some .dot := by
  induction h with
  | nil => simp
  | anchor _ mem _ ih =>
    rw [List.forall_mem_append]
    refine ⟨?_, ih⟩
    rcases foldedAnchors_cases mem with rfl | rfl <;> decide
  | token kept _ ih => exact List.forall_mem_cons.mpr ⟨kept.dot hd, ih⟩

/-- Whether each anchor of some tokens lies inside a folded anchor that begins with
a token. -/
def Anchored (us : List Token) : Prop :=
  ∀ before t after, us = before ++ t :: after → t.IsAnchor →
    ∃ outer inner, before = outer ++ inner ∧ ∃ anchor ∈ [foldedStart, foldedEnd],
      anchor <+: untokenize (inner ++ t :: after) ∧ untokenize (inner ++ [t]) <+: anchor

theorem text_folded (h : front ∈ foldedAnchors) :
    untokenize front ∈ [foldedStart, foldedEnd] := by
  rcases foldedAnchors_cases h with rfl | rfl <;> decide

theorem untokenize_prefix (ts us : List Token) : untokenize ts <+: untokenize (ts ++ us) :=
  ⟨untokenize us, (untokenize_append ts us).symm⟩

theorem Anchored.append (h : Anchored us)
    (hfront : ∀ t ∈ front, t.IsAnchor → front ∈ foldedAnchors) : Anchored (front ++ us) := by
  intro before t after hsplit hanchor
  have hplace : (∃ rest, before = front ++ rest ∧ us = rest ++ t :: after) ∨
      ∃ inner, front = before ++ t :: inner ∧ after = inner ++ us := by
    rcases List.append_eq_append_iff.mp hsplit with ⟨rest, hbefore, hus⟩ | ⟨rest, hsplit, hafter⟩
    · exact .inl ⟨rest, hbefore, hus⟩
    · rcases List.cons_eq_append_iff.mp hafter with ⟨rfl, hus⟩ | ⟨inner, rfl, hinner⟩
      · exact .inl ⟨[], by simp [hsplit], hus⟩
      · exact .inr ⟨inner, hsplit, hinner⟩
  rcases hplace with ⟨rest, rfl, hus⟩ | ⟨inner, rfl, rfl⟩
  · obtain ⟨outer, inner, rfl, hin⟩ := h rest t after hus hanchor
    exact ⟨front ++ outer, inner, by simp, hin⟩
  · have hmem := hfront t (by simp) hanchor
    refine ⟨[], before, rfl, _, text_folded hmem, ?_, ?_⟩
    · simpa using untokenize_prefix (before ++ t :: inner) us
    · simpa using untokenize_prefix (before ++ [t]) inner

theorem Emulated.anchored (h : Emulated dotAll fold us) (hf : fold) : Anchored us := by
  induction h with
  | nil =>
    intro before t after hsplit
    simp at hsplit
  | anchor _ mem _ ih => exact ih.append fun _ _ _ => mem
  | @token t us kept _ ih =>
    change Anchored ([t] ++ us)
    apply ih.append
    intro u hu hanchor
    obtain rfl := List.mem_singleton.mp hu
    exact absurd hanchor (kept.anchor hf)

-- ---------------------------------------------------------------------------
-- Dots and anchors one after the other
-- ---------------------------------------------------------------------------

def Token.undotted (t : Token) : Token := if t.operator? = some .dot then anyUnitToken else t

theorem map_undotted_folded (h : front ∈ foldedAnchors) : front.map Token.undotted = front := by
  rcases foldedAnchors_cases h with rfl | rfl <;> rfl

theorem Token.emulatedTokens_undotted (t : Token) : t.emulatedTokens true false = [t.undotted] := by
  by_cases hdot : t.operator? = some .dot
  · simp [emulatedTokens, undotted, hdot]
  · rw [undotted, if_neg hdot]
    exact Kept.emulatedTokens ⟨fun _ => hdot, by simp⟩

theorem Token.emulatedTokens_of_not_dot (h : t.operator? ≠ some .dot) :
    t.emulatedTokens false fold = t.emulatedTokens true fold := by
  unfold emulatedTokens
  split <;> simp_all

/-- A dot is replaced alike before anchors are folded and afterwards. -/
theorem Token.emulatedTokens_of_undotted (t : Token) :
    t.undotted.emulatedTokens false fold = t.emulatedTokens true fold := by
  by_cases hdot : t.operator? = some .dot
  · rw [undotted, if_pos hdot, kept_anyUnit.emulatedTokens]
    simp [emulatedTokens, hdot]
  · rw [undotted, if_neg hdot, emulatedTokens_of_not_dot hdot]

theorem Token.undotted_emulatedTokens (t : Token) :
    (t.emulatedTokens false fold).map undotted = t.emulatedTokens true fold := by
  by_cases hdot : t.operator? = some .dot
  · simp [emulatedTokens, undotted, hdot]
  · rw [← emulatedTokens_of_not_dot hdot]
    rcases t.kept_or_replaced false fold with ⟨-, hkeep⟩ | ⟨hd, -, -⟩ | ⟨-, -, hmem⟩
    · rw [hkeep]
      simp [undotted, hdot]
    · cases hd
    · exact map_undotted_folded hmem

theorem Emulation.undotted (h : Emulation true false ts us) : us = ts.map Token.undotted := by
  induction h with
  | nil => rfl
  | anchor hf _ _ _ => cases hf
  | @token t _ _ _ _ ih =>
    rw [t.emulatedTokens_undotted, ih, List.map_cons, List.singleton_append]

theorem Token.undotted_eq_self (h : t.undotted ≠ anyUnitToken) : t.undotted = t := by
  unfold undotted at h ⊢
  split at h
  · exact absurd rfl h
  · rename_i hdot
    rw [if_neg hdot]

/-- A folded anchor has no class that excludes nothing, so it is there before dots
are replaced. -/
theorem StartsFolded.of_undotted (h : StartsFolded (ts.map Token.undotted)) : StartsFolded ts := by
  obtain ⟨front, hmem, rest, hsplit⟩ := h
  obtain ⟨first, second, rfl, hfirst, -⟩ := List.map_eq_append_iff.mp hsplit.symm
  have hunit : ∀ u ∈ front, u ≠ anyUnitToken := by
    rcases foldedAnchors_cases hmem with rfl | rfl <;> decide
  have hself : ∀ t ∈ first, t.undotted = t := by
    intro t ht
    apply Token.undotted_eq_self
    apply hunit
    rw [← hfirst]
    exact List.mem_map_of_mem ht
  obtain rfl : first = front := by
    rw [← hfirst, List.map_congr_left hself, List.map_id']
  exact ⟨first, hmem, second, rfl⟩

theorem Emulation.behind_dots (h : Emulation true fold ts us) :
    Emulation false fold (ts.map Token.undotted) us := by
  induction h with
  | nil => exact .nil
  | anchor hf mem _ ih =>
    rw [List.map_append, map_undotted_folded mem]
    exact .anchor hf mem ih
  | @token t ts us free _ ih =>
    rw [← t.emulatedTokens_of_undotted, List.map_cons]
    refine .token ?_ ih
    intro hf hstarts
    have hmap : StartsFolded ((t :: ts).map Token.undotted) := hstarts
    exact free hf hmap.of_undotted

theorem Emulation.before_dots (h : Emulation false fold ts us) :
    Emulation true fold ts (us.map Token.undotted) := by
  induction h with
  | nil => exact .nil
  | anchor hf mem _ ih =>
    rw [List.map_append, map_undotted_folded mem]
    exact .anchor hf mem ih
  | @token t _ _ free _ ih =>
    rw [List.map_append, t.undotted_emulatedTokens]
    exact .token free ih

namespace Source

theorem emulate_emulate (dotAll fold : Bool) (s : Text) :
    emulate dotAll fold (emulate dotAll fold s) = emulate dotAll fold s := by
  rw [emulate_eq (emulation_lex dotAll fold s).emulated.emulation, untokenize_lex]

theorem lex_emulate_dots (s : Text) : lex (emulate true false s) = (lex s).map Token.undotted :=
  (emulation_lex true false s).undotted

theorem emulate_dots_first (fold : Bool) (s : Text) :
    emulate false fold (emulate true false s) = emulate true fold s := by
  have hdots := (emulation_lex true fold s).behind_dots
  rw [← lex_emulate_dots] at hdots
  rw [emulate_eq hdots, untokenize_lex]

theorem emulate_dots_last (fold : Bool) (s : Text) :
    emulate true false (emulate false fold s) = emulate true fold s := by
  rw [emulate_eq (emulation_lex false fold s).before_dots, ← lex_emulate_dots, untokenize_lex]

/-- The tokens of an emulated source are those that emulation makes, it leaves nothing to
emulate, and it may be done flag by flag. -/
theorem emulate_fixed (dotAll fold : Bool) (s : Text) :
    Emulation dotAll fold (lex s) (lex (emulate dotAll fold s)) ∧
    emulate dotAll fold (emulate dotAll fold s) = emulate dotAll fold s ∧
    emulate true true s = emulate false true (emulate true false s) ∧
    emulate true true s = emulate true false (emulate false true s) ∧
    (dotAll → ∀ t ∈ lex (emulate dotAll fold s), t.operator? ≠ some .dot) ∧
    (fold → Anchored (lex (emulate dotAll fold s))) := by
  have hemulation := emulation_lex dotAll fold s
  have hemulated := hemulation.emulated
  refine ⟨hemulation, emulate_emulate dotAll fold s, (emulate_dots_first true s).symm,
    (emulate_dots_last true s).symm, ?_, ?_⟩
  · intro hd
    exact hemulated.not_dot hd
  · intro hf
    exact hemulated.anchored hf

theorem emulate_fixed_nested :
    let s : Text := "(?:^|(?<=[\\n\\r\\u2028\\u2029]))(?:^.|[.^]$\\k<a".toList
    emulate true true s ≠ s ∧ emulate true true (emulate true true s) = emulate true true s ∧
      (∀ t ∈ lex (emulate true true s), t.operator? ≠ some .dot) ∧
      Anchored (lex (emulate true true s)) := by
  intro s
  have hchanged : emulate true true s ≠ s := by decide +kernel
  obtain ⟨-, hfixed, -, -, hdot, hanchored⟩ := emulate_fixed true true s
  exact ⟨hchanged, hfixed, hdot rfl, hanchored rfl⟩

end Source

end Splice
