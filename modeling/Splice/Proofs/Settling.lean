import Splice.Proofs.Eligibility
import Splice.Proofs.Spelling

/-!
# Promotion settles

Promotion puts in no token that it would replace, so what it has promoted it
copies. The scan for wide problems goes over a source and over the promoted one
alike, as long as no dot is replaced: the class for a dot names code points in
braces, which the scan takes for a problem.
-/

namespace Splice

open Lexer

variable {context : Context} {t : Token} {ts : List Token} {k : TokenKind}
variable {p p' q : WideProgress}

-- ---------------------------------------------------------------------------
-- Promoted tokens
-- ---------------------------------------------------------------------------

/-- What promotion replaces: dots, classes that exclude nothing, braces that are
no quantifier, and brackets that close no class. -/
def promotedKinds : List TokenKind :=
  [.dot, .classOpen .emptyNegated, .braceOpen .literal, .braceClose, .classClose]

def Token.IsSettled (t : Token) : Prop := ∀ k ∈ promotedKinds, t.operator? ≠ some k

theorem Token.IsSettled.promotedTokens (h : t.IsSettled) : t.promotedTokens = [t] := by
  unfold Token.promotedTokens
  split
  case h_6 => rfl
  all_goals
    rename_i hk
    exact absurd hk (h _ (by decide))

theorem Token.promotedTokens_settled (t : Token) : ∀ u ∈ t.promotedTokens, u.IsSettled := by
  unfold Token.promotedTokens
  split
  case h_6 brace close bracket dot empty =>
    intro u hu k hk hop
    obtain rfl := List.mem_singleton.mp hu
    simp only [promotedKinds, List.mem_cons, List.not_mem_nil, or_false] at hk
    rcases hk with rfl | rfl | rfl | rfl | rfl
    · exact dot hop
    · exact empty hop
    · exact brace hop
    · exact close hop
    · exact bracket hop
  all_goals
    unfold Token.IsSettled
    decide

theorem flatMap_promotedTokens (h : ∀ t ∈ ts, t.IsSettled) :
    ts.flatMap Token.promotedTokens = ts := by
  induction ts with
  | nil => rfl
  | cons t ts ih =>
    rw [List.forall_mem_cons] at h
    simp [h.1.promotedTokens, ih h.2]

namespace Source

theorem promote_settled (s : Text) : ∀ t ∈ lex (promote s), t.IsSettled := by
  intro t ht
  rw [lex_promote] at ht
  obtain ⟨u, -, hu⟩ := List.mem_flatMap.mp ht
  exact u.promotedTokens_settled t hu

theorem promote_of_settled {s : Text} (h : ∀ t ∈ lex s, t.IsSettled) : promote s = s := by
  rw [promote, ← untokenize_promoted, flatMap_promotedTokens h]
  exact untokenize_lex s

end Source

-- ---------------------------------------------------------------------------
-- The scan of a promoted source
-- ---------------------------------------------------------------------------

/-- States of the scan that remember the same groups, and inside a class the same
members. Behind a class it does not matter how far each has read it. -/
structure WideProgress.Alongside (context : Context) (p q : WideProgress) : Prop where
  groups : q.groups = p.groups
  afterLookahead : q.afterLookahead = p.afterLookahead
  charClass : context = .charClass → q.charClass = p.charClass

theorem WideProgress.Alongside.eq (h : Alongside .charClass p q) : q = p := by
  obtain ⟨groups, after, charClass⟩ := p
  obtain ⟨groups', after', charClass'⟩ := q
  obtain ⟨rfl, rfl, hclass⟩ := h
  obtain rfl := hclass rfl
  rfl

theorem WideProgress.Alongside.refl (context : Context) (p : WideProgress) :
    Alongside context p p :=
  ⟨rfl, rfl, fun _ => rfl⟩

theorem contextAfter_pattern (h : contextAfter .pattern k = .charClass) :
    k = .classOpen .plain := by
  cases k with
  | classOpen o =>
    cases o with
    | plain => rfl
    | emptyNegated => cases h
  | _ => cases h

theorem WideProgress.Alongside.step (h : Alongside t.context p q) (hstep : p.step t = some p') :
    ∃ q', q.step t = some q' ∧ Alongside (contextAfter t.context t.kind) p' q' := by
  cases hc : t.context with
  | charClass =>
    rw [hc] at h
    obtain rfl := h.eq
    exact ⟨p', hstep, .refl _ p'⟩
  | pattern =>
    rw [step_pattern hc] at hstep ⊢
    rw [h.groups, h.afterLookahead]
    split at hstep
    · cases hstep
    · rename_i hfail
      obtain rfl := Option.some.inj hstep
      refine ⟨_, if_neg hfail, rfl, rfl, ?_⟩
      intro hopen
      simp [contextAfter_pattern hopen]

theorem WideProgress.Alongside.replaced (h : Alongside t.context p q) (ht : ¬ t.IsSettled)
    (hdot : t.operator? ≠ some .dot) (hstep : p.step t = some p') :
    ∃ q', t.promotedTokens.foldlM WideProgress.step q = some q' ∧
      Alongside (contextAfter t.context t.kind) p' q' := by
  obtain ⟨k, hk, hop⟩ : ∃ k ∈ promotedKinds, t.operator? = some k := by
    simpa [Token.IsSettled] using ht
  obtain ⟨kind, text, context⟩ := t
  obtain ⟨rfl, rfl⟩ : context = .pattern ∧ kind = k := Token.of_operator? hop
  simp only [promotedKinds, List.mem_cons, List.not_mem_nil, or_false] at hk
  rcases hk with rfl | rfl | rfl | rfl | rfl
  · exact absurd hop hdot
  all_goals
    obtain rfl := Option.some.inj hstep
    exact ⟨_, rfl, h.groups, rfl, nofun⟩

theorem WideProgress.Alongside.promoted (h : Alongside t.context p q)
    (hdot : t.operator? ≠ some .dot) (hstep : p.step t = some p') :
    ∃ q', t.promotedTokens.foldlM WideProgress.step q = some q' ∧
      Alongside (contextAfter t.context t.kind) p' q' := by
  by_cases ht : t.IsSettled
  · obtain ⟨q', hq, halong⟩ := h.step hstep
    refine ⟨q', ?_, halong⟩
    rw [ht.promotedTokens, List.foldlM_cons, hq]
    rfl
  · exact h.replaced ht hdot hstep

theorem Lexed.promoted_scanned (h : Lexed context ts) (halong : WideProgress.Alongside context p q)
    (hdot : ∀ t ∈ ts, t.operator? ≠ some .dot)
    (hrun : (ts.foldlM WideProgress.step p).isSome) :
    ((ts.flatMap Token.promotedTokens).foldlM WideProgress.step q).isSome := by
  induction h generalizing p q with
  | nil => rfl
  | @cons context c r k ts read _ ih =>
    rw [List.forall_mem_cons] at hdot
    obtain ⟨p₂, hp₂⟩ := Option.isSome_iff_exists.mp hrun
    obtain ⟨p₁, hstep, hp₂⟩ := WideProgress.run_cons.mp hp₂
    obtain ⟨q₁, hq₁, halong₁⟩ :=
      WideProgress.Alongside.promoted (t := ⟨k, c :: r, context⟩) halong hdot.1 hstep
    obtain ⟨q₂, hq₂⟩ := Option.isSome_iff_exists.mp
      (ih halong₁ hdot.2 (Option.isSome_of_eq_some hp₂))
    rw [List.flatMap_cons]
    exact Option.isSome_of_eq_some (WideProgress.run_append.mpr ⟨q₁, hq₁, hq₂⟩)

/-- The class that promotion writes for a dot is a problem to the scan. -/
theorem wideProblem_of_dot (ht : t ∈ ts) (hdot : t.operator? = some .dot) :
    WideProblem (ts.flatMap Token.promotedTokens) := by
  have htokens : t.promotedTokens = wideDotTokens := by
    unfold Token.promotedTokens
    rw [hdot]
  have hmem : ⟨.escape .unicodeBraced, "\\u\x7b10000\x7d".toList, .charClass⟩ ∈
      t.promotedTokens := by
    rw [htokens]
    decide
  exact .classEscape (List.mem_flatMap.mpr ⟨t, ht, hmem⟩) rfl rfl .unicodeBraced

namespace Source

/-- The tokens of a promoted source are those that promotion copies or puts in. There is
nothing left to promote, so a second promotion changes nothing. Dots aside, a source
stays free of wide problems. -/
theorem promote_fixed (s : Text) :
    lex (promote s) = (lex s).flatMap Token.promotedTokens ∧
    (∀ t ∈ lex (promote s), ∀ k ∈ promotedKinds, t.operator? ≠ some k) ∧
    promote (promote s) = promote s ∧
    (hasWideProblem s = false →
      (hasWideProblem (promote s) = true ↔ ∃ t ∈ lex s, t.operator? = some .dot)) := by
  refine ⟨lex_promote s, promote_settled s, promote_of_settled (promote_settled s), ?_⟩
  intro hproblem
  have hrun : ((lex s).foldlM WideProgress.step .start).isSome := by
    simpa [hasWideProblem] using hproblem
  rw [hasWideProblem, lex_promote, Option.isNone_iff_eq_none]
  constructor
  · intro hnone
    by_contra hdot
    have hdot : ∀ t ∈ lex s, t.operator? ≠ some .dot := by
      intro t ht hop
      exact hdot ⟨t, ht, hop⟩
    have hsome := (lexed_lex s).promoted_scanned (.refl _ _) hdot hrun
    rw [hnone] at hsome
    cases hsome
  · rintro ⟨t, ht, hdot⟩
    exact (wideProblem_of_dot ht hdot).run

theorem promote_fixed_braces :
    let s : Text := "[^]\\k<a>(?=[.-]\x7b)\x7d]|(?:x)\x7b2\x7d".toList
    hasWideProblem s = false ∧ promote (promote s) = promote s ∧
      hasWideProblem (promote s) = false := by
  intro s
  have hproblem : hasWideProblem s = false := by decide +kernel
  obtain ⟨-, -, hfixed, hscan⟩ := promote_fixed s
  refine ⟨hproblem, hfixed, ?_⟩
  rw [← Bool.not_eq_true, hscan hproblem]
  decide +kernel

end Source

end Splice
