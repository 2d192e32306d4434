import Splice.Proofs.Emulating
import Splice.Proofs.Plans
import Splice.Proofs.Settling

/-!
# Escaped text stands for itself

Escaped text is read character by character, each as itself or as an escape of
itself (`Token.Spells`). Such tokens are none that an analysis looks for and none
that a rewriting replaces, so that a literal may stand in a composite whatever is
done to the composite later.
-/

namespace Splice

open Source Lexer

variable {c : Char} {k : Token} {p : WideProgress} {dotAll fold : Bool}

-- ---------------------------------------------------------------------------
-- Tokens of escaped text
-- ---------------------------------------------------------------------------

/-- A token for a character of a literal: the character, or an escape of it where
it has a meaning of its own. -/
structure Token.Spells (c : Char) (k : Token) : Prop where
  outside : k.context = .pattern
  form : (c ∉ metaCharacters ∧ (k.kind = .char ∨ k.kind = .dash) ∧ k.text = [c]) ∨
    (c ∈ metaCharacters ∧ k.kind = .escape (.char c) ∧ k.text = ['\\', c])

def Token.unescaped (k : Token) : Text :=
  match k.kind with
  | .escape _ => k.text.drop 1
  | _ => k.text

theorem scan_of_not_meta (hc : c ∉ metaCharacters) :
    ∃ kind, (kind = .char ∨ kind = .dash) ∧ ∀ t, scan .pattern c t = (kind, 0) := by
  by_cases hdash : c = '-'
  · exact ⟨.dash, .inr rfl, fun t => by rw [hdash]; rfl⟩
  · refine ⟨.char, .inl rfl, fun t => ?_⟩
    unfold scan
    split
    case h_10 => exact absurd rfl hdash
    case h_16 => rfl
    all_goals exact absurd (by decide) hc

theorem lexFrom_ofChar (c : Char) : ∃ k, k.Spells c ∧
    ∀ t, lexFrom .pattern (ofChar c ++ t) = k :: lexFrom .pattern t := by
  by_cases hc : c ∈ metaCharacters
  · refine ⟨⟨.escape (.char c), ['\\', c], .pattern⟩, ⟨rfl, .inr ⟨hc, rfl, rfl⟩⟩, fun t => ?_⟩
    rw [show ofChar c = ['\\', c] by simp [ofChar, hc], List.cons_append, lexFrom_cons,
      List.singleton_append, scan_meta hc]
    rfl
  · obtain ⟨kind, hkind, hscan⟩ := scan_of_not_meta hc
    refine ⟨⟨kind, [c], .pattern⟩, ⟨rfl, .inl ⟨hc, hkind, rfl⟩⟩, fun t => ?_⟩
    rw [show ofChar c = [c] by simp [ofChar, hc], List.singleton_append, lexFrom_cons, hscan]
    rcases hkind with rfl | rfl <;> rfl

theorem spells_ofLiteral (t : Text) : List.Forall₂ Token.Spells t (lex (ofLiteral t)) := by
  rw [lex]
  induction t with
  | nil =>
    rw [ofLiteral, List.flatMap_nil, lexFrom_nil]
    exact .nil
  | cons c t ih =>
    obtain ⟨k, hk, hlex⟩ := lexFrom_ofChar c
    rw [show ofLiteral (c :: t) = ofChar c ++ ofLiteral t from rfl, hlex]
    exact .cons hk ih

-- ---------------------------------------------------------------------------
-- What such a token is to the analyses
-- ---------------------------------------------------------------------------

namespace Token.Spells

theorem unescaped_eq (h : k.Spells c) : k.unescaped = [c] := by
  unfold Token.unescaped
  rcases h.form with ⟨-, hkind | hkind, htext⟩ | ⟨-, hkind, htext⟩ <;> simp [hkind, htext]

theorem operator?_eq (h : k.Spells c) :
    k.operator? ∈ [some .char, some .dash, some (.escape (.char c))] := by
  rw [Token.operator?_eq h.outside]
  rcases h.form with ⟨-, hkind | hkind, -⟩ | ⟨-, hkind, -⟩ <;> simp [hkind]

theorem isSettled (h : k.Spells c) : k.IsSettled := by
  have hop := h.operator?_eq
  intro kind hkind hk
  rw [hk] at hop
  simp only [promotedKinds, List.mem_cons, List.not_mem_nil, or_false] at hkind
  rcases hkind with rfl | rfl | rfl | rfl | rfl <;> simp at hop

theorem kept (h : k.Spells c) : k.Kept dotAll fold := by
  have hop := h.operator?_eq
  constructor
  · intro _ hk
    simp [hk] at hop
  · rintro - (hk | hk) <;> simp [hk] at hop

theorem step_eq (h : k.Spells c) (hp : p.afterLookahead = false) : p.step k = some p := by
  have hshared : ∀ x ∈ metaCharacters, x ∈ patternEscapes := forall_mem_of_all (by decide)
  obtain ⟨groups, after, charClass⟩ := p
  obtain rfl : after = false := hp
  obtain ⟨kind, text, context⟩ := k
  obtain rfl : context = .pattern := h.outside
  rcases h.form with ⟨-, hkind | hkind, -⟩ | ⟨hc, hkind, -⟩ <;> obtain rfl := hkind
  · rfl
  · rfl
  · change (if Token.patternEscapeChanges _ (.char c) then none else some _) = _
    refine if_neg ?_
    rw [Token.patternEscapeChanges_char]
    exact fun hforeign => hforeign (hshared c hc)

end Token.Spells

theorem exists_spells {t : Text} {ks : List Token} (h : List.Forall₂ Token.Spells t ks)
    (hk : k ∈ ks) : ∃ c, k.Spells c := by
  induction h with
  | nil => simp at hk
  | cons hspells _ ih =>
    rcases List.mem_cons.mp hk with rfl | hk
    · exact ⟨_, hspells⟩
    · exact ih hk

theorem unescape_of_spells {t : Text} {ks : List Token} (h : List.Forall₂ Token.Spells t ks) :
    (ks.map Token.unescaped).flatten = t := by
  induction h with
  | nil => rfl
  | cons hspells _ ih => rw [List.map_cons, List.flatten_cons, ih, hspells.unescaped_eq]; rfl

theorem wideProgress_of_spells {t : Text} {ks : List Token} (h : List.Forall₂ Token.Spells t ks)
    (hp : p.afterLookahead = false) : ks.foldlM WideProgress.step p = some p := by
  induction h with
  | nil => rfl
  | cons hspells _ ih =>
    exact WideProgress.run_cons.mpr ⟨p, hspells.step_eq hp, ih⟩

theorem emulated_of_spells {t : Text} {ks : List Token} (h : List.Forall₂ Token.Spells t ks) :
    Emulated dotAll fold ks := by
  induction h with
  | nil => exact .nil
  | cons hspells _ ih => exact .token hspells.kept ih

-- ---------------------------------------------------------------------------
-- Escaped text as a source
-- ---------------------------------------------------------------------------

namespace Source

theorem ofLiteral_injective : Function.Injective ofLiteral := by
  intro s t h
  rw [← unescape_of_spells (spells_ofLiteral s), h, unescape_of_spells (spells_ofLiteral t)]

theorem hasWideProblem_ofLiteral (t : Text) : hasWideProblem (ofLiteral t) = false := by
  rw [hasWideProblem, wideProgress_of_spells (spells_ofLiteral t) rfl]
  rfl

theorem promote_ofLiteral (t : Text) : promote (ofLiteral t) = ofLiteral t := by
  apply promote_of_settled
  intro k hk
  obtain ⟨c, hc⟩ := exists_spells (spells_ofLiteral t) hk
  exact hc.isSettled

theorem emulate_ofLiteral (dotAll fold : Bool) (t : Text) :
    emulate dotAll fold (ofLiteral t) = ofLiteral t := by
  have hemulated : Emulated dotAll fold (lex (ofLiteral t)) :=
    emulated_of_spells (spells_ofLiteral t)
  rw [emulate_eq hemulated.emulation, untokenize_lex]

theorem renumber_ofLiteral (t : Text) (offset : Word) :
    renumber (ofLiteral t) offset = .ok (ofLiteral t) :=
  renumber_of_absent (by rw [Fragment.references_ofLiteral]; rfl) offset

/-- Escaped text has one token for each character, from which the text can be read off.
It holds no group, reference, bar or problem of wide mode, and every rewriting of
sources leaves it as it stands. -/
theorem ofLiteral_inert (t : Text) :
    List.Forall₂ Token.Spells t (lex (ofLiteral t)) ∧
    ((lex (ofLiteral t)).map Token.unescaped).flatten = t ∧
    Function.Injective ofLiteral ∧
    captureCount (ofLiteral t) = 0 ∧
    references (ofLiteral t) = .none ∧
    alternates (ofLiteral t) = false ∧
    hasWideProblem (ofLiteral t) = false ∧
    promote (ofLiteral t) = ofLiteral t ∧
    (∀ dotAll fold, emulate dotAll fold (ofLiteral t) = ofLiteral t) ∧
    ∀ offset, renumber (ofLiteral t) offset = .ok (ofLiteral t) := by
  have hspells := spells_ofLiteral t
  refine ⟨hspells, unescape_of_spells hspells, ofLiteral_injective, captureCount_ofLiteral t,
    Fragment.references_ofLiteral t, alternates_ofLiteral t, hasWideProblem_ofLiteral t,
    promote_ofLiteral t, ?_, renumber_ofLiteral t⟩
  intro dotAll fold
  exact emulate_ofLiteral dotAll fold t

end Source

end Splice
