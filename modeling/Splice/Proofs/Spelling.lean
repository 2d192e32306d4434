import Splice.Proofs.Patching
import Splice.Source.Emulation
import Splice.Source.WideMode

/-!
# Fixed spellings

Promotion and emulation put fixed texts in the place of single tokens. Each of
these texts is read as the same tokens wherever it stands, so a rewritten source
has the tokens that are copied and those that are put in (`lex_promote`,
`emulation_lex`). Promotion adds nothing to an outline; emulation adds groups
that are closed, that capture nothing, and that keep their bars to themselves.
-/

namespace Splice

open Lexer

/-- A text that is read as some tokens wherever it stands outside classes. -/
structure Spelling (text : Text) (tokens : List Token) : Prop where
  text_eq : untokenize tokens = text
  lexed : ∀ us, Lexed .pattern us → Lexed .pattern (tokens ++ us)
  breaks : ∃ a t, text = a :: t ∧ (a = '\\' ∨ a = '[' ∨ a = '(')

structure Neutral (tokens : List Token) : Prop where
  outline : ∀ fine us, outlineFrom fine .pattern (tokens ++ us) = outlineFrom fine .pattern us
  closes : ∀ d us, Source.closesAtEnd d (tokens ++ us) = Source.closesAtEnd d us

def Token.isGroup (t : Token) : Bool :=
  match t.kind with
  | .groupOpen _ => true
  | _ => false

variable {context : Context} {c : Char} {k : TokenKind} {r s w : Text} {t : Token}
  {ts us new : List Token}

/-- Tokens that may be put in the place of a token. -/
structure StandsFor (new : List Token) (t : Token) : Prop where
  context : t.context = .pattern
  after : contextAfter .pattern t.kind = .pattern
  lexed : ∀ us, Lexed .pattern us → Lexed .pattern (new ++ us)
  patch : Patch t.text (untokenize new)

theorem Spelling.standsFor (h : Spelling w new) (patch : Patch t.text w)
    (context : t.context = .pattern) (after : contextAfter .pattern t.kind = .pattern) :
    StandsFor new t :=
  ⟨context, after, h.lexed, h.text_eq ▸ patch⟩

theorem StandsFor.patches (h : StandsFor new ⟨k, c :: r, context⟩)
    (rest : Patches (contextAfter context k) ts us) :
    Patches context (⟨k, c :: r, context⟩ :: ts) (new ++ us) := by
  obtain ⟨hcontext, hafter, hlexed, hpatch⟩ := h
  obtain rfl : context = .pattern := hcontext
  replace hafter : contextAfter .pattern k = .pattern := hafter
  rw [hafter] at rest
  have hpatch : Patch (untokenize [⟨k, c :: r, .pattern⟩]) (untokenize new) := by
    rwa [untokenize_cons, untokenize, List.map_nil, List.flatten_nil, List.append_nil]
  exact .patch hpatch (hlexed us rest.lexed) rest.patched

-- ---------------------------------------------------------------------------
-- Promotion
-- ---------------------------------------------------------------------------

def wideDotTokens : List Token :=
  [⟨.classOpen .plain, ['['], .pattern⟩, ⟨.caret, ['^'], .charClass⟩,
    ⟨.escape (.char 'n'), "\\n".toList, .charClass⟩,
    ⟨.escape (.char 'r'), "\\r".toList, .charClass⟩,
    ⟨.escape .unicode, "\\u2028".toList, .charClass⟩,
    ⟨.escape .unicode, "\\u2029".toList, .charClass⟩,
    ⟨.escape .unicodeBraced, "\\u\x7b10000\x7d".toList, .charClass⟩, ⟨.dash, ['-'], .charClass⟩,
    ⟨.escape .unicodeBraced, "\\u\x7b10FFFF\x7d".toList, .charClass⟩,
    ⟨.classClose, [']'], .charClass⟩]

def wideAnyUnitTokens : List Token :=
  [⟨.classOpen .plain, ['['], .pattern⟩, ⟨.escape .unicode, "\\u0000".toList, .charClass⟩,
    ⟨.dash, ['-'], .charClass⟩, ⟨.escape .unicode, "\\uFFFF".toList, .charClass⟩,
    ⟨.classClose, [']'], .charClass⟩]

theorem spelling_wideDot : Spelling wideDot wideDotTokens where
  text_eq := rfl
  lexed _ h := .cons rfl <| .cons rfl <| .cons rfl <| .cons rfl <| .cons rfl <| .cons rfl <|
    .cons rfl <| .cons rfl <| .cons rfl <| .cons rfl h
  breaks := ⟨'[', _, rfl, .inr (.inl rfl)⟩

theorem spelling_wideAnyUnit : Spelling wideAnyUnit wideAnyUnitTokens where
  text_eq := rfl
  lexed _ h := .cons rfl <| .cons rfl <| .cons rfl <| .cons rfl <| .cons rfl h
  breaks := ⟨'[', _, rfl, .inr (.inl rfl)⟩

def escapedToken (c : Char) : Token := ⟨.escape (.char c), ['\\', c], .pattern⟩

theorem spelling_escaped (hc : c ∈ ['\x7b', '\x7d', ']']) :
    Spelling ['\\', c] [escapedToken c] where
  text_eq := rfl
  lexed _ h := by
    simp only [List.mem_cons, List.not_mem_nil, or_false] at hc
    rcases hc with rfl | rfl | rfl <;> exact .cons rfl h
  breaks := ⟨_, _, rfl, by simp⟩

theorem patch_escaped (hc : c ∈ ['\x7b', '\x7d', ']']) : Patch [c] ['\\', c] := by
  refine ⟨⟨c, [], rfl, ?_⟩, ⟨'\\', [c], rfl, .inl rfl⟩, fun hnew => hnew, ?_⟩ <;>
    simp only [List.mem_cons, List.not_mem_nil, or_false] at hc <;>
    rcases hc with rfl | rfl | rfl <;> decide

theorem patch_wideDot : Patch ['.'] wideDot where
  head := ⟨'.', [], rfl, by decide⟩
  breaks := spelling_wideDot.breaks
  uncovers h := by cases h
  ends := by decide

theorem patch_wideAnyUnit : Patch "[^]".toList wideAnyUnit where
  head := ⟨'[', _, rfl, by decide⟩
  breaks := spelling_wideAnyUnit.breaks
  uncovers h := by cases h
  ends := by decide

def Token.promotedTokens (t : Token) : List Token :=
  match t.operator? with
  | some (.braceOpen .literal) => [escapedToken '\x7b']
  | some .braceClose => [escapedToken '\x7d']
  | some .classClose => [escapedToken ']']
  | some .dot => wideDotTokens
  | some (.classOpen .emptyNegated) => wideAnyUnitTokens
  | _ => [t]

theorem Token.untokenize_promotedTokens (t : Token) : untokenize t.promotedTokens = t.promoted := by
  obtain ⟨k, text, context⟩ := t
  cases context with
  | charClass => exact List.append_nil text
  | pattern =>
    cases k with
    | braceOpen b => cases b <;> first | rfl | exact List.append_nil text
    | classOpen o => cases o <;> first | rfl | exact List.append_nil text
    | braceClose | classClose | dot => rfl
    | _ => exact List.append_nil text

theorem untokenize_promoted (ts : List Token) :
    untokenize (ts.flatMap Token.promotedTokens) = (ts.map Token.promoted).flatten := by
  induction ts with
  | nil => rfl
  | cons t ts ih =>
    rw [List.flatMap_cons, untokenize_append, t.untokenize_promotedTokens, ih, List.map_cons,
      List.flatten_cons]

inductive Token.Promotes : Token → List Token → Prop
  | braceOpen (text : Text) :
      Promotes ⟨.braceOpen .literal, text, .pattern⟩ [escapedToken '\x7b']
  | braceClose (text : Text) : Promotes ⟨.braceClose, text, .pattern⟩ [escapedToken '\x7d']
  | classClose (text : Text) : Promotes ⟨.classClose, text, .pattern⟩ [escapedToken ']']
  | dot (text : Text) : Promotes ⟨.dot, text, .pattern⟩ wideDotTokens
  | emptyNegated (text : Text) :
      Promotes ⟨.classOpen .emptyNegated, text, .pattern⟩ wideAnyUnitTokens

theorem Token.kept_or_promotes (t : Token) :
    t.promotedTokens = [t] ∨ t.Promotes t.promotedTokens := by
  obtain ⟨k, text, context⟩ := t
  cases context with
  | charClass => exact .inl rfl
  | pattern =>
    cases k with
    | braceOpen b =>
      cases b with
      | quantifier => exact .inl rfl
      | literal => exact .inr (.braceOpen text)
    | braceClose => exact .inr (.braceClose text)
    | classClose => exact .inr (.classClose text)
    | dot => exact .inr (.dot text)
    | classOpen o =>
      cases o with
      | plain => exact .inl rfl
      | emptyNegated => exact .inr (.emptyNegated text)
    | _ => exact .inl rfl

theorem Token.Promotes.standsFor (h : Promotes ⟨k, c :: r, context⟩ new)
    (read : scan context c (r ++ s) = (k, r.length)) : StandsFor new ⟨k, c :: r, context⟩ := by
  cases h with
  | braceOpen | braceClose | classClose =>
    obtain ⟨rfl, rfl⟩ := of_scan_isAlone read rfl rfl
    exact (spelling_escaped (by simp)).standsFor (patch_escaped (by simp)) rfl rfl
  | dot =>
    obtain ⟨rfl, rfl⟩ := of_scan_isAlone read rfl rfl
    exact spelling_wideDot.standsFor patch_wideDot rfl rfl
  | emptyNegated =>
    obtain ⟨-, rfl, rfl⟩ := of_scan_emptyNegated read
    exact spelling_wideAnyUnit.standsFor patch_wideAnyUnit rfl rfl

theorem Token.Promotes.neutral (h : t.Promotes new) :
    Neutral [t] ∧ Neutral new ∧ t.isGroup = false ∧
      ∃ u us, new = u :: us ∧ u.isGroup = false := by
  cases h <;>
    exact ⟨⟨fun _ _ => rfl, fun _ _ => rfl⟩, ⟨fun _ _ => rfl, fun _ _ => rfl⟩, rfl, _, _, rfl, rfl⟩

theorem Lexed.promoted (h : Lexed context ts) :
    Patches context ts (ts.flatMap Token.promotedTokens) := by
  induction h with
  | nil => exact .nil
  | @cons context c r k ts read _ ih =>
    rw [List.flatMap_cons]
    obtain hkeep | hnew := Token.kept_or_promotes ⟨k, c :: r, context⟩
    · rw [hkeep]
      exact .copy read ih
    · exact (hnew.standsFor read).patches ih

/-- Respelled tokens that keep the shape of the old ones. -/
structure Faithful (context : Context) (ts us : List Token) : Prop
    extends Respells context ts us where
  outline : ∀ fine, outlineFrom fine context us = outlineFrom fine context ts
  closes : ∀ d, Source.closesAtEnd d us = Source.closesAtEnd d ts
  empty : us = [] ↔ ts = []
  group : us.head?.any Token.isGroup = ts.head?.any Token.isGroup

theorem closesAtEnd_congr (t : Token) (h : ∀ d, Source.closesAtEnd d us = Source.closesAtEnd d ts)
    (he : us = [] ↔ ts = []) (d : Nat) :
    Source.closesAtEnd d (t :: us) = Source.closesAtEnd d (t :: ts) := by
  have hempty : us.isEmpty = ts.isEmpty := by
    rw [Bool.eq_iff_iff, List.isEmpty_iff, List.isEmpty_iff, he]
  unfold Source.closesAtEnd
  split <;> simp only [h, hempty]

theorem Lexed.promote (h : Lexed context ts) :
    Faithful context ts (ts.flatMap Token.promotedTokens) := by
  induction h with
  | nil => exact ⟨.nil, fun _ => rfl, fun _ => rfl, Iff.rfl, rfl⟩
  | @cons context c r k ts read rest ih =>
    have hpatches := (Lexed.cons read rest).promoted
    rw [List.flatMap_cons] at hpatches ⊢
    obtain hkeep | hreplaced := Token.kept_or_promotes ⟨k, c :: r, context⟩
    · rw [hkeep] at hpatches ⊢
      refine ⟨hpatches.toRespells, fun fine => ?_, closesAtEnd_congr _ ih.closes ih.empty, by simp,
        rfl⟩
      rw [List.singleton_append, outlineFrom_cons, outlineFrom_cons,
        rest.promoted.parallel.sequel, ih.outline]
    · obtain ⟨hcontext, hafter, -, -⟩ := hreplaced.standsFor read
      obtain rfl : context = .pattern := hcontext
      replace hafter : contextAfter .pattern k = .pattern := hafter
      rw [hafter] at ih
      obtain ⟨hold, hnew, hgroup, u, us, hcons, hu⟩ := hreplaced.neutral
      refine ⟨hpatches.toRespells, fun fine => ?_, fun d => ?_, by simp [hcons], ?_⟩
      · rw [hnew.outline, ih.outline, ← hold.outline, List.singleton_append]
      · rw [hnew.closes, ih.closes, ← hold.closes, List.singleton_append]
      · rw [hcons, List.cons_append, List.head?_cons, Option.any_some, hu, List.head?_cons,
          Option.any_some, hgroup]

namespace Source

theorem untokenize_lex (s : Text) : untokenize (lex s) = s := untokenize_lexFrom .pattern s

theorem lexed_lex (s : Text) : Lexed .pattern (lex s) := lexed_lexFrom .pattern s

theorem lex_promote (s : Text) : lex (promote s) = (lex s).flatMap Token.promotedTokens := by
  rw [promote, ← untokenize_promoted]
  exact (lexed_lex s).promoted.lexed.eq

theorem outline_promote (s : Text) (fine : Bool) :
    outline fine (promote s) = outline fine s := by
  have houtline := (lexed_lex s).promote.outline fine
  rwa [← lex_promote] at houtline

theorem isSingleGroup_eq (s : Text) : isSingleGroup s =
    ((lex s).head?.any Token.isGroup && closesAtEnd 0 (lex s)) := by
  unfold isSingleGroup
  cases lex s with
  | nil => rfl
  | cons t ts =>
    simp only [List.head?_cons, Option.any_some, Token.isGroup]
    split <;> simp_all

theorem isSingleGroup_promote (s : Text) : isSingleGroup (promote s) = isSingleGroup s := by
  have hpromote := (lexed_lex s).promote
  rw [isSingleGroup_eq, isSingleGroup_eq, lex_promote, hpromote.group, hpromote.closes]

end Source

-- ---------------------------------------------------------------------------
-- Padded outlines
-- ---------------------------------------------------------------------------

def anchorMarks : List Mark := [.opens false, .bar, .opens false, .closes, .closes]

/-- An outline, and the same with folded anchors put in. -/
inductive Padded : List Mark → List Mark → Prop
  | nil : Padded [] []
  | keep (m : Mark) {old new : List Mark} (rest : Padded old new) : Padded (m :: old) (m :: new)
  | pad {old new : List Mark} (rest : Padded old new) : Padded old (anchorMarks ++ new)

namespace Padded

variable {old new : List Mark}

theorem refl (marks : List Mark) : Padded marks marks := by
  induction marks with
  | nil => exact .nil
  | cons m marks ih => exact .keep m ih

theorem append (h : Padded old new) (marks : List Mark) : Padded (marks ++ old) (marks ++ new) := by
  induction marks with
  | nil => exact h
  | cons m marks ih => exact .keep m ih

theorem depth? (h : Padded old new) (d : Nat) : Mark.depth? d new = Mark.depth? d old := by
  induction h generalizing d with
  | nil => rfl
  | keep m _ ih => simp only [Mark.depth?_cons, ih]
  | pad _ ih =>
    rw [Mark.depth?_append, ← ih]
    simp [anchorMarks]

theorem bars (h : Padded old new) (d : Nat) : Mark.bars d new = Mark.bars d old := by
  induction h generalizing d with
  | nil => rfl
  | keep m _ ih => simp only [Mark.bars, ih]
  | pad _ ih =>
    have hd : Mark.depth? d anchorMarks = some d := by simp [anchorMarks]
    rw [Mark.bars_append hd, ← ih]
    simp [anchorMarks, Mark.bars]

theorem events (h : Padded old new) :
    new.filterMap Mark.event? = old.filterMap Mark.event? := by
  induction h with
  | nil => rfl
  | keep m _ ih => simp only [List.filterMap_cons, ih]
  | pad _ ih =>
    rw [List.filterMap_append, ih]
    rfl

theorem final (h : Padded old new) : new.any Mark.isFinal = old.any Mark.isFinal := by
  induction h with
  | nil => rfl
  | keep m _ ih => simp only [List.any_cons, ih]
  | pad _ ih => simpa [anchorMarks, Mark.isFinal] using ih

theorem clear (h : Padded old new) (hc : ∀ m ∈ old, m.isClear) : ∀ m ∈ new, m.isClear := by
  induction h with
  | nil => exact hc
  | keep m _ ih =>
    rw [List.forall_mem_cons] at hc ⊢
    exact ⟨hc.1, ih hc.2⟩
  | pad _ ih => simpa [anchorMarks, Mark.isClear] using ih hc

end Padded

-- ---------------------------------------------------------------------------
-- Emulation
-- ---------------------------------------------------------------------------

/-- The tokens of a folded anchor: the anchor, or a lookaround at a line
terminator. -/
def foldedTokens (anchor : TokenKind) (sign : Text) (around : GroupOpener) (opening : Text) :
    List Token :=
  [⟨.groupOpen .nonCapture, "(?:".toList, .pattern⟩, ⟨anchor, sign, .pattern⟩,
    ⟨.pipe, ['|'], .pattern⟩, ⟨.groupOpen around, opening, .pattern⟩,
    ⟨.classOpen .plain, ['['], .pattern⟩, ⟨.escape (.char 'n'), "\\n".toList, .charClass⟩,
    ⟨.escape (.char 'r'), "\\r".toList, .charClass⟩,
    ⟨.escape .unicode, "\\u2028".toList, .charClass⟩,
    ⟨.escape .unicode, "\\u2029".toList, .charClass⟩, ⟨.classClose, [']'], .charClass⟩,
    ⟨.groupClose, [')'], .pattern⟩, ⟨.groupClose, [')'], .pattern⟩]

def foldedStartTokens : List Token := foldedTokens .caret ['^'] .lookbehind "(?<=".toList

def foldedEndTokens : List Token := foldedTokens .dollar ['$'] .lookahead "(?=".toList

/-- Tokens that add only some marks, whatever follows. -/
def Marked (marks : List Mark) (tokens : List Token) : Prop :=
  ∀ fine us, outlineFrom fine .pattern (tokens ++ us) = marks ++ outlineFrom fine .pattern us

theorem spelling_foldedStart : Spelling foldedStart foldedStartTokens where
  text_eq := rfl
  lexed _ h := .cons rfl <| .cons rfl <| .cons rfl <| .cons rfl <| .cons rfl <| .cons rfl <|
    .cons rfl <| .cons rfl <| .cons rfl <| .cons rfl <| .cons rfl <| .cons rfl h
  breaks := ⟨'(', _, rfl, .inr (.inr rfl)⟩

theorem spelling_foldedEnd : Spelling foldedEnd foldedEndTokens where
  text_eq := rfl
  lexed _ h := .cons rfl <| .cons rfl <| .cons rfl <| .cons rfl <| .cons rfl <| .cons rfl <|
    .cons rfl <| .cons rfl <| .cons rfl <| .cons rfl <| .cons rfl <| .cons rfl h
  breaks := ⟨'(', _, rfl, .inr (.inr rfl)⟩

theorem marked_foldedStart : Marked anchorMarks foldedStartTokens := fun _ _ => rfl

theorem marked_foldedEnd : Marked anchorMarks foldedEndTokens := fun _ _ => rfl

def foldedAnchors : List (List Token) := [foldedStartTokens, foldedEndTokens]

section
variable {front : List Token}

theorem foldedAnchors_cases (h : front ∈ foldedAnchors) :
    front = foldedStartTokens ∨ front = foldedEndTokens := by
  simpa [foldedAnchors] using h

theorem spelling_folded (h : front ∈ foldedAnchors) : Spelling (untokenize front) front := by
  obtain rfl | rfl := foldedAnchors_cases h
  · exact spelling_foldedStart
  · exact spelling_foldedEnd

theorem marked_folded (h : front ∈ foldedAnchors) : Marked anchorMarks front := by
  obtain rfl | rfl := foldedAnchors_cases h
  · exact marked_foldedStart
  · exact marked_foldedEnd

theorem patch_folded (h : front ∈ foldedAnchors) {old : Text}
    (head : ∃ a t, old = a :: t ∧ a.isDigit = false ∧ a ≠ '>') : Patch old (untokenize front) := by
  refine ⟨head, (spelling_folded h).breaks, ?_, ?_⟩ <;> obtain rfl | rfl := foldedAnchors_cases h
  · exact nofun
  · exact nofun
  · decide
  · decide

theorem foldedAnchor_folded (h : front ∈ foldedAnchors) (ts : List Token) :
    foldedAnchor? (untokenize (front ++ ts)) = some (untokenize front) := by
  rw [untokenize_append]
  obtain rfl | rfl := foldedAnchors_cases h <;> rfl

theorem Lexed.foldedAnchor (h : Lexed .pattern ts) {anchor : Text}
    (ha : foldedAnchor? (untokenize ts) = some anchor) : ∃ front ∈ foldedAnchors, front <+: ts := by
  have key : ∀ front, Spelling anchor front → anchor.isPrefixOf (untokenize ts) → front <+: ts := by
    intro front hf hp
    obtain ⟨r, hr⟩ := List.isPrefixOf_iff_prefix.mp hp
    have hrest := lexed_lexFrom .pattern r
    refine ⟨lexFrom .pattern r, ?_⟩
    rw [← (hf.lexed _ hrest).eq, untokenize_append, hf.text_eq, untokenize_lexFrom, hr, h.eq]
  have hp := List.find?_some ha
  have hm := List.mem_of_find?_eq_some ha
  simp only [List.mem_cons, List.not_mem_nil, or_false] at hm
  obtain rfl | rfl := hm
  · exact ⟨_, List.mem_cons_self, key _ spelling_foldedStart hp⟩
  · exact ⟨_, List.mem_cons_of_mem _ List.mem_cons_self, key _ spelling_foldedEnd hp⟩

end

def anyUnitToken : Token := ⟨.classOpen .emptyNegated, "[^]".toList, .pattern⟩

theorem spelling_anyUnit : Spelling "[^]".toList [anyUnitToken] where
  text_eq := rfl
  lexed _ h := .cons rfl h
  breaks := ⟨'[', _, rfl, .inr (.inl rfl)⟩

theorem patch_anyUnit : Patch ['.'] "[^]".toList where
  head := ⟨'.', [], rfl, by decide⟩
  breaks := spelling_anyUnit.breaks
  uncovers h := by cases h
  ends := by decide

variable {dotAll fold : Bool}

def Token.emulatedTokens (dotAll fold : Bool) (t : Token) : List Token :=
  match t.operator? with
  | some .dot => if dotAll then [anyUnitToken] else [t]
  | some .caret => if fold then foldedStartTokens else [t]
  | some .dollar => if fold then foldedEndTokens else [t]
  | _ => [t]

theorem Token.untokenize_emulatedTokens (t : Token) :
    untokenize (t.emulatedTokens dotAll fold) = t.emulated dotAll fold := by
  obtain ⟨k, text, context⟩ := t
  cases context with
  | charClass => exact List.append_nil text
  | pattern =>
    cases k with
    | dot => cases dotAll <;> first | rfl | exact List.append_nil text
    | caret | dollar => cases fold <;> first | rfl | exact List.append_nil text
    | _ => exact List.append_nil text

inductive Token.Emulates (dotAll fold : Bool) : Token → List Token → Prop
  | dot (hd : dotAll) (text : Text) :
      Emulates dotAll fold ⟨.dot, text, .pattern⟩ [anyUnitToken]
  | caret (hf : fold) (text : Text) :
      Emulates dotAll fold ⟨.caret, text, .pattern⟩ foldedStartTokens
  | dollar (hf : fold) (text : Text) :
      Emulates dotAll fold ⟨.dollar, text, .pattern⟩ foldedEndTokens

theorem Token.kept_or_emulates (dotAll fold : Bool) (t : Token) :
    t.emulatedTokens dotAll fold = [t] ∨ t.Emulates dotAll fold (t.emulatedTokens dotAll fold) := by
  obtain ⟨k, text, context⟩ := t
  cases context with
  | charClass => exact .inl rfl
  | pattern =>
    cases k with
    | dot =>
      cases dotAll with
      | false => exact .inl rfl
      | true => exact .inr (.dot rfl text)
    | caret =>
      cases fold with
      | false => exact .inl rfl
      | true => exact .inr (.caret rfl text)
    | dollar =>
      cases fold with
      | false => exact .inl rfl
      | true => exact .inr (.dollar rfl text)
    | _ => exact .inl rfl

theorem Token.Emulates.standsFor (h : Emulates dotAll fold ⟨k, c :: r, context⟩ new)
    (read : scan context c (r ++ s) = (k, r.length)) : StandsFor new ⟨k, c :: r, context⟩ := by
  cases h with
  | dot =>
    obtain ⟨rfl, rfl⟩ := of_scan_isAlone read rfl rfl
    exact spelling_anyUnit.standsFor patch_anyUnit rfl rfl
  | caret =>
    obtain ⟨rfl, rfl⟩ := of_scan_isAlone read rfl rfl
    have hmem : foldedStartTokens ∈ foldedAnchors := List.mem_cons_self
    exact (spelling_folded hmem).standsFor (patch_folded hmem ⟨'^', [], rfl, by decide⟩) rfl rfl
  | dollar =>
    obtain ⟨rfl, rfl⟩ := of_scan_isAlone read rfl rfl
    have hmem : foldedEndTokens ∈ foldedAnchors := List.mem_cons_of_mem _ List.mem_cons_self
    exact (spelling_folded hmem).standsFor (patch_folded hmem ⟨'$', [], rfl, by decide⟩) rfl rfl

theorem Token.Emulates.marked (h : t.Emulates dotAll fold new) :
    Marked [] [t] ∧ ∃ marks, Marked marks new ∧ (marks = [] ∨ marks = anchorMarks) := by
  cases h with
  | dot => exact ⟨fun _ _ => rfl, [], fun _ _ => rfl, .inl rfl⟩
  | caret => exact ⟨fun _ _ => rfl, _, marked_foldedStart, .inr rfl⟩
  | dollar => exact ⟨fun _ _ => rfl, _, marked_foldedEnd, .inr rfl⟩

/-- Whether some tokens begin with a folded anchor. -/
def StartsFolded (ts : List Token) : Prop := ∃ front ∈ foldedAnchors, front <+: ts

inductive Emulation (dotAll fold : Bool) : List Token → List Token → Prop
  | nil : Emulation dotAll fold [] []
  | anchor {front ts us : List Token} (hf : fold) (mem : front ∈ foldedAnchors)
      (rest : Emulation dotAll fold ts us) : Emulation dotAll fold (front ++ ts) (front ++ us)
  | token {t : Token} {ts us : List Token} (free : fold → ¬ StartsFolded (t :: ts))
      (rest : Emulation dotAll fold ts us) :
      Emulation dotAll fold (t :: ts) (t.emulatedTokens dotAll fold ++ us)

theorem Emulation.total (dotAll fold : Bool) (ts : List Token) :
    ∃ us, Emulation dotAll fold ts us := by
  by_cases hfolded : fold ∧ StartsFolded ts
  · obtain ⟨hf, front, hmem, rest, hsplit⟩ := hfolded
    have hlt : rest.length < ts.length := by
      have hpos : 0 < front.length := by obtain rfl | rfl := foldedAnchors_cases hmem <;> decide
      rw [← hsplit, List.length_append]
      omega
    obtain ⟨us, hus⟩ := Emulation.total dotAll fold rest
    exact ⟨front ++ us, hsplit ▸ .anchor hf hmem hus⟩
  · cases ts with
    | nil => exact ⟨[], .nil⟩
    | cons t ts =>
      obtain ⟨us, hus⟩ := Emulation.total dotAll fold ts
      exact ⟨_, .token (fun hf hstarts => hfolded ⟨hf, hstarts⟩) hus⟩
termination_by ts.length
decreasing_by
  · exact hlt
  · exact Nat.lt_succ_self _

theorem emulateFrom_copied {front : List Token} (hf : ∀ t ∈ front, t.text ≠ []) :
    Source.emulateFrom dotAll fold (untokenize front).length (front ++ ts) =
      Source.emulateFrom dotAll fold 0 ts := by
  induction front with
  | nil => rfl
  | cons t front ih =>
    rw [List.forall_mem_cons] at hf
    have hpos : 0 < t.text.length := List.length_pos_iff.mpr hf.1
    rw [untokenize_cons, List.length_append, List.cons_append, Source.emulateFrom,
      if_pos (by omega), Nat.add_sub_cancel_left, ih hf.2]

theorem emulateFrom_anchor {front : List Token} (hf : fold) (hmem : front ∈ foldedAnchors)
    (ts : List Token) : Source.emulateFrom dotAll fold 0 (front ++ ts) =
      untokenize front ++ Source.emulateFrom dotAll fold 0 ts := by
  have ha := foldedAnchor_folded hmem ts
  obtain ⟨t, behind, rfl, hclass, hne⟩ : ∃ t behind, front = t :: behind ∧ t.inClass = false ∧
      ∀ u ∈ behind, u.text ≠ [] := by
    obtain rfl | rfl := foldedAnchors_cases hmem <;> exact ⟨_, _, rfl, rfl, by decide⟩
  rw [List.cons_append] at ha ⊢
  rw [Source.emulateFrom, if_neg (by simp), if_pos (by simp [hf, hclass]), ha]
  simp only
  rw [untokenize_cons, List.length_append, Nat.add_sub_cancel_left, emulateFrom_copied hne,
    List.append_assoc]

theorem emulateFrom_other
    (ha : fold → t.inClass = false → foldedAnchor? (untokenize (t :: ts)) = none) :
    Source.emulateFrom dotAll fold 0 (t :: ts) =
      t.emulated dotAll fold ++ Source.emulateFrom dotAll fold 0 ts := by
  rw [Source.emulateFrom, if_neg (by simp)]
  split
  · rename_i h
    rw [Option.ite_none_right_eq_some, Bool.and_eq_true, Bool.not_eq_true'] at h
    simp [ha h.1.1 h.1.2] at h
  · rfl

namespace Emulation

theorem text (h : Emulation dotAll fold ts us) (hts : Lexed context ts) :
    Source.emulateFrom dotAll fold 0 ts = untokenize us := by
  induction h generalizing context with
  | nil => rfl
  | anchor hf mem _ ih => rw [emulateFrom_anchor hf mem, ih hts.behind, untokenize_append]
  | @token t ts us free _ ih =>
    have hother : fold → t.inClass = false → foldedAnchor? (untokenize (t :: ts)) = none := by
      intro hf hc
      by_contra hne
      obtain ⟨anchor, ha⟩ := Option.ne_none_iff_exists'.mp hne
      obtain rfl : context = .pattern := by
        cases hts
        cases context with
        | pattern => rfl
        | charClass => cases hc
      exact free hf (hts.foldedAnchor ha)
    have hrest : Lexed (Source.contextBehind context [t]) ts := hts.behind
    rw [emulateFrom_other hother, ih hrest, untokenize_append, t.untokenize_emulatedTokens]

theorem context_of_anchor {front : List Token} (h : Lexed context (front ++ ts))
    (hmem : front ∈ foldedAnchors) : context = .pattern ∧ Lexed .pattern ts := by
  have hrest := h.behind
  obtain rfl | rfl := foldedAnchors_cases hmem
  all_goals
    cases h
    exact ⟨rfl, hrest⟩

theorem patches (h : Emulation dotAll fold ts us) (hts : Lexed context ts) :
    Patches context ts us := by
  induction h generalizing context with
  | nil => exact .nil
  | anchor _ mem _ ih =>
    obtain ⟨rfl, hrest⟩ := context_of_anchor hts mem
    have hspell := spelling_folded mem
    obtain ⟨a, t, htext, hbreak⟩ := hspell.breaks
    have ha : a.isDigit = false ∧ a ≠ '>' := by obtain rfl | rfl | rfl := hbreak <;> decide
    exact .patch (patch_folded mem ⟨a, t, htext, ha⟩) (hspell.lexed _ (ih hrest).lexed)
      (ih hrest).patched
  | token _ _ ih =>
    cases hts with
    | @cons _ c r k _ read rest =>
      obtain hkeep | hreplaced := Token.kept_or_emulates dotAll fold ⟨k, c :: r, context⟩
      · rw [hkeep]
        exact .copy read (ih rest)
      · exact (hreplaced.standsFor read).patches (ih rest)

end Emulation

theorem Emulation.padded (h : Emulation dotAll fold ts us) (hts : Lexed context ts) (fine : Bool) :
    Padded (outlineFrom fine context ts) (outlineFrom fine context us) := by
  induction h generalizing context with
  | nil => exact .refl _
  | anchor _ mem _ ih =>
    obtain ⟨rfl, hrest⟩ := context_of_anchor hts mem
    rw [marked_folded mem, marked_folded mem]
    exact (ih hrest).append anchorMarks
  | @token t ts us _ hemulation ih =>
    cases hts with
    | @cons _ c r k _ read rest =>
      obtain hkeep | hreplaced := Token.kept_or_emulates dotAll fold ⟨k, c :: r, context⟩
      · rw [hkeep, List.singleton_append, outlineFrom_cons, outlineFrom_cons,
          (hemulation.patches rest).parallel.sequel]
        exact (ih rest).append _
      · obtain ⟨hcontext, hafter, -, -⟩ := hreplaced.standsFor read
        obtain rfl : context = .pattern := hcontext
        replace hafter : contextAfter .pattern k = .pattern := hafter
        rw [hafter] at rest
        obtain ⟨hold, marks, hmarks, hm⟩ := hreplaced.marked
        rw [hmarks, ← List.singleton_append, hold]
        obtain rfl | rfl := hm
        · exact ih rest
        · exact .pad (ih rest)

namespace Source

theorem emulate_eq (h : Emulation dotAll fold (lex s) us) :
    emulate dotAll fold s = untokenize us :=
  h.text (lexed_lex s)

theorem emulation_lex (dotAll fold : Bool) (s : Text) :
    Emulation dotAll fold (lex s) (lex (emulate dotAll fold s)) := by
  obtain ⟨us, hus⟩ := Emulation.total dotAll fold (lex s)
  have hlex : lex (emulate dotAll fold s) = us := by
    rw [emulate_eq hus]
    exact (hus.patches (lexed_lex s)).lexed.eq
  rwa [hlex]

theorem padded_promote (s : Text) (fine : Bool) :
    Padded (outline fine s) (outline fine (promote s)) := by
  rw [outline_promote]
  exact .refl _

theorem outline_emulate (dotAll fold fine : Bool) (s : Text) :
    Padded (outline fine s) (outline fine (emulate dotAll fold s)) :=
  (emulation_lex dotAll fold s).padded (lexed_lex s) fine

theorem emulate_eq_nil (dotAll fold : Bool) (s : Text) : emulate dotAll fold s = [] ↔ s = [] := by
  have hnil := ((emulation_lex dotAll fold s).patches (lexed_lex s)).parallel.nil_iff
  rwa [untokenize_lex, untokenize_lex] at hnil

end Source

end Splice
