import Splice.Proofs.Settling
import Splice.Proofs.Skipping
import Splice.Proofs.Tokenwise

/-!
# Tokens tile the source

The spans of tokens are byte offsets. They meet end to end between characters of
the source, and cutting the source at them gives the texts of the tokens back.

What a token says about itself can be told from the source and the tokens before
it: whether the last backslash of the source has nothing to hide, by the parity of
the backslashes at its end; and whether a token stands in a class, by the brackets
before it.
-/

namespace Splice

open Lexer Source

variable {P : Char → Prop} {context : Context} {c : Char} {k : Token} {kind : TokenKind}
  {s t u : Text} {ts before after : List Token} {start stop n : Nat}

-- ---------------------------------------------------------------------------
-- Cutting a text at byte offsets
-- ---------------------------------------------------------------------------

namespace Text

def splitBytes? : Text → Nat → Option (Text × Text)
  | t, 0 => some ([], t)
  | [], _ + 1 => none
  | c :: t, n + 1 =>
    if c.utf8Size ≤ n + 1 then
      (splitBytes? t (n + 1 - c.utf8Size)).map fun (front, back) => (c :: front, back)
    else none

def slice? (start stop : Nat) (t : Text) : Option Text := do
  let (_, rest) ← splitBytes? t start
  let (inside, _) ← splitBytes? rest (stop - start)
  return inside

theorem splitBytes?_append (s t : Text) : splitBytes? (s ++ t) (byteSize s) = some (s, t) := by
  induction s with
  | nil => cases t <;> rfl
  | cons c s ih =>
    obtain ⟨n, hn⟩ : ∃ n, byteSize (c :: s) = n + 1 := by
      refine Nat.exists_eq_succ_of_ne_zero (Nat.ne_of_gt ?_)
      exact Nat.lt_of_lt_of_le c.utf8Size_pos (Nat.le_add_right ..)
    have hsize : n + 1 = c.utf8Size + byteSize s := hn.symm
    rw [hn, List.cons_append, splitBytes?, if_pos (by omega),
      show n + 1 - c.utf8Size = byteSize s by omega, ih]
    rfl

theorem slice?_append (s t u : Text) :
    slice? (byteSize s) (byteSize s + byteSize t) (s ++ t ++ u) = some t := by
  simp only [slice?, List.append_assoc, splitBytes?_append, Option.bind_eq_bind, Option.bind_some,
    Nat.add_sub_cancel_left]
  rfl

theorem byteSize_pos (ht : t ≠ []) : 0 < byteSize t := by
  cases t with
  | nil => exact absurd rfl ht
  | cons c t => exact Nat.lt_of_lt_of_le c.utf8Size_pos (Nat.le_add_right ..)

end Text

-- ---------------------------------------------------------------------------
-- Spans
-- ---------------------------------------------------------------------------

namespace Token

def spanBehind (n : Nat) : Token × Nat × Nat → Token × Nat × Nat
  | (k, start, stop) => (k, n + start, n + stop)

theorem spansFrom_behind (n start : Nat) (ts : List Token) :
    spansFrom (n + start) ts = (spansFrom start ts).map (spanBehind n) := by
  induction ts generalizing start with
  | nil => rfl
  | cons k ts ih => rw [spansFrom, spansFrom, Nat.add_assoc, ih, List.map_cons, spanBehind]

theorem spans_cons (k : Token) (ts : List Token) :
    spans (k :: ts) = (k, 0, Text.byteSize k.text) ::
      (spans ts).map (spanBehind (Text.byteSize k.text)) := by
  rw [spans, spansFrom, spans, ← spansFrom_behind, Nat.zero_add, Nat.add_zero]

theorem spansFrom_map_fst (start : Nat) (ts : List Token) :
    (spansFrom start ts).map Prod.fst = ts := by
  induction ts generalizing start with
  | nil => rfl
  | cons k ts ih => rw [spansFrom, List.map_cons, ih]

theorem spansFrom_meet (start : Nat) (ts : List Token) :
    (spansFrom start ts).map (fun span => span.2.1) ++ [start + Text.byteSize (untokenize ts)] =
      start :: (spansFrom start ts).map fun span => span.2.2 := by
  induction ts generalizing start with
  | nil => rfl
  | cons k ts ih =>
    rw [spansFrom, untokenize_cons, Text.byteSize_append, ← Nat.add_assoc, List.map_cons,
      List.map_cons, List.cons_append, ih]

theorem of_mem_spansFrom (h : (k, n, stop) ∈ spansFrom start ts) :
    ∃ before after, ts = before ++ k :: after ∧
      n = start + Text.byteSize (untokenize before) ∧ stop = n + Text.byteSize k.text := by
  induction ts generalizing start with
  | nil => simp [spansFrom] at h
  | cons a ts ih =>
    rw [spansFrom, List.mem_cons] at h
    rcases h with hhead | h
    · obtain ⟨rfl, rfl, rfl⟩ : k = a ∧ n = start ∧ stop = start + Text.byteSize a.text := by
        simpa using hhead
      exact ⟨[], ts, rfl, rfl, rfl⟩
    · obtain ⟨before, after, rfl, rfl, rfl⟩ := ih h
      refine ⟨a :: before, after, rfl, ?_, rfl⟩
      rw [untokenize_cons, Text.byteSize_append, Nat.add_assoc]

end Token

theorem slice_span (h : (k, start, stop) ∈ Token.spans (lex s)) :
    start < stop ∧ Text.slice? start stop s = some k.text := by
  obtain ⟨before, after, hsplit, hstart, rfl⟩ := Token.of_mem_spansFrom h
  have hk : k ∈ lex s := by rw [hsplit]; simp
  have hs : s = untokenize before ++ k.text ++ untokenize after := by
    rw [← untokenize_lex s, hsplit, untokenize_append, untokenize_cons, List.append_assoc]
  rw [Nat.zero_add] at hstart
  constructor
  · have hpos := Text.byteSize_pos (text_ne_nil hk)
    omega
  · rw [hs, hstart]
    exact Text.slice?_append ..

-- ---------------------------------------------------------------------------
-- Backslashes at the end
-- ---------------------------------------------------------------------------

def Text.finalBackslashes (t : Text) : Nat := (t.reverse.takeWhile (· == '\\')).length

namespace Text

theorem finalBackslashes_cons (c : Char) (t : Text) : finalBackslashes (c :: t) =
    if finalBackslashes t = t.length ∧ c = '\\' then t.length + 1 else finalBackslashes t := by
  rw [finalBackslashes, finalBackslashes, List.reverse_cons, List.takeWhile_append,
    List.length_reverse]
  by_cases hall : (t.reverse.takeWhile (· == '\\')).length = t.length
  · by_cases hc : c = '\\' <;> simp [hall, hc]
  · rw [if_neg hall, if_neg (fun h => hall h.1)]

theorem finalBackslashes_le (t : Text) : finalBackslashes t ≤ t.length := by
  have hle := (List.takeWhile_prefix (l := t.reverse) (· == '\\')).length_le
  rwa [List.length_reverse] at hle

theorem finalBackslashes_plain (hc : c ≠ '\\') (t : Text) :
    finalBackslashes (c :: t) = finalBackslashes t := by
  rw [finalBackslashes_cons, if_neg (fun h => hc h.2)]

theorem finalBackslashes_escape (c : Char) (t : Text) :
    Odd (finalBackslashes ('\\' :: c :: t)) ↔ Odd (finalBackslashes t) := by
  have hle := finalBackslashes_le t
  rw [finalBackslashes_cons, finalBackslashes_cons, List.length_cons]
  by_cases hall : finalBackslashes t = t.length ∧ c = '\\'
  · rw [if_pos hall, if_pos ⟨rfl, rfl⟩, hall.1, Nat.odd_add_one, Nat.odd_add_one, not_not]
  · rw [if_neg hall, if_neg (by omega)]

end Text

theorem Skips.odd_finalBackslashes (hP : ∀ c, P c → c ≠ '\\') (h : Skips P t u) :
    Odd (Text.finalBackslashes t) ↔ Odd (Text.finalBackslashes u) := by
  induction h with
  | refl => exact Iff.rfl
  | plain hc _ ih => rw [Text.finalBackslashes_plain (hP _ hc), ih]
  | escape c _ ih => rw [Text.finalBackslashes_escape, ih]

/-- To a reader that only knows what a backslash hides every token is skipped, but
the backslash that has nothing to hide. -/
theorem skips_scan (h : scan context c t = (kind, n)) (hkind : kind ≠ .garbage) :
    Skips (· ≠ '\\') (c :: t) (t.drop n) := by
  have hplain : ∀ x, IsBlank context x → x ≠ '\\' := fun _ hx => hx.1.1
  -- A backslash in a name hides another character of the name or the bracket that ends it.
  have hname : (⟨kind, c :: t.take n, context⟩ : Token).SkipsName (· ≠ '\\') :=
    fun _ _ _ _ _ _ => .of_forall (fun x _ => em (x = '\\')) (by decide)
  cases spelt_scan hplain h hname with
  | silent skips => exact skips
  | opens skips => exact .plain (by decide) skips
  | marks skips => exact .plain (by decide) (skips.trans (.plain (by decide) (.refl _)))
  | closes | bar | enters | leaves => exact .plain (by decide) (.refl _)
  | anything rest ht =>
    obtain rfl := ht
    exact .plain (by decide) (.plain (by decide) (.plain (by decide) (.refl rest)))
  | hides => exact absurd rfl hkind

/-- The last backslash of a source has nothing to hide where their number is odd. -/
theorem Lexed.garbage_iff (h : Lexed context ts) :
    (∃ k ∈ ts, k.kind = .garbage) ↔ Odd (Text.finalBackslashes (untokenize ts)) := by
  induction h with
  | nil => simp [untokenize, Text.finalBackslashes]
  | @cons context c r kind ts read _ ih =>
    have htext : untokenize (⟨kind, c :: r, context⟩ :: ts) = c :: (r ++ untokenize ts) := rfl
    rw [htext]
    by_cases hkind : kind = .garbage
    · rw [hkind] at read
      obtain ⟨rfl, hempty⟩ := of_scan_garbage read
      rw [hempty]
      exact ⟨fun _ => by decide, fun _ => ⟨_, List.mem_cons_self, hkind⟩⟩
    · have hskip := (skips_scan read hkind).odd_finalBackslashes fun _ hc => hc
      rw [List.drop_left] at hskip
      rw [hskip, ← ih]
      simp [hkind]

theorem Lexed.eq_of_garbage (h : Lexed context (k :: ts)) (hk : k.kind = .garbage) :
    ts = [] ∧ k.text = ['\\'] := by
  cases h with
  | @cons _ c r kind _ read rest =>
    rw [show kind = .garbage from hk] at read
    obtain ⟨rfl, hempty⟩ := of_scan_garbage read
    obtain ⟨rfl, hnil⟩ := List.append_eq_nil_iff.mp hempty
    exact ⟨rest.nil_iff.mpr hnil, rfl⟩

-- ---------------------------------------------------------------------------
-- Numbers of references
-- ---------------------------------------------------------------------------

theorem Lexed.reference_bounds (h : Lexed context ts) (hk : k ∈ ts)
    (hn : k.kind = .escape (.backReference n)) : 1 ≤ n ∧ n ≤ 99 := by
  induction h with
  | nil => simp at hk
  | @cons context c r kind ts read _ ih =>
    rcases List.mem_cons.mp hk with rfl | hk
    · obtain rfl : kind = .escape (.backReference n) := hn
      rcases first_of_scan read with hfirst | ⟨hchar, -⟩
      · obtain rfl := Option.some.inj hfirst
        have hread : scan .pattern '\\' (r ++ untokenize ts) =
            (.escape (.backReference n), r.length) := by
          rw [← read]
          cases r ++ untokenize ts <;> rfl
        exact ⟨(of_scan_reference read).1, (text_of_scan_reference hread).2⟩
      · cases hchar
    · exact ih hk

-- ---------------------------------------------------------------------------
-- Classes
-- ---------------------------------------------------------------------------

/-- Whether the last of some tokens to open or close a class leaves one open, which a
bracket outside classes has opened. -/
def LeavesClass (before : List Token) : Prop :=
  ∃ outer opener inner, before = outer ++ opener :: inner ∧
    opener.kind = .classOpen .plain ∧ opener.context = .pattern ∧
    ∀ k ∈ inner, k.kind ≠ .classClose

theorem LeavesClass.concat (h : LeavesClass before) (hk : k.kind ≠ .classClose) :
    LeavesClass (before ++ [k]) := by
  obtain ⟨outer, opener, inner, rfl, hopen, houtside, hinner⟩ := h
  refine ⟨outer, opener, inner ++ [k], by simp, hopen, houtside, ?_⟩
  simpa [or_imp, forall_and] using ⟨hinner, hk⟩

theorem leavesClass_concat : LeavesClass (before ++ [k]) ↔
    (k.kind = .classOpen .plain ∧ k.context = .pattern) ∨
      (LeavesClass before ∧ k.kind ≠ .classClose) := by
  constructor
  · rintro ⟨outer, opener, inner, hsplit, hopen, houtside, hinner⟩
    rcases List.eq_nil_or_concat inner with rfl | ⟨inner, last, rfl⟩
    · obtain ⟨-, hk⟩ := List.append_inj' hsplit rfl
      obtain rfl : k = opener := by simpa using hk
      exact .inl ⟨hopen, houtside⟩
    · rw [List.concat_eq_append, ← List.cons_append, ← List.append_assoc] at hsplit
      obtain ⟨rfl, hk⟩ := List.append_inj' hsplit rfl
      obtain rfl : k = last := by simpa using hk
      have hlast := hinner k (by simp)
      exact .inr ⟨⟨outer, opener, inner, rfl, hopen, houtside, fun x hx => hinner x (by simp [hx])⟩,
        hlast⟩
  · rintro (⟨hopen, houtside⟩ | ⟨h, hk⟩)
    · exact ⟨before, k, [], rfl, hopen, houtside, by simp⟩
    · exact h.concat hk

theorem contextAfter_eq_charClass : contextAfter context kind = .charClass ↔
    (kind = .classOpen .plain ∧ context = .pattern) ∨
      (context = .charClass ∧ kind ≠ .classClose) := by
  cases context with
  | pattern =>
    refine ⟨fun h => .inl ⟨contextAfter_pattern h, rfl⟩, ?_⟩
    rintro (⟨rfl, -⟩ | ⟨h, -⟩)
    · rfl
    · cases h
  | charClass =>
    constructor
    · intro h
      refine .inr ⟨rfl, ?_⟩
      rintro rfl
      cases h
    · rintro (⟨-, h⟩ | ⟨-, h⟩)
      · cases h
      · exact contextAfter_class h

theorem Lexed.contextBehind_iff (h : Lexed .pattern (before ++ ts)) :
    contextBehind .pattern before = .charClass ↔ LeavesClass before := by
  -- The last token opens or closes a class, or leaves things as those before it do.
  induction before using List.reverseRecOn generalizing ts with
  | nil => simp [contextBehind, LeavesClass]
  | append_singleton before k ih =>
    rw [List.append_assoc] at h
    have hcontext : k.context = contextBehind .pattern before := by
      cases h.behind with
      | cons _ _ => rfl
    have hbehind : contextBehind .pattern (before ++ [k]) = contextAfter k.context k.kind := by
      rw [hcontext, contextBehind, List.foldl_append]
      rfl
    rw [hbehind, contextAfter_eq_charClass, leavesClass_concat, ← ih h, ← hcontext]

theorem Lexed.inClass_iff (h : Lexed .pattern (before ++ k :: after)) :
    k.inClass ↔ LeavesClass before := by
  rw [← h.contextBehind_iff]
  cases h.behind with
  | cons _ _ => simp [Token.inClass]

-- ---------------------------------------------------------------------------
-- All together
-- ---------------------------------------------------------------------------

/-- The tokens of a source tile it, and tell what the source says. -/
theorem lex_tiles (s : Text) :
    (Token.spans (lex s)).map Prod.fst = lex s ∧
    (Token.spans (lex s)).map (fun span => span.2.1) ++ [Text.byteSize s] =
      0 :: (Token.spans (lex s)).map (fun span => span.2.2) ∧
    (∀ k start stop, (k, start, stop) ∈ Token.spans (lex s) →
      start < stop ∧ Text.slice? start stop s = some k.text) ∧
    untokenize (lex s) = s ∧
    ((∃ k ∈ lex s, k.kind = .garbage) ↔ Odd (Text.finalBackslashes s)) ∧
    (∀ before k after, lex s = before ++ k :: after → k.kind = .garbage →
      after = [] ∧ k.text = ['\\']) ∧
    (∀ k ∈ lex s, ∀ n, k.kind = .escape (.backReference n) → 1 ≤ n ∧ n ≤ 99) ∧
    ∀ before k after, lex s = before ++ k :: after → (k.inClass ↔ LeavesClass before) := by
  have hlexed := lexed_lex s
  refine ⟨Token.spansFrom_map_fst 0 _, ?_, fun _ _ _ => slice_span, untokenize_lex s, ?_, ?_, ?_,
    ?_⟩
  · have hmeet := Token.spansFrom_meet 0 (lex s)
    rwa [untokenize_lex, Nat.zero_add] at hmeet
  · rw [hlexed.garbage_iff, untokenize_lex]
  · intro before k after hsplit hk
    rw [hsplit] at hlexed
    exact hlexed.behind.eq_of_garbage hk
  · intro k hk n hn
    exact hlexed.reference_bounds hk hn
  · intro before k after hsplit
    rw [hsplit] at hlexed
    exact hlexed.inClass_iff

theorem lex_tiles_mixed :
    let s : Text := "é[\\]]\\12\\".toList
    (∃ k ∈ lex s, k.kind = .garbage) ∧ (lex s).drop 6 = [] ∧
      Text.slice? 3 5 s = some ['\\', ']'] ∧ LeavesClass ((lex s).take 2) ∧
      ∃ k ∈ lex s, k.kind = .escape (.backReference 12) ∧ 12 ≤ 99 := by
  intro s
  obtain ⟨-, -, hslice, -, hgarbage, hlast, hbounds, hclass⟩ := lex_tiles s
  have hspan : (⟨.escape (.char ']'), ['\\', ']'], .charClass⟩, 3, 5) ∈ Token.spans (lex s) := by
    decide +kernel
  have hinside : lex s =
      (lex s).take 2 ++ ⟨.escape (.char ']'), ['\\', ']'], .charClass⟩ :: (lex s).drop 3 := by
    decide +kernel
  have hend : lex s = (lex s).take 5 ++ ⟨.garbage, ['\\'], .pattern⟩ :: (lex s).drop 6 := by
    decide +kernel
  have hreference : ⟨.escape (.backReference 12), "\\12".toList, .pattern⟩ ∈ lex s := by
    decide +kernel
  exact ⟨hgarbage.mpr (by decide +kernel), (hlast _ _ _ hend rfl).1, (hslice _ _ _ hspan).2,
    (hclass _ _ _ hinside).mp rfl, _, hreference, rfl, (hbounds _ hreference 12 rfl).2⟩

end Splice
