import Splice.Proofs.Skipping
import Splice.Proofs.Spelling

/-!
# Groups and bars by their characters

How many groups a source captures, whether it alternates and whether it is one
group is told by its tokens. A scanner that goes character by character and
knows of nothing but backslashes and brackets tells the same (`sights`), as
long as no name holds a bracket that the scanner would take for the beginning
of a class, or a bar.
-/

namespace Splice

open Lexer

/-- A parenthesis or a bar outside classes, with the depth in front of it and
the text behind it. -/
structure Sight where
  char : Char
  depth : Int
  behind : Text
  deriving DecidableEq, Repr

namespace Source

variable {context : Context} {c : Char} {k : TokenKind} {t u : Text} {d : Int} {n : Nat}
  {ts : List Token}

/-- The parentheses and bars of a text outside classes. A backslash hides the
character behind it. -/
def sights : Context → Int → Text → List Sight
  | _, _, [] | _, _, ['\\'] => []
  | context, depth, '\\' :: _ :: rest => sights context depth rest
  | .charClass, depth, ']' :: rest => sights .pattern depth rest
  | .pattern, depth, '[' :: rest => sights .charClass depth rest
  | .pattern, depth, '(' :: rest => ⟨'(', depth, rest⟩ :: sights .pattern (depth + 1) rest
  | .pattern, depth, ')' :: rest => ⟨')', depth, rest⟩ :: sights .pattern (depth - 1) rest
  | .pattern, depth, '|' :: rest => ⟨'|', depth, rest⟩ :: sights .pattern depth rest
  | context, depth, _ :: rest => sights context depth rest

-- ---------------------------------------------------------------------------
-- Sights of tokens
-- ---------------------------------------------------------------------------

theorem sights_blank (hc : IsBlank context c) : sights context d (c :: t) = sights context d t := by
  obtain ⟨⟨hb, hc⟩, hbar⟩ := hc
  cases context with
  | pattern =>
    have hbar := hbar rfl
    rw [sights] <;> simp_all
  | charClass => rw [sights] <;> simp_all

theorem sights_skips (h : Skips (IsBlank context) t u) :
    sights context d t = sights context d u := by
  induction h with
  | refl => rfl
  | plain hc _ ih => exact (sights_blank hc).trans ih
  | escape c _ ih =>
    rw [sights]
    exact ih

end Source

/-- The sights of a token at some depth and in front of some text. -/
def Token.sights (depth : Int) (behind : Text) (a : Token) : List Sight :=
  match a.operator? with
  | some (.groupOpen (.deferred _)) =>
    [⟨'(', depth, a.text.drop 1 ++ behind⟩, ⟨')', depth + 1, behind⟩]
  | some (.groupOpen _) => [⟨'(', depth, a.text.drop 1 ++ behind⟩]
  | some .groupClose => [⟨')', depth, behind⟩]
  | some .pipe => [⟨'|', depth, behind⟩]
  | _ => []

namespace Source

variable {context : Context} {c : Char} {k : TokenKind} {t u : Text} {d : Int} {n : Nat}
  {ts : List Token}

theorem sights_scan (h : scan context c t = (k, n))
    (hname : (⟨k, c :: t.take n, context⟩ : Token).SkipsName (IsBlank context)) :
    sights context d (c :: t) = (⟨k, c :: t.take n, context⟩ : Token).sights d (t.drop n) ++
      sights (contextAfter context k) (d + (⟨k, c :: t.take n, context⟩ : Token).nesting)
        (t.drop n) := by
  have hgroup : sights .pattern d ('(' :: t) = ⟨'(', d, t⟩ :: sights .pattern (d + 1) t := by
    rw [sights]
  have hsplit : t = t.take n ++ t.drop n := (List.take_append_drop n t).symm
  cases spelt_scan (fun _ => id) h hname with
  | silent skips silent after whole =>
    obtain ⟨hnone, hzero⟩ : (⟨k, c :: t.take n, context⟩ : Token).sights d (t.drop n) = [] ∧
        (⟨k, c :: t.take n, context⟩ : Token).nesting = 0 := by
      cases context with
      | charClass => exact ⟨rfl, rfl⟩
      | pattern =>
        have hk := silent.resolve_left (by simp)
        cases k <;> first | exact ⟨rfl, rfl⟩ | cases hk
    rw [hnone, hzero, after, List.nil_append, Int.add_zero]
    exact sights_skips skips
  | @opens g _ skips unmarked =>
    obtain ⟨hopen, hone⟩ : (⟨.groupOpen g, '(' :: t.take n, .pattern⟩ : Token).sights d (t.drop n) =
        [⟨'(', d, t.take n ++ t.drop n⟩] ∧
        (⟨.groupOpen g, '(' :: t.take n, .pattern⟩ : Token).nesting = 1 := by
      cases g with
      | deferred m => exact absurd rfl (unmarked m)
      | _ => exact ⟨rfl, rfl⟩
    rw [hopen, hone, ← hsplit, hgroup, sights_skips skips]
    rfl
  | @marks m _ skips =>
    have hmark :
        (⟨.groupOpen (.deferred m), '(' :: t.take n, .pattern⟩ : Token).sights d (t.drop n) =
        [⟨'(', d, t.take n ++ t.drop n⟩, ⟨')', d + 1, t.drop n⟩] := rfl
    rw [hmark, ← hsplit, hgroup, sights_skips skips, sights, Int.add_sub_cancel]
    have hzero : (⟨.groupOpen (.deferred m), '(' :: t.take n, .pattern⟩ : Token).nesting = 0 := rfl
    rw [hzero, Int.add_zero]
    rfl
  | closes =>
    rw [sights]
    rfl
  | bar =>
    rw [sights]
    exact congrArg (_ :: sights _ · _) (Int.add_zero d).symm
  | enters =>
    rw [sights]
    exact congrArg (sights _ · _) (Int.add_zero d).symm
  | leaves =>
    rw [sights]
    exact congrArg (sights _ · _) (Int.add_zero d).symm
  | anything rest ht =>
    subst ht
    have hcaret : IsBlank .charClass '^' := ⟨isPlain_of_isMute (by decide) _, nofun⟩
    rw [sights, sights_blank hcaret, sights]
    exact congrArg (sights _ · _) (Int.add_zero d).symm
  | hides ht =>
    subst ht
    cases context <;> rfl

def sightsOf (depth : Int) : List Token → List Sight
  | [] => []
  | a :: rest => a.sights depth (untokenize rest) ++ sightsOf (depth + a.nesting) rest

theorem sightsOf_lexFrom (hn : ∀ a ∈ lexFrom context t, a.SkipsName (IsBlank a.context)) :
    sights context d t = sightsOf d (lexFrom context t) := by
  fun_induction lexFrom context t generalizing d with
  | case1 context => cases context <;> rfl
  | case2 context c rest kind n hscan ih =>
    rw [List.forall_mem_cons] at hn
    rw [sights_scan hscan hn.1, sightsOf, untokenize_lexFrom, ih hn.2]

-- ---------------------------------------------------------------------------
-- What the sights say
-- ---------------------------------------------------------------------------

theorem opensCapture_of_scan {g : GroupOpener} {l : Nat}
    (read : scan .pattern c t = (.groupOpen g, l)) : opensCapture t = g.isCapture := by
  obtain rfl : c = '(' := of_scan read rfl
  rw [opensCapture_eq]
  exact congrArg _ (TokenKind.groupOpen.inj (Prod.mk.inj read).1)

theorem captures_sights (h : Lexed context ts) :
    (sightsOf d ts).countP (fun m => m.char = '(' ∧ opensCapture m.behind) =
      ts.countP Token.opensCapture := by
  induction h generalizing d with
  | nil => rfl
  | @cons context c r k ts read rest ih =>
    have htoken : ((⟨k, c :: r, context⟩ : Token).sights d (untokenize ts)).countP
        (fun m => m.char = '(' ∧ opensCapture m.behind) =
        if (⟨k, c :: r, context⟩ : Token).opensCapture then 1 else 0 := by
      cases context with
      | charClass => rfl
      | pattern =>
        cases k with
        | groupOpen g =>
          have hcapture := opensCapture_of_scan read
          cases g <;> simp [Token.sights, Token.opensCapture, Token.operator?, Token.inClass,
            List.countP_cons, hcapture]
        | _ => rfl
    rw [sightsOf, List.countP_append, htoken, ih, List.countP_cons, Nat.add_comm]

theorem bars_sights : (sightsOf d ts).any (fun m => m.char = '|' ∧ m.depth = 0) =
    alternatesFrom d ts := by
  induction ts generalizing d with
  | nil => rfl
  | cons a ts ih =>
    have htoken : (a.sights d (untokenize ts)).any (fun m => m.char = '|' ∧ m.depth = 0) =
        (a.isBar && d == 0) := by
      unfold Token.sights Token.isBar
      cases a.operator? with
      | none => rfl
      | some k =>
        cases k with
        | groupOpen g => cases g <;> simp
        | _ => simp [Bool.beq_eq_decide_eq]
    rw [sightsOf, List.any_append, htoken, ih, alternatesFrom]

theorem isEmpty_of_lexed (h : Lexed context ts) : ts.isEmpty = decide (untokenize ts = []) := by
  rw [Bool.eq_iff_iff, List.isEmpty_iff, decide_eq_true_iff]
  exact h.nil_iff

theorem closes_sights {d : Nat} (h : Lexed context ts) (hd : 0 < d) :
    ((sightsOf d ts).find? (fun m => m.char = ')' ∧ m.depth = 1)).any (·.behind = []) =
      closesAtEnd d ts := by
  induction h generalizing d with
  | nil => rfl
  | @cons context c r k ts read rest ih =>
    have hnext : ∀ {x : Int} {e : Nat}, x = e → 0 < e →
        ((sightsOf x ts).find? (fun m => m.char = ')' ∧ m.depth = 1)).any (·.behind = []) =
          closesAtEnd e ts := by
      rintro _ e rfl he
      exact ih he
    unfold sightsOf closesAtEnd Token.sights Token.nesting
    cases (⟨k, c :: r, context⟩ : Token).operator? with
    | none => exact hnext (Int.add_zero _) hd
    | some k =>
      cases k with
      | groupOpen g =>
        cases g with
        | deferred m =>
          have hfar : (d : Int) + 1 ≠ 1 := by omega
          simpa [hfar, hd.ne'] using hnext (Int.add_zero _) hd
        | _ => exact hnext rfl (Nat.succ_pos d)
      | groupClose =>
        by_cases h1 : d = 1
        · subst h1
          simp [isEmpty_of_lexed rest]
        · have hfar : (d : Int) ≠ 1 := by omega
          have hleft : d - 1 ≠ 0 := by omega
          simpa [hfar, hleft] using hnext (x := d + -1) (e := d - 1) (by omega) (by omega)
      | _ => exact hnext (Int.add_zero _) hd

theorem skipsName_of_text {a : Token} (h : a.isNaming → '[' ∉ a.text ∧ '|' ∉ a.text) :
    a.SkipsName (IsBlank context) := by
  intro hnaming lead name _ hends htext
  obtain ⟨hbracket, hbar⟩ := h hnaming
  have hmem : ∀ x ∈ name, x ∈ a.text := fun x hx => by simp [htext, hx]
  refine .of_forall (fun x hx => ?_) ⟨isPlain_of_isMute (by decide) context, fun _ => by decide⟩
  have ne : ∀ y, y ∉ a.text → x ≠ y := by
    rintro _ hy rfl
    exact hy (hmem x hx)
  have hends : x ≠ '(' ∧ x ≠ ')' ∧ x ≠ ']' := by
    have hend := hends x hx
    refine ⟨?_, ?_, ?_⟩ <;> (rintro rfl; simp [isNameEnd] at hend)
  by_cases hx : x = '\\'
  · exact .inl hx
  · refine .inr ⟨⟨hx, ?_⟩, fun _ => ne '|' hbar⟩
    cases context with
    | charClass => exact hends.2.2
    | pattern => exact ⟨hends.1, hends.2.1, ne '[' hbracket⟩

variable {s : Text}

/-- From the opener of a group on, what is found first closes it. -/
theorem group_sights {a : Token} (h : Lexed .pattern (a :: ts)) (ha : a.isGroup) :
    ((sightsOf 0 (a :: ts)).find? (fun m => m.char = ')' ∧ m.depth = 1)).any (·.behind = []) =
      closesAtEnd 0 (a :: ts) := by
  cases h with
  | @cons _ c r k _ read rest =>
    obtain ⟨g, rfl⟩ : ∃ g, k = .groupOpen g := by
      cases k <;> first | exact ⟨_, rfl⟩ | cases ha
    cases g with
    | deferred m =>
      simp [sightsOf, closesAtEnd, Token.sights, Token.operator?, Token.inClass,
        isEmpty_of_lexed rest]
    | _ => exact closes_sights (d := 1) rest Nat.one_pos

theorem isGroup_head (s : Text) :
    (lex s).head?.any Token.isGroup ↔ s.head? = some '(' := by
  cases s with
  | nil => simp [lex, lexFrom_nil]
  | cons c t =>
    rw [lex, lexFrom_cons, List.head?_cons, Option.any_some, List.head?_cons, Option.some_inj]
    constructor
    · intro hgroup
      cases hk : (scan .pattern c t).1 with
      | groupOpen g => exact of_scan (Prod.ext hk rfl) rfl
      | _ =>
        rw [hk] at hgroup
        cases hgroup
    · rintro rfl
      rfl

/-- What the tokens of a source say about its groups is what its characters say. -/
theorem analyses_sights (hnames : ∀ a ∈ lex s, a.isNaming → '[' ∉ a.text ∧ '|' ∉ a.text) :
    captureCount s = (sights .pattern 0 s).countP (fun m => m.char = '(' ∧ opensCapture m.behind) ∧
    (alternates s ↔ ∃ m ∈ sights .pattern 0 s, m.char = '|' ∧ m.depth = 0) ∧
    (isSingleGroup s ↔ s.head? = some '(' ∧ ∃ m,
      (sights .pattern 0 s).find? (fun m => m.char = ')' ∧ m.depth = 1) = some m ∧
        m.behind = []) := by
  have hsights : sights .pattern 0 s = sightsOf 0 (lex s) :=
    sightsOf_lexFrom fun a ha => skipsName_of_text (hnames a ha)
  refine ⟨?_, ?_, ?_⟩
  · rw [hsights]
    exact (captures_sights (lexed_lexFrom .pattern s)).symm
  · rw [alternates, ← bars_sights, ← hsights]
    simp
  · have hlexed : Lexed .pattern (lex s) := lexed_lexFrom .pattern s
    have hclosed : (lex s).head?.any Token.isGroup →
        (((sights .pattern 0 s).find? (fun m => m.char = ')' ∧ m.depth = 1)).any (·.behind = []) ↔
          closesAtEnd 0 (lex s)) := by
      intro hgroup
      rw [hsights]
      cases htokens : lex s with
      | nil => simp [htokens] at hgroup
      | cons a ts =>
        rw [htokens] at hgroup hlexed
        rw [group_sights hlexed (by simpa using hgroup)]
    rw [isSingleGroup_eq, Bool.and_eq_true, ← isGroup_head s]
    refine and_congr_right fun hgroup => ?_
    rw [← hclosed hgroup, Option.any_eq_true]
    simp only [decide_eq_true_eq]

theorem analyses_sights_nested :
    let s : Text := "((?<n>a|[)|])\\)(?=\\k<n>|b))".toList
    (∀ a ∈ lex s, a.isNaming → '[' ∉ a.text ∧ '|' ∉ a.text) ∧
      captureCount s = 2 ∧ ¬ alternates s ∧ isSingleGroup s := by
  intro s
  have hnames : ∀ a ∈ lex s, a.isNaming → '[' ∉ a.text ∧ '|' ∉ a.text := by decide +kernel
  obtain ⟨hcount, hbars, hgroup⟩ := analyses_sights hnames
  refine ⟨hnames, hcount.trans (by decide +kernel), fun hbar => ?_, hgroup.mpr ?_⟩
  · exact absurd (hbars.mp hbar) (by decide +kernel)
  · exact ⟨by decide +kernel, ⟨')', 1, []⟩, by decide +kernel, rfl⟩

-- To the scanner the bracket in a name begins a class, which hides the bar.
example : alternates "(?<[>)|".toList ∧ sights .pattern 0 "(?<[>)|".toList =
    [⟨'(', 0, "?<[>)|".toList⟩] := by decide +kernel

end Source

end Splice
