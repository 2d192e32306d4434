import Splice.Grammar.Pattern
import Splice.Proofs.Brackets

/-!
# What the grammar reads

Every construct of the pattern grammar opens and closes what its characters
open and close, and it ends where the next construct begins. So the groups and
classes of a well-formed source are those that its brackets show.
-/

namespace Splice.Source

open Grammar

variable {wide : Bool} {context : Context} {c d : Char} {t rest : Text} {n code : Nat}

/-- In narrow mode no `\x` hides a bracket. In wide mode the grammar sees to that. -/
def Tight (wide : Bool) (context : Context) (t : Text) : Prop :=
  wide = false → .loose ∉ brackets context t

instance : Decidable (Tight wide context t) := inferInstanceAs (Decidable (_ → _))

-- ---------------------------------------------------------------------------
-- Numerals
-- ---------------------------------------------------------------------------

theorem isMute_of_isHexDigit (h : Text.isHexDigit c) : isMute c :=
  isMute_of_isSoft (Lexer.isSoft_of_isHexDigit h)

theorem isHexDigit_of_hexDigits {digits : Text} (h : Text.hexDigits? digits = some code) :
    ∀ x ∈ digits, Text.isHexDigit x := by
  have fold : ∀ {digits : Text} {start : Nat},
      digits.foldlM (fun n d => (Text.hexDigit? d).map (16 * n + ·)) start = some code →
        ∀ x ∈ digits, Text.isHexDigit x := by
    intro digits
    induction digits with
    | nil => simp
    | cons d digits ih =>
      intro start h
      rw [List.foldlM_cons, Option.bind_eq_bind, Option.bind_eq_some_iff] at h
      obtain ⟨m, hm, h⟩ := h
      obtain ⟨k, hk, -⟩ := Option.map_eq_some_iff.mp hm
      exact List.forall_mem_cons.mpr ⟨by simp [Text.isHexDigit, hk], ih h⟩
  cases digits with
  | nil => simp
  | cons d digits => exact fold h

theorem isMute_of_hexNumeral {numeral : Text} (h : Text.hexNumeral? numeral = some code) :
    ∀ x ∈ numeral, isMute x := by
  unfold Text.hexNumeral? at h
  obtain ⟨h, -⟩ := Option.filter_eq_some_iff.mp h
  split at h
  · refine List.forall_mem_cons.mpr ⟨by decide, fun x hx => ?_⟩
    exact isMute_of_isHexDigit (isHexDigit_of_hexDigits h x hx)
  · exact fun x hx => isMute_of_isHexDigit (isHexDigit_of_hexDigits h x hx)

-- ---------------------------------------------------------------------------
-- Escapes and names
-- ---------------------------------------------------------------------------

/-- Readings of a text on which neither a mute character nor one that a backslash
hides has any influence. -/
structure Blind {α : Type} (read : Text → α) : Prop where
  mute : ∀ {c : Char} {t : Text}, isMute c → read (c :: t) = read t
  hidden : ∀ {c : Char} {t : Text}, c ≠ 'x' → read ('\\' :: c :: t) = read t

theorem exists_stop {p : Char → Bool} (h : (t.takeWhile p).length < t.length) :
    ∃ stop rest, t = t.takeWhile p ++ stop :: rest ∧ p stop = false := by
  induction t with
  | nil => simp at h
  | cons c t ih =>
    cases hc : p c with
    | false => exact ⟨c, t, by simp [hc], hc⟩
    | true =>
      rw [List.takeWhile_cons_of_pos hc] at h ⊢
      obtain ⟨stop, rest, ht, hstop⟩ := ih (by simpa using h)
      exact ⟨stop, rest, congrArg (c :: ·) ht, hstop⟩

theorem isMute_of_isContinue (h : Identifier.isContinue edition c) : isMute c := by
  refine isMute_iff.mpr fun hm => ?_
  have hall : ∀ x ∈ "\\()[]".toList, Identifier.isContinue edition x = false :=
    Lexer.forall_mem_of_all (by decide +kernel)
  simp [hall c hm] at h

theorem isMute_of_isStart (h : Identifier.isStart edition c) : isMute c := by
  refine isMute_of_isContinue ?_
  unfold Identifier.isStart at h
  unfold Identifier.isContinue Identifier.hasIdContinue
  grind

namespace Blind

variable {α : Type} {read : Text → α}

theorem drop (hr : Blind read) (n : Nat) (h : ∀ x ∈ t.take n, isMute x) :
    read t = read (t.drop n) := by
  induction n generalizing t with
  | zero => rfl
  | succ n ih =>
    cases t with
    | nil => rfl
    | cons c t =>
      rw [List.take_succ_cons, List.forall_mem_cons] at h
      rw [hr.mute h.1, List.drop_succ_cons, ih h.2]

theorem braced (hr : Blind read) {body : Text}
    (hl : (body.takeWhile (· != '}')).length < body.length)
    (hm : ∀ x ∈ body.takeWhile (· != '}'), isMute x) :
    read ('{' :: body) =
      read (('{' :: body).drop ((body.takeWhile (· != '}')).length + 2)) := by
  obtain ⟨stop, rest, hbody, hstop⟩ := exists_stop hl
  obtain rfl : stop = '}' := by simpa using hstop
  generalize body.takeWhile (· != '}') = inside at hbody hm
  subst hbody
  refine hr.drop _ fun x hx => ?_
  have htake : ('{' :: (inside ++ '}' :: rest)).take (inside.length + 2) =
      '{' :: inside ++ ['}'] := by
    simp [List.take_append]
  rw [htake] at hx
  obtain rfl | hx := List.mem_cons.mp hx
  · decide
  · obtain hx | hx := List.mem_append.mp hx
    · exact hm x hx
    · obtain rfl := List.mem_singleton.mp hx
      decide

theorem codePoint (hr : Blind read) (h : UnicodeEscape.code? t = some (code, n)) :
    read t = read (t.drop n) := by
  obtain ⟨⟨numeral, length⟩, hnumeral, h⟩ := Option.bind_eq_some_iff.mp h
  obtain ⟨code', hcode, h⟩ := Option.bind_eq_some_iff.mp h
  obtain ⟨-, rfl⟩ := Prod.mk.inj (Option.some.inj h)
  have hmute := isMute_of_hexNumeral hcode
  unfold UnicodeEscape.numeral? at hnumeral
  split at hnumeral
  · simp only at hnumeral
    split at hnumeral
    · obtain ⟨rfl, rfl⟩ := Prod.mk.inj (Option.some.inj hnumeral)
      exact hr.braced ‹_› hmute
    · cases hnumeral
  · split at hnumeral
    · obtain ⟨rfl, rfl⟩ := Prod.mk.inj (Option.some.inj hnumeral)
      exact hr.drop 4 hmute
    · cases hnumeral

theorem lowSurrogate (hr : Blind read) {low : Nat} (h : lowSurrogate? t = some low) :
    read t = read (t.drop 4) := by
  unfold lowSurrogate? at h
  split at h
  · exact hr.drop 4 (isMute_of_hexNumeral (Option.filter_eq_some_iff.mp h).1)
  · cases h

theorem unicodeEscape (hr : Blind read) (h : unicodeEscape? t = some (code, n)) :
    read t = read (t.drop n) := by
  obtain ⟨⟨first, length⟩, hfirst, h⟩ := Option.bind_eq_some_iff.mp h
  have hskip := hr.codePoint hfirst
  simp only at h
  split at h
  · cases h
  · split at h
    · obtain ⟨-, rfl⟩ := Prod.mk.inj (Option.some.inj h)
      exact hskip
    · split at h
      · rename_i rest hrest
        have hpair : read t = read rest := by
          rw [hskip, hrest, hr.hidden (by decide)]
        split at h
        · rename_i low hlow
          obtain ⟨-, rfl⟩ := Prod.mk.inj (Option.some.inj h)
          rw [hpair, hr.lowSurrogate hlow, ← List.drop_drop, hrest]
          rfl
        · obtain ⟨-, rfl⟩ := Prod.mk.inj (Option.some.inj h)
          rw [hpair, ← List.drop_drop, hrest]
          rfl
      · obtain ⟨-, rfl⟩ := Prod.mk.inj (Option.some.inj h)
        exact hskip

theorem nameChar (hr : Blind read) {extra : Nat} (h : nameChar? c t = some (d, extra))
    (hd : isMute d) : read (c :: t) = read (t.drop extra) := by
  unfold nameChar? at h
  split at h
  · obtain ⟨⟨code, length⟩, hunicode, h⟩ := Option.bind_eq_some_iff.mp h
    obtain ⟨e, -, h⟩ := Option.bind_eq_some_iff.mp h
    obtain ⟨-, rfl⟩ := Prod.mk.inj (Option.some.inj h)
    rw [hr.hidden (by decide), hr.unicodeEscape hunicode]
    rfl
  · obtain ⟨rfl, rfl⟩ := Prod.mk.inj (Option.some.inj h)
    exact hr.mute hd

theorem nameRest (hr : Blind read) {name : Text} (h : nameRest? t = some (name, n)) :
    read t = read (t.drop n) := by
  fun_induction nameRest? t generalizing name n with
  | case1 => cases h
  | case2 c rest extra hc =>
    obtain ⟨-, rfl⟩ := Prod.mk.inj (Option.some.inj h)
    exact hr.nameChar hc (by decide)
  | case3 c rest d extra hc hend hcontinue ih =>
    obtain ⟨⟨name, length⟩, hrest, h⟩ := Option.map_eq_some_iff.mp h
    obtain ⟨-, rfl⟩ := Prod.mk.inj h
    rw [hr.nameChar hc (isMute_of_isContinue hcontinue), ih hrest, List.drop_drop]
    rfl
  | case4 => cases h
  | case5 => cases h

theorem groupName (hr : Blind read) {name : Text} (h : name? t = some (name, n)) :
    read t = read (t.drop n) := by
  unfold name? at h
  split at h
  · cases h
  · split at h
    · split at h
      · rename_i hc hstart
        obtain ⟨⟨name, length⟩, hrest, h⟩ := Option.map_eq_some_iff.mp h
        obtain ⟨-, rfl⟩ := Prod.mk.inj h
        rw [hr.nameChar hc (isMute_of_isStart hstart), hr.nameRest hrest, List.drop_drop]
        rfl
      · cases h
    · cases h

end Blind

theorem brackets_hidden (hc : c ≠ 'x') :
    brackets context ('\\' :: c :: t) = brackets context t := by
  rw [brackets, if_neg (by simp [hc])]

theorem blind_brackets (context : Context) : Blind (brackets context) where
  mute hc := brackets_plain (isPlain_of_isMute hc context) _
  hidden := brackets_hidden

-- ---------------------------------------------------------------------------
-- Characters
-- ---------------------------------------------------------------------------

theorem octalDigits_mute (c : Char) (t : Text) :
    ∀ x ∈ t.take ((octalDigits c t).length - 1), isMute x := by
  intro x hx
  have hrun := List.prefix_iff_eq_take.mp
    ((List.takeWhile_prefix (l := t.take (if c ≤ '3' then 2 else 1)) Text.isOctalDigit).trans
      (List.take_prefix _ t))
  rw [octalDigits, List.length_cons, Nat.add_sub_cancel, ← hrun] at hx
  exact isMute_of_isSoft (Lexer.isSoft_of_isOctalDigit (Lexer.all_takeWhile x hx))

theorem hexPair_mute (h : hexPair? t = some code) : ∀ x ∈ t.take 2, isMute x := by
  unfold hexPair? at h
  split at h
  · exact fun x hx => isMute_of_isHexDigit (isHexDigit_of_hexDigits h x hx)
  · cases h

theorem brackets_character (hx : c = 'x' → (t.take 2).all (IsPlain context ·))
    (h : characterEscape? wide c t = some (code, n)) :
    ∃ m, n = m + 1 ∧ brackets context t = brackets context (t.drop m) := by
  unfold characterEscape? at h
  split at h
  case h_1 | h_2 | h_3 | h_4 | h_5 =>
    obtain ⟨rfl, rfl⟩ := Prod.mk.inj (Option.some.inj h)
    exact ⟨0, rfl, rfl⟩
  · split at h
    · rename_i halpha
      obtain ⟨d, hd, h⟩ := Option.map_eq_some_iff.mp h
      obtain ⟨-, rfl⟩ := Prod.mk.inj h
      obtain ⟨rest, rfl⟩ := List.head?_eq_some_iff.mp hd
      have hmute : isMute d := isMute_of_isSoft (Lexer.isSoft_of_isAlpha halpha)
      exact ⟨1, rfl, (blind_brackets _).drop 1 (by simpa using hmute)⟩
    · cases h
  · have hskip := brackets_drop 2 (by simpa using hx rfl)
    split at h
    · obtain ⟨-, rfl⟩ := Prod.mk.inj (Option.some.inj h)
      exact ⟨2, rfl, hskip⟩
    · split at h
      · cases h
      · obtain ⟨-, rfl⟩ := Prod.mk.inj (Option.some.inj h)
        have hdrop : t.drop (t.take 2).length = t.drop 2 := by
          rcases t with _ | ⟨_, _ | ⟨_, _⟩⟩ <;> rfl
        exact ⟨_, rfl, by rw [hdrop, hskip]⟩
  · split at h
    · rename_i hunicode
      obtain ⟨-, rfl⟩ := Prod.mk.inj (Option.some.inj h)
      exact ⟨_, rfl, (blind_brackets context).unicodeEscape hunicode⟩
    · split at h
      · cases h
      · obtain ⟨-, rfl⟩ := Prod.mk.inj (Option.some.inj h)
        exact ⟨0, rfl, rfl⟩
  · split at h
    · obtain ⟨-, rfl⟩ := Prod.mk.inj (Option.some.inj h)
      exact ⟨0, rfl, rfl⟩
    · split at h
      · obtain ⟨-, rfl⟩ := Prod.mk.inj (Option.some.inj h)
        exact ⟨_, rfl, (blind_brackets _).drop _ (octalDigits_mute c t)⟩
      · split at h
        · obtain ⟨-, rfl⟩ := Prod.mk.inj (Option.some.inj h)
          exact ⟨0, rfl, rfl⟩
        · cases h

theorem brackets_characterEscape (hl : Tight wide context ('\\' :: c :: t))
    (h : characterEscape? wide c t = some (code, n)) :
    ∃ m, n = m + 1 ∧ brackets context ('\\' :: c :: t) = brackets context (t.drop m) := by
  have hx : c = 'x' → (t.take 2).all (IsPlain context ·) := by
    rintro rfl
    by_contra hplain
    cases wide with
    | false =>
      refine hl rfl ?_
      rw [brackets, if_pos ⟨rfl, hplain⟩]
      exact List.mem_cons_self
    | true =>
      cases hp : hexPair? t with
      | none => simp [characterEscape?, hp] at h
      | some code =>
        refine hplain (List.all_eq_true.mpr fun x hx => decide_eq_true ?_)
        exact isPlain_of_isMute (hexPair_mute hp x hx) context
  rw [brackets, if_neg fun h => h.2 (hx h.1)]
  exact brackets_character hx h

-- ---------------------------------------------------------------------------
-- Classes
-- ---------------------------------------------------------------------------

theorem brackets_propertyBody (h : Grammar.propertyLength? t = some n) :
    brackets context t = brackets context (t.drop n) := by
  unfold Grammar.propertyLength? at h
  split at h
  · simp only at h
    split at h
    · rename_i hname
      rw [Bool.and_eq_true, decide_eq_true_eq, List.contains_eq_mem, decide_eq_true_eq] at hname
      obtain rfl := Option.some.inj h
      refine (blind_brackets context).braced hname.1 fun x hx => ?_
      have hall : ∀ name ∈ properties, name.all isMute := by decide
      exact List.all_eq_true.mp (hall _ hname.2) x hx
    · cases h
  · cases h

theorem brackets_classEscape {atom : ClassAtom} (hl : Tight wide .charClass ('\\' :: c :: t))
    (h : classEscape? wide c t = some (atom, n)) :
    brackets .charClass ('\\' :: c :: t) = brackets .charClass ((c :: t).drop n) := by
  unfold classEscape? at h
  have one : c ≠ 'x' →
      brackets .charClass ('\\' :: c :: t) = brackets .charClass ((c :: t).drop 1) :=
    brackets_hidden
  split at h
  · subst c
    obtain ⟨-, rfl⟩ := Prod.mk.inj (Option.some.inj h)
    exact one (by decide)
  · split at h
    · rename_i hdash
      rw [Bool.and_eq_true, beq_iff_eq] at hdash
      obtain ⟨-, rfl⟩ := hdash
      obtain ⟨-, rfl⟩ := Prod.mk.inj (Option.some.inj h)
      exact one (by decide)
    · split at h
      · rename_i hcontrol
        rw [Bool.and_eq_true, beq_iff_eq] at hcontrol
        obtain ⟨-, rfl⟩ := hcontrol
        have hlone : brackets .charClass ('\\' :: 'c' :: t) = brackets .charClass ('c' :: t) :=
          (one (by decide)).trans (brackets_plain (isPlain_of_isMute (by decide) _) t).symm
        split at h
        · split at h
          · rename_i d rest hd
            obtain ⟨-, rfl⟩ := Prod.mk.inj (Option.some.inj h)
            have hsoft : Lexer.isSoft d := by
              rw [Bool.or_eq_true] at hd
              obtain hd | hd := hd
              · exact Lexer.isSoft_of_isAlphanum hd
              · simp [Lexer.isSoft, hd]
            exact (one (by decide)).trans
              (brackets_plain (isPlain_of_isMute (isMute_of_isSoft hsoft) _) rest)
          · obtain ⟨-, rfl⟩ := Prod.mk.inj (Option.some.inj h)
            exact hlone
        · obtain ⟨-, rfl⟩ := Prod.mk.inj (Option.some.inj h)
          exact hlone
      · split at h
        · rename_i hset
          obtain ⟨-, rfl⟩ := Prod.mk.inj (Option.some.inj h)
          exact one (by rintro rfl; simp [isShorthand] at hset)
        · split at h
          · rename_i hproperty
            obtain ⟨length, hbody, h⟩ := Option.map_eq_some_iff.mp h
            obtain ⟨-, rfl⟩ := Prod.mk.inj h
            rw [one (by rintro rfl; simp at hproperty)]
            exact brackets_propertyBody hbody
          · obtain ⟨⟨code, length⟩, hescape, h⟩ := Option.map_eq_some_iff.mp h
            obtain ⟨-, rfl⟩ := Prod.mk.inj h
            obtain ⟨m, rfl, hskip⟩ := brackets_characterEscape hl hescape
            exact hskip

theorem brackets_classAtom {atom : ClassAtom} (hc : c ≠ ']') (hl : Tight wide .charClass (c :: t))
    (h : classAtom? wide c t = some (atom, n)) :
    brackets .charClass (c :: t) = brackets .charClass (t.drop n) := by
  unfold classAtom? at h
  split at h
  · rename_i hb
    subst hb
    split at h
    · cases h
    · exact brackets_classEscape hl h
  · obtain ⟨-, rfl⟩ := Prod.mk.inj (Option.some.inj h)
    exact brackets_plain ⟨‹_›, hc⟩ t

theorem Tight.of_eq {context' : Context} {t' : Text} (hl : Tight wide context t)
    (h : brackets context t = brackets context' t') : Tight wide context' t' := by
  rwa [Tight, h] at hl

theorem brackets_classRange (hc : c ≠ ']') (hl : Tight wide .charClass (c :: t))
    (h : classRange? wide c t = some n) :
    brackets .charClass (c :: t) = brackets .charClass (t.drop n) := by
  obtain ⟨⟨first, length⟩, hfirst, h⟩ := Option.bind_eq_some_iff.mp h
  have hskip := brackets_classAtom hc hl hfirst
  simp only at h
  split at h
  · rename_i d after hafter
    split at h
    · obtain rfl := Option.some.inj h
      exact hskip
    · rename_i hd
      obtain ⟨⟨last, more⟩, hlast, h⟩ := Option.bind_eq_some_iff.mp h
      have hdash : brackets .charClass (c :: t) = brackets .charClass (d :: after) := by
        rw [hskip, hafter, brackets_plain (isPlain_of_isMute (by decide) _)]
      simp only at h
      split at h
      · obtain rfl := Option.some.inj h
        rw [hdash, brackets_classAtom hd (hl.of_eq hdash) hlast, Nat.add_assoc, ← List.drop_drop,
          hafter]
        rfl
      · cases h
  · obtain rfl := Option.some.inj h
    exact hskip

theorem brackets_classMembers (hl : Tight wide .charClass t) (h : classMembers? wide t = some n) :
    brackets .charClass t = brackets .pattern (t.drop n) := by
  fun_induction classMembers? wide t generalizing n with
  | case1 => cases h
  | case2 rest =>
    obtain rfl := Option.some.inj h
    rw [brackets]
    rfl
  | case3 c rest hc extra hrange ih =>
    obtain ⟨m, hm, rfl⟩ := Option.map_eq_some_iff.mp h
    have hskip := brackets_classRange hc hl hrange
    rw [hskip, ih (hl.of_eq hskip) hm, List.drop_drop, Nat.add_comm m extra]
    rfl
  | case4 => cases h

theorem brackets_classLength (hl : Tight wide .charClass t) (h : classLength? wide t = some n) :
    brackets .charClass t = brackets .pattern (t.drop n) := by
  unfold classLength? at h
  split at h
  · obtain ⟨m, hm, rfl⟩ := Option.map_eq_some_iff.mp h
    have hcaret := brackets_plain (isPlain_of_isMute (by decide : isMute '^') .charClass) ‹_›
    rw [hcaret, brackets_classMembers (hl.of_eq hcaret) hm]
    rfl
  · exact brackets_classMembers hl h

-- ---------------------------------------------------------------------------
-- Terms
-- ---------------------------------------------------------------------------

theorem brackets_namedReference {names : List Text}
    (h : namedReferenceLength? wide names t = some n) :
    brackets .pattern t = brackets .pattern (t.drop n) := by
  unfold namedReferenceLength? at h
  split at h
  · split at h
    · rename_i rest
      obtain ⟨⟨name, length⟩, hname, h⟩ := Option.bind_eq_some_iff.mp h
      simp only at h
      split at h
      · obtain rfl := Option.some.inj h
        rw [brackets_plain (isPlain_of_isMute (by decide) _),
          (blind_brackets .pattern).groupName hname]
        rfl
      · cases h
    · cases h
  · obtain rfl := Option.some.inj h
    rfl

theorem brackets_escapeLength {found : Survey} (hl : Tight wide .pattern ('\\' :: c :: t))
    (h : escapeLength? wide found c t = some n) :
    brackets .pattern ('\\' :: c :: t) = brackets .pattern ((c :: t).drop n) := by
  have one : c ≠ 'x' →
      brackets .pattern ('\\' :: c :: t) = brackets .pattern ((c :: t).drop 1) :=
    brackets_hidden
  have character : (characterEscape? wide c t).map Prod.snd = some n →
      brackets .pattern ('\\' :: c :: t) = brackets .pattern ((c :: t).drop n) := by
    intro h
    obtain ⟨⟨code, length⟩, hescape, rfl⟩ := Option.map_eq_some_iff.mp h
    obtain ⟨m, rfl, hskip⟩ := brackets_characterEscape hl hescape
    exact hskip
  unfold escapeLength? at h
  simp only at h
  split at h
  · rename_i hc
    obtain rfl := Option.some.inj h
    exact one (by rintro rfl; simp [isShorthand] at hc)
  · split at h
    · rename_i hcontrol
      rw [Bool.and_eq_true, beq_iff_eq] at hcontrol
      obtain ⟨-, rfl⟩ := hcontrol
      obtain rfl := Option.some.inj h
      rw [one (by decide)]
      cases t with
      | nil => rfl
      | cons d t =>
        split
        · rename_i halpha
          have hmute : isMute d :=
            isMute_of_isSoft (Lexer.isSoft_of_isAlpha (by simpa using halpha))
          exact (blind_brackets _).drop 1 (by simpa using hmute)
        · rfl
    · split at h
      · rename_i hproperty
        obtain ⟨length, hbody, rfl⟩ := Option.map_eq_some_iff.mp h
        rw [one (by rintro rfl; simp at hproperty)]
        exact brackets_propertyBody hbody
      · split at h
        · rename_i hdigit
          rw [Bool.and_eq_true] at hdigit
          split at h
          · obtain rfl := Option.some.inj h
            have hlength : (Text.leadingDigits (c :: t)).length =
                (t.takeWhile Char.isDigit).length + 1 := by
              rw [Text.leadingDigits, List.takeWhile_cons_of_pos hdigit.1, List.length_cons]
            rw [one (by rintro rfl; simp at hdigit), hlength]
            refine (blind_brackets _).drop (t := t) _ fun x hx => ?_
            rw [← List.prefix_iff_eq_take.mp (List.takeWhile_prefix _)] at hx
            exact isMute_of_isSoft (Lexer.isSoft_of_isDigit (Lexer.all_takeWhile x hx))
          · split at h
            · cases h
            · exact character h
        · split at h
          · subst c
            obtain ⟨length, hname, rfl⟩ := Option.map_eq_some_iff.mp h
            rw [one (by decide)]
            exact brackets_namedReference hname
          · exact character h

theorem brackets_lazy (t : Text) :
    brackets .pattern t = brackets .pattern (t.drop (lazyLength t)) := by
  unfold lazyLength
  split
  · exact brackets_plain (isPlain_of_isMute (by decide) _) _
  · rfl

theorem brackets_quantifier (h : quantifierLength? wide t = some n) :
    brackets .pattern t = brackets .pattern (t.drop n) := by
  have one : ∀ {c : Char} {rest : Text}, isMute c →
      brackets .pattern (c :: rest) =
        brackets .pattern ((c :: rest).drop (1 + lazyLength rest)) := by
    intro c rest hc
    refine (brackets_plain (isPlain_of_isMute hc _) rest).trans ?_
    rw [Nat.add_comm, List.drop_succ_cons]
    exact brackets_lazy rest
  unfold quantifierLength? at h
  split at h
  case h_1 | h_2 | h_3 =>
    obtain rfl := Option.some.inj h
    exact one (by decide)
  · rename_i rest
    have hbrace : brackets .pattern ('{' :: rest) = brackets .pattern rest :=
      brackets_plain (isPlain_of_isMute (by decide) _) rest
    split at h
    · rename_i length hlength
      split at h
      · obtain rfl := Option.some.inj h
        have hsoft := Lexer.reads_quantifier.soft Lexer.bounds_soft hlength
        rw [hbrace, brackets_soft length hsoft, brackets_lazy, List.drop_drop, Nat.add_assoc,
          Nat.add_comm 1]
        rfl
      · cases h
    · split at h
      · cases h
      · obtain rfl := Option.some.inj h
        rfl
  · obtain rfl := Option.some.inj h
    rfl

theorem brackets_modifiers (h : modifiersLength? t = some n) :
    brackets .pattern t = brackets .pattern (t.drop n) := by
  unfold modifiersLength? at h
  simp only at h
  split at h
  · rename_i hm
    rw [Bool.and_eq_true, Bool.and_eq_true, decide_eq_true_eq, List.all_eq_true] at hm
    obtain ⟨⟨hlength, -⟩, hall⟩ := hm
    obtain rfl := Option.some.inj h
    obtain ⟨stop, rest, ht, hstop⟩ := exists_stop hlength
    obtain rfl : stop = ':' := by simpa using hstop
    have htake : ∀ {front : Text}, t = front ++ ':' :: rest →
        t.take (front.length + 1) = front ++ [':'] := by
      rintro front rfl
      simp [List.take_append]
    have hletters : ∀ x ∈ "ims-".toList, isMute x := Lexer.forall_mem_of_all (by decide)
    refine (blind_brackets _).drop _ fun x hx => ?_
    rw [htake ht] at hx
    obtain hx | hx := List.mem_append.mp hx
    · have hletter := hall x hx
      rw [Bool.and_eq_true, List.contains_eq_mem, decide_eq_true_eq] at hletter
      exact hletters x hletter.1
    · obtain rfl := List.mem_singleton.mp hx
      decide
  · cases h

theorem brackets_opener {term : Term} (h : opener? wide t = some (term, n)) :
    (∃ repeatable, term = .opening (opensCapture t) repeatable) ∧
      brackets .pattern t = brackets .pattern (t.drop n) := by
  have mute : ∀ {t : Text} (n : Nat), (t.take n).all isMute →
      brackets .pattern t = brackets .pattern (t.drop n) := fun n hall =>
    (blind_brackets _).drop n (List.all_eq_true.mp hall)
  unfold opener? at h
  split at h
  case h_1 | h_2 | h_3 =>
    obtain ⟨rfl, rfl⟩ := Prod.mk.inj (Option.some.inj h)
    exact ⟨⟨_, rfl⟩, mute 2 rfl⟩
  case h_4 | h_5 =>
    obtain ⟨rfl, rfl⟩ := Prod.mk.inj (Option.some.inj h)
    exact ⟨⟨_, rfl⟩, mute 3 rfl⟩
  · rename_i rest hbehind hbehindNot
    obtain ⟨⟨name, length⟩, hname, h⟩ := Option.map_eq_some_iff.mp h
    obtain ⟨rfl, rfl⟩ := Prod.mk.inj h
    have hcapture : opensCapture ('?' :: '<' :: rest) = true := by
      unfold opensCapture
      split <;> grind
    rw [hcapture, mute 2 rfl]
    exact ⟨⟨_, rfl⟩, (blind_brackets .pattern).groupName hname⟩
  · rename_i rest _ _ _ _ _ hname
    obtain ⟨length, hmodifiers, h⟩ := Option.map_eq_some_iff.mp h
    obtain ⟨rfl, rfl⟩ := Prod.mk.inj h
    have hcapture : opensCapture ('?' :: rest) = false := by
      unfold opensCapture
      split <;> simp_all
    rw [hcapture, mute 1 rfl]
    exact ⟨⟨_, rfl⟩, brackets_modifiers hmodifiers⟩
  · obtain ⟨rfl, rfl⟩ := Prod.mk.inj (Option.some.inj h)
    have hcapture : opensCapture t = true := by
      unfold opensCapture
      split <;> simp_all
    rw [hcapture]
    exact ⟨⟨_, rfl⟩, rfl⟩

end Splice.Source

namespace Splice.Grammar.Term

/-- The brackets of what the grammar takes for a term. -/
def brackets : Term → List Bracket
  | .atom | .divider => []
  | .opening captures _ => [.opens captures]
  | .closing => [.closes]

end Splice.Grammar.Term

namespace Splice.Source

open Grammar

variable {wide : Bool} {found : Survey} {c : Char} {t : Text} {n : Nat}

theorem brackets_term {term : Term} (hl : Tight wide .pattern (c :: t))
    (h : term? wide found c t = some (term, n)) :
    brackets .pattern (c :: t) = term.brackets ++ brackets .pattern (t.drop n) := by
  unfold term? at h
  split at h
  case h_1 | h_2 | h_3 =>
    obtain ⟨rfl, rfl⟩ := Prod.mk.inj (Option.some.inj h)
    exact brackets_plain (isPlain_of_isMute (by decide) _) t
  · obtain ⟨⟨repeatable, rfl⟩, hskip⟩ := brackets_opener h
    rw [brackets, hskip]
    rfl
  · obtain ⟨rfl, rfl⟩ := Prod.mk.inj (Option.some.inj h)
    rw [brackets]
    rfl
  · obtain ⟨length, hclass, h⟩ := Option.map_eq_some_iff.mp h
    obtain ⟨rfl, rfl⟩ := Prod.mk.inj h
    have hopen : brackets .pattern ('[' :: t) = brackets .charClass t := by rw [brackets]
    rw [hopen]
    exact brackets_classLength (hl.of_eq hopen) hclass
  · split at h
    · cases h
    · obtain ⟨length, hescape, h⟩ := Option.map_eq_some_iff.mp h
      obtain ⟨rfl, rfl⟩ := Prod.mk.inj h
      exact brackets_escapeLength hl hescape
  case h_8 | h_9 | h_10 => cases h
  · split at h
    · cases h
    · obtain ⟨rfl, rfl⟩ := Prod.mk.inj (Option.some.inj h)
      exact brackets_plain (isPlain_of_isMute (by decide) _) t
  case h_12 | h_13 =>
    split at h
    · cases h
    · obtain ⟨rfl, rfl⟩ := Prod.mk.inj (Option.some.inj h)
      exact brackets_plain (by simp [IsPlain]) t
  · obtain ⟨rfl, rfl⟩ := Prod.mk.inj (Option.some.inj h)
    exact brackets_plain (by simp_all [IsPlain]) t

/-- Brackets that close as many groups as are open, and of which as many capture
as bring one count to another. -/
structure Balanced (depth captures total : Nat) (brackets : List Bracket) : Prop where
  tight : .loose ∉ brackets
  closed : Bracket.depth? depth brackets = some 0
  count : total = captures + brackets.countP Bracket.isCapture

theorem Balanced.opens {depth captures total : Nat} {brackets : List Bracket} {capturing : Bool}
    (h : Balanced (depth + 1) (captures + capturing.toNat) total brackets) :
    Balanced depth captures total (.opens capturing :: brackets) where
  tight := by simpa using h.tight
  closed := h.closed
  count := by
    rw [h.count, List.countP_cons]
    cases capturing <;> simp [Bracket.isCapture, Nat.add_comm, Nat.add_left_comm]

theorem Balanced.closes {depth captures total : Nat} {brackets : List Bracket}
    (h : Balanced depth captures total brackets) :
    Balanced (depth + 1) captures total (.closes :: brackets) where
  tight := by simpa using h.tight
  closed := h.closed
  count := by rw [h.count, List.countP_cons]; rfl

/-- The brackets of a text that the grammar reads to its end balance, and as many
of them capture as the grammar has counted. -/
theorem balanced_readFrom {groups : List Bool} {captures : Nat} (hl : Tight wide .pattern t)
    (h : readFrom wide found groups captures t = some n) :
    Balanced groups.length captures n (brackets .pattern t) := by
  fun_induction readFrom wide found groups captures t with
  | case1 groups captures hgroups =>
    obtain rfl := Option.some.inj h
    obtain rfl := List.isEmpty_iff.mp hgroups
    exact ⟨by simp [brackets], rfl, rfl⟩
  | case2 | case3 | case7 | case8 | case11 => cases h
  | case4 groups captures c rest length hterm ih =>
    have hskip : brackets .pattern (c :: rest) = _ := brackets_term hl hterm
    exact hskip ▸ ih (hl.of_eq hskip) h
  | case5 groups captures c rest capturing repeatable length hterm ih =>
    have hskip := brackets_term hl hterm
    have htight : Tight wide .pattern (rest.drop length) := fun hwide hmem =>
      hl hwide (hskip ▸ List.mem_append_right _ hmem)
    exact hskip ▸ (ih htight h).opens
  | case6 groups captures c rest length hterm more hmore ih =>
    have hskip : brackets .pattern (c :: rest) = _ :=
      (brackets_term hl hterm).trans (brackets_quantifier hmore)
    rw [List.drop_drop] at hskip
    exact hskip ▸ ih (hl.of_eq hskip) h
  | case9 captures c rest length hterm groups ih =>
    have hskip := brackets_term hl hterm
    have htight : Tight wide .pattern (rest.drop length) := fun hwide hmem =>
      hl hwide (hskip ▸ List.mem_append_right _ hmem)
    exact hskip ▸ (ih htight h).closes
  | case10 captures c rest length hterm groups more hmore ih =>
    have hskip := brackets_term hl hterm
    rw [brackets_quantifier hmore, List.drop_drop] at hskip
    have htight : Tight wide .pattern (rest.drop (length + more)) := fun hwide hmem =>
      hl hwide (hskip ▸ List.mem_append_right _ hmem)
    exact hskip ▸ (ih htight h).closes

-- ---------------------------------------------------------------------------
-- What the lexer sees of it
-- ---------------------------------------------------------------------------

/-- The lexer sees the groups and classes that the grammar reads: in the tokens
of a well-formed source nothing is missing, the last class is closed, groups
nest, and as many of them capture as the grammar counts. -/
theorem lex_captures (h : captures? wide t = some n) (hl : Tight wide .pattern t)
    (hn : ∀ x ∈ lex t, x.opensInName = false) :
    (∀ x ∈ lex t, x.kind ≠ .garbage) ∧ contextBehind .pattern (lex t) = .pattern ∧
      (∀ front, front <+: lex t → 0 ≤ (front.map Token.nesting).sum) ∧
        ((lex t).map Token.nesting).sum = 0 ∧ captureCount t = n := by
  obtain ⟨found, -, h⟩ := Option.bind_eq_some_iff.mp h
  have hbalanced := balanced_readFrom hl h
  have htokens : bracketsOf .pattern (lex t) = brackets .pattern t :=
    bracketsOf_lexFrom hn hbalanced.tight
  rw [← htokens] at hbalanced
  obtain ⟨hwhole, hcontext, hnonneg, hsum⟩ := bracketsOf_depth? hbalanced.closed
  refine ⟨hwhole, hcontext, fun front hf => ?_, by simpa using hsum, ?_⟩
  · simpa using hnonneg front hf
  · rw [hbalanced.count, bracketsOf_captures, Nat.zero_add]
    rfl

theorem lex_captures_named :
    contextBehind .pattern (lex "(?<n>[(\\])]\\x41)(?:$ ^d:0,n:1)".toList) = .pattern ∧
      captureCount "(?<n>[(\\])]\\x41)(?:$ ^d:0,n:1)".toList = 1 := by
  have h : captures? false "(?<n>[(\\])]\\x41)(?:$ ^d:0,n:1)".toList = some 1 := by decide +kernel
  have hlex := lex_captures h (by decide +kernel) (by decide +kernel)
  exact ⟨hlex.2.1, hlex.2.2.2.2⟩

/-- Behind a `\x` that names no character the grammar takes two characters with it,
and the lexer none. -/
theorem not_lex_captures_hex :
    captures? false "\\x(a".toList = some 0 ∧ captureCount "\\x(a".toList = 1 := by
  decide +kernel

end Splice.Source
