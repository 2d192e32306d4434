import Splice.Grammar.Pattern
import Splice.Proofs.Members

/-!
# The survey of a source

The grammar surveys parentheses and names character by character. For a source
in which the scan for wide problems finds nothing, the survey can be told from
the tokens, one opener after the other, and promotion does not change it.
-/

namespace Splice

open Lexer Grammar

-- ---------------------------------------------------------------------------
-- Characters of a survey
-- ---------------------------------------------------------------------------

namespace Grammar

variable {inClass : Bool} {found found' : Survey} {c : Char} {w Y : Text}

def isIdle (c : Char) : Bool := !"\\([]".toList.contains c

theorem surveyFrom_idle (hc : isIdle c) :
    surveyFrom inClass found (c :: Y) = surveyFrom inClass found Y := by
  rw [surveyFrom]
  all_goals
    rintro rfl
    cases hc

theorem surveyFrom_idles (hw : ∀ x ∈ w, isIdle x) :
    surveyFrom inClass found (w ++ Y) = surveyFrom inClass found Y := by
  induction w with
  | nil => rfl
  | cons c w ih =>
    rw [List.forall_mem_cons] at hw
    rw [List.cons_append, surveyFrom_idle hw.1, ih hw.2]

theorem surveyFrom_hidden : surveyFrom inClass found ('\\' :: c :: Y) =
    surveyFrom inClass found Y := by
  rw [surveyFrom]
  rfl

theorem surveyFrom_open : surveyFrom inClass found ('[' :: Y) = surveyFrom true found Y := by
  rw [surveyFrom]

theorem surveyFrom_close : surveyFrom inClass found (']' :: Y) = surveyFrom false found Y := by
  rw [surveyFrom]

theorem surveyFrom_group : surveyFrom false found ('(' :: Y) =
    (found.add Y).bind fun found => surveyFrom false found Y := by
  rw [surveyFrom]
  simp only [Bool.false_eq_true, if_false]
  cases found.add Y <;> rfl

theorem surveyFrom_group_class : surveyFrom true found ('(' :: Y) = surveyFrom true found Y := by
  rw [surveyFrom]
  rfl

theorem isIdle_of_isMute (h : Source.isMute c) : isIdle c := by
  have hall : ∀ x ∈ "\\([]".toList, Source.isMute x = false := forall_mem_of_all (by decide)
  unfold isIdle
  rw [Bool.not_eq_eq_eq_not, Bool.not_true, List.contains_eq_mem, decide_eq_false_iff_not]
  intro hm
  rw [hall c hm] at h
  cases h

theorem blind_surveyFrom (inClass : Bool) (found : Survey) :
    Source.Blind (surveyFrom inClass found) where
  mute hc := surveyFrom_idle (isIdle_of_isMute hc)
  hidden _ := surveyFrom_hidden

end Grammar

-- ---------------------------------------------------------------------------
-- Names of references
-- ---------------------------------------------------------------------------

section
variable {raw name t Y : Text} {c d : Char} {n : Nat}

theorem code_of_char (h : UnicodeEscape.char? t = some (c, n)) :
    ∃ code, UnicodeEscape.code? t = some (code, n) ∧ Text.scalar? code = some c := by
  obtain ⟨⟨code, length⟩, hcode, h⟩ := Option.bind_eq_some_iff.mp h
  obtain ⟨d, hscalar, h⟩ := Option.bind_eq_some_iff.mp h
  obtain ⟨rfl, rfl⟩ := Prod.mk.inj (Option.some.inj h)
  exact ⟨code, hcode, hscalar⟩

theorem le_maxCodePoint_of_scalar {code : Nat} (h : Text.scalar? code = some c) :
    code ≤ maxCodePoint := by
  unfold Text.scalar? at h
  split at h
  · rename_i hvalid
    unfold maxCodePoint
    obtain hlt | hlt := hvalid <;> omega
  · cases h

theorem unicodeEscape_of_char (h : UnicodeEscape.char? t = some (c, n)) :
    ∃ code, unicodeEscape? t = some (code, n) ∧ Text.scalar? code = some c := by
  obtain ⟨code, hcode, hscalar⟩ := code_of_char h
  have hmax : ¬ maxCodePoint < code := Nat.not_lt.mpr (le_maxCodePoint_of_scalar hscalar)
  refine ⟨code, ?_, hscalar⟩
  simp [unicodeEscape?, hcode, hmax, not_isHighSurrogate_of_scalar hscalar]

theorem char_append (h : UnicodeEscape.char? t = some (c, n)) :
    n ≤ t.length ∧ ∀ Y, UnicodeEscape.char? (t ++ Y) = some (c, n) := by
  obtain ⟨code, hcode, hscalar⟩ := code_of_char h
  obtain ⟨hlength, happend⟩ := code_append hcode
  exact ⟨hlength, fun Y => by simp [UnicodeEscape.char?, happend, hscalar]⟩

theorem nameChar_of_char (h : UnicodeEscape.char? t = some (c, n)) :
    nameChar? '\\' ('u' :: t) = some (c, n + 1) := by
  obtain ⟨code, hcode, hscalar⟩ := unicodeEscape_of_char h
  simp [nameChar?, hcode, hscalar]

theorem nameChar_of_ne (h : c ≠ '\\') : nameChar? c t = some (c, 0) := by
  unfold nameChar?
  split
  · exact absurd rfl h
  · rfl

theorem nameRest_cons (hc : nameChar? c t = some (d, n)) (hd : d ≠ '>') : nameRest? (c :: t) =
    if Identifier.isContinue edition d then
      (nameRest? (t.drop n)).map fun (name, length) => (d :: name, n + length + 1)
    else none := by
  rw [nameRest?, hc]
  simp only [if_neg hd]

theorem name_cons (hc : nameChar? c t = some (d, n)) : name? (c :: t) =
    if Identifier.isStart edition d then
      (nameRest? (t.drop n)).map fun (name, length) => (d :: name, n + length + 1)
    else none := by
  rw [name?, hc]

theorem unescape_cons (h : GroupName.unescape raw = some (d :: name)) :
    ∃ c t n, raw = c :: t ∧ n ≤ t.length ∧ GroupName.unescape (t.drop n) = some name ∧
      ∀ Y, nameChar? c (t ++ Y) = some (d, n) := by
  unfold GroupName.unescape at h
  split at h
  · cases h
  · rename_i t
    split at h
    · rename_i c length hc
      obtain ⟨_, hname, htext⟩ := Option.map_eq_some_iff.mp h
      obtain ⟨rfl, rfl⟩ := List.cons.inj htext
      obtain ⟨hlength, happend⟩ := char_append hc
      exact ⟨'\\', 'u' :: t, length + 1, rfl, by simpa using hlength, hname,
        fun Y => nameChar_of_char (happend Y)⟩
    · cases h
  · rename_i c t _
    split at h
    · cases h
    · rename_i hc
      obtain ⟨_, hname, htext⟩ := Option.map_eq_some_iff.mp h
      obtain ⟨rfl, rfl⟩ := List.cons.inj htext
      exact ⟨c, t, 0, rfl, Nat.zero_le _, hname, fun Y => nameChar_of_ne hc⟩

theorem unescape_nil (h : GroupName.unescape raw = some []) : raw = [] := by
  unfold GroupName.unescape at h
  split at h
  · rfl
  · split at h
    · simp at h
    · cases h
  · split at h
    · cases h
    · simp at h

theorem Source.Blind.unescape {α : Type} {read : Text → α} (hr : Source.Blind read)
    (h : GroupName.unescape raw = some name) (hm : ∀ x ∈ name, Source.isMute x) :
    read (raw ++ Y) = read Y := by
  induction name generalizing raw with
  | nil =>
    obtain rfl := unescape_nil h
    rfl
  | cons d name ih =>
    rw [List.forall_mem_cons] at hm
    obtain ⟨c, t, n, rfl, hlength, hrest, hc⟩ := unescape_cons h
    rw [List.cons_append, hr.nameChar (hc Y) hm.1, List.drop_append_of_le_length hlength,
      ih hrest hm.2]

theorem read_cons (hn : n ≤ t.length) (first rest : Bool) :
    (if first then
      (if rest then some (name, (t.drop n).length + 1) else none).map
        fun (name, length) => (d :: name, n + length + 1)
      else none) =
    if first && rest then some (d :: name, (c :: t).length + 1) else none := by
  cases first with
  | false => rfl
  | true =>
    cases rest with
    | false => rfl
    | true =>
      simp only [Bool.and_self, if_true, Option.map_some, List.length_drop, List.length_cons]
      congr 2
      omega

theorem nameRest_of_unescape (h : GroupName.unescape raw = some name) (hm : '>' ∉ name) :
    nameRest? (raw ++ '>' :: Y) =
      if name.all (Identifier.isContinue edition) then some (name, raw.length + 1) else none := by
  induction name generalizing raw with
  | nil =>
    obtain rfl := unescape_nil h
    have hc : nameChar? '>' Y = some ('>', 0) := nameChar_of_ne (by decide)
    rw [List.nil_append, nameRest?, hc]
    rfl
  | cons d name ih =>
    rw [List.mem_cons, not_or] at hm
    obtain ⟨c, t, n, rfl, hlength, hrest, hc⟩ := unescape_cons h
    rw [List.cons_append, nameRest_cons (hc _) (Ne.symm hm.1),
      List.drop_append_of_le_length hlength, ih hrest hm.2, List.all_cons]
    exact read_cons hlength _ _

theorem name_of_unescape (h : GroupName.unescape raw = some (d :: name)) (hm : '>' ∉ name) :
    name? (raw ++ '>' :: Y) =
      if Identifier.isIdentifier edition (d :: name) then some (d :: name, raw.length + 1)
      else none := by
  obtain ⟨c, t, n, rfl, hlength, hrest, hc⟩ := unescape_cons h
  rw [List.cons_append, name_cons (hc _), List.drop_append_of_le_length hlength,
    nameRest_of_unescape hrest hm, Identifier.isIdentifier]
  exact read_cons hlength _ _

theorem isContinue_of_isStart {edition : Identifier.Edition}
    (h : Identifier.isStart edition c) : Identifier.isContinue edition c := by
  unfold Identifier.isStart at h
  unfold Identifier.isContinue Identifier.hasIdContinue
  grind

theorem exists_of_isValid (h : GroupName.isValid raw) : ∃ d name,
    GroupName.unescape raw = some (d :: name) ∧ (∀ x ∈ d :: name, Source.isMute x) ∧
      '>' ∉ name := by
  obtain ⟨name, hname, hvalid⟩ := (Option.any_eq_true ..).mp h
  cases name with
  | nil => cases hvalid
  | cons d name =>
    rw [Identifier.isIdentifier, Bool.and_eq_true, List.all_eq_true] at hvalid
    have hcontinue : ∀ x ∈ d :: name, Identifier.isContinue .unicode16 x :=
      List.forall_mem_cons.mpr ⟨isContinue_of_isStart hvalid.1, hvalid.2⟩
    have hnone : ∀ x ∈ "\\()[]>".toList, Identifier.isContinue .unicode16 x = false :=
      forall_mem_of_all (by decide +kernel)
    have hout : ∀ x ∈ d :: name, x ∉ "\\()[]>".toList := by
      intro x hx hm
      have := hcontinue x hx
      rw [hnone x hm] at this
      cases this
    refine ⟨d, name, hname, fun x hx => Source.isMute_iff.mpr fun hm => hout x hx ?_, fun hm => ?_⟩
    · have hincl : ∀ y ∈ "\\()[]".toList, "\\()[]>".toList.contains y :=
        forall_mem_of_all (by decide)
      exact List.contains_iff_mem.mp (hincl x hm)
    · exact hout '>' (List.mem_cons_of_mem _ hm) (by decide)

end

-- ---------------------------------------------------------------------------
-- Tokens of a survey
-- ---------------------------------------------------------------------------

/-- What a token adds to a survey: nothing, unless it opens a group. -/
def Token.surveyed (found : Survey) (t : Token) : Option Survey :=
  match t.operator? with
  | some (.groupOpen _) => found.add (t.text.drop 1)
  | _ => some found

/-- Whether the name of a named opener ends where the token ends. -/
def Token.closesName (t : Token) : Bool :=
  match t.operator? with
  | some (.groupOpen .named) =>
    (name? (t.text.drop 3)).map Prod.snd == some (t.text.drop 3).length
  | _ => true

section
variable {context : Context} {inClass : Bool} {found : Survey} {c d : Char} {k : TokenKind}
variable {e : Escape} {g : GroupOpener} {r w X Y : Text} {t : Token} {ts : List Token}

theorem isIdle_of_isSoft (h : isSoft c) : isIdle c := isIdle_of_isMute (Source.isMute_of_isSoft h)

theorem soft_spelled (hs : e.Spelled d w) (hname : e ≠ .namedReference)
    (hchange : (⟨.escape e, '\\' :: d :: w, context⟩ : Token).changes = false) :
    ∀ x ∈ w, isSoft x := by
  cases e with
  | backReference n => exact fun x hx => isSoft_of_isDigit (hs.2.2.1 x hx)
  | unicode => exact fun x hx => isSoft_of_isHexDigit (hs.2.isHex x hx)
  | hex => exact fun x hx => isSoft_of_isHexDigit (hs.2.2 x hx)
  | control =>
    obtain ⟨-, a, rfl, ha⟩ := hs
    intro x hx
    obtain rfl := List.mem_singleton.mp hx
    exact isSoft_of_isAlpha ha
  | null | char =>
    obtain ⟨-, rfl⟩ := hs
    simp
  | shorthand =>
    obtain ⟨-, -, rfl⟩ := hs
    simp
  | namedReference => exact absurd rfl hname
  | octal | property | unicodeBraced => cases context <;> cases hchange

theorem isValid_of_not_changes {raw : Text} (hchange :
    (⟨.escape .namedReference, '\\' :: 'k' :: '<' :: (raw ++ ['>']), .pattern⟩ : Token).changes =
      false) : GroupName.isValid raw := by
  replace hchange : (!GroupName.isValid (raw ++ ['>']).dropLast) = false := hchange
  rw [List.dropLast_concat] at hchange
  simpa using hchange

theorem surveyFrom_spelled (hs : e.Spelled d w)
    (hchange : (⟨.escape e, '\\' :: d :: w, context⟩ : Token).changes = false) :
    surveyFrom inClass found (w ++ Y) = surveyFrom inClass found Y := by
  by_cases hname : e = .namedReference
  · subst hname
    obtain ⟨rfl, raw, rfl⟩ := hs
    cases context with
    | charClass => cases hchange
    | pattern =>
      obtain ⟨a, name, hname, hmute, -⟩ := exists_of_isValid (isValid_of_not_changes hchange)
      rw [List.cons_append, List.append_assoc, surveyFrom_idle (by decide),
        (blind_surveyFrom _ _).unescape hname hmute, List.singleton_append,
        surveyFrom_idle (by decide)]
  · exact surveyFrom_idles fun x hx => isIdle_of_isSoft (soft_spelled hs hname hchange x hx)

theorem groupName_spelled (hs : g.Spelled r X) (hcapture : g = .capture → Y.head? ≠ some '?')
    (hmodifiers : g = .modifiers → Y.head? ≠ some '<')
    (hname : g = .named → ∃ name, name? (r.drop 2) = some (name, (r.drop 2).length)) :
    groupName? (r ++ Y) = groupName? r := by
  have lookbehind : ∀ {x : Char} {Z : Text}, Identifier.isStart edition x = false → x ≠ '\\' →
      groupName? ('?' :: '<' :: x :: Z) = none := by
    intro x Z hx hb
    simp [groupName?, name_eq_none hx hb]
  cases g with
  | capture =>
    obtain ⟨rfl, -⟩ := hs
    have hY := hcapture rfl
    rw [List.nil_append]
    unfold groupName?
    split
    · simp at hY
    · rfl
  | named =>
    obtain ⟨name, rfl⟩ := hs
    obtain ⟨text, hread⟩ := hname rfl
    obtain ⟨-, happend⟩ := name_append hread
    have hread : name? name = some (text, name.length) := hread
    have hlong : name? (name ++ Y) = some (text, name.length) := happend Y
    simp [groupName?, hread, hlong]
  | modifiers =>
    obtain ⟨rfl, -⟩ := hs
    have hY := hmodifiers rfl
    rw [List.singleton_append]
    unfold groupName?
    split
    · rename_i heq
      obtain ⟨-, rfl⟩ := List.cons.inj heq
      simp at hY
    · rfl
  | deferred m =>
    obtain ⟨ds, is, -, -, rfl, -⟩ := hs
    rfl
  | lookbehind | negativeLookbehind =>
    obtain rfl : r = _ := hs
    exact (lookbehind (by decide +kernel) (by decide)).trans
      (lookbehind (by decide +kernel) (by decide)).symm
  | nonCapture | lookahead | negativeLookahead =>
    obtain rfl : r = _ := hs
    rfl

theorem surveyFrom_opener (hs : g.Spelled r X)
    (hname : g = .named → ∃ name, name? (r.drop 2) = some (name, (r.drop 2).length)) :
    surveyFrom inClass found (r ++ Y) = surveyFrom inClass found Y := by
  cases g with
  | named =>
    obtain ⟨name, rfl⟩ := hs
    obtain ⟨text, hread⟩ := hname rfl
    obtain ⟨-, happend⟩ := name_append hread
    have hlong : name? (name ++ Y) = some (text, name.length) := happend Y
    rw [List.cons_append, List.cons_append, surveyFrom_idle (by decide),
      surveyFrom_idle (by decide), (blind_surveyFrom _ _).groupName hlong, List.drop_left]
  | deferred m =>
    obtain ⟨ds, is, hd, hi, rfl, -⟩ := hs
    have digits : ∀ {digits : Text} {n : Nat}, Marker.IsNumeral digits n → ∀ x ∈ digits, isIdle x :=
      fun hdigits x hx => isIdle_of_isSoft (isSoft_of_isDigit (hdigits.isDigit x hx))
    have hopening : ∀ x ∈ Marker.opening, isIdle x := forall_mem_of_all (by decide)
    have hmiddle : ∀ x ∈ Marker.middle, isIdle x := forall_mem_of_all (by decide)
    have hclose : ∀ x ∈ [')'], isIdle x := forall_mem_of_all (by decide)
    simp only [List.append_assoc]
    rw [surveyFrom_idles hopening, surveyFrom_idles (digits hd), surveyFrom_idles hmiddle,
      surveyFrom_idles (digits hi), surveyFrom_idles hclose]
  | capture | modifiers =>
    obtain ⟨rfl, -⟩ := hs
    exact surveyFrom_idles (forall_mem_of_all (by decide))
  | _ =>
    obtain rfl : r = _ := hs
    exact surveyFrom_idles (forall_mem_of_all (by decide))

def Context.isClass : Context → Bool
  | .charClass => true
  | .pattern => false

theorem Token.named_of_closesName {c : Char}
    (h : (⟨.groupOpen g, c :: r, .pattern⟩ : Token).closesName)
    (hg : g = .named) : ∃ name, name? (r.drop 2) = some (name, (r.drop 2).length) := by
  subst hg
  replace h : (name? (r.drop 2)).map Prod.snd = some (r.drop 2).length := by
    simpa [Token.closesName, Token.operator?, Token.inClass] using h
  obtain ⟨⟨name, n⟩, hname, rfl⟩ := Option.map_eq_some_iff.mp h
  exact ⟨name, hname⟩

/-- What stands behind a token does not make another opener of it. -/
def Token.Parts (t : Token) (Y : Text) : Prop :=
  match t.operator? with
  | some (.groupOpen .capture) => Y.head? ≠ some '?'
  | some (.groupOpen .modifiers) => Y.head? ≠ some '<'
  | _ => True

theorem spelled_of_scan (read : scan .pattern c (r ++ X) = (.groupOpen g, r.length)) :
    g.Spelled r X := by
  obtain hfirst | ⟨hk, -⟩ := first_of_scan read
  · obtain rfl := Option.some.inj hfirst
    rw [scan_group, Prod.mk.injEq, TokenKind.groupOpen.injEq] at read
    exact spelled_scanGroup (Prod.ext read.1 read.2)
  · cases hk

theorem add_congr (h : groupName? X = groupName? Y) : found.add X = found.add Y := by
  unfold Survey.add
  rw [h]

theorem surveyFrom_groupOpen (read : scan .pattern '(' (r ++ X) = (.groupOpen g, r.length))
    (hname : (⟨.groupOpen g, '(' :: r, .pattern⟩ : Token).closesName)
    (hY : (⟨.groupOpen g, '(' :: r, .pattern⟩ : Token).Parts Y) :
    surveyFrom false found ('(' :: (r ++ Y)) =
      (found.add r).bind fun found => surveyFrom false found Y := by
  have hs := spelled_of_scan read
  have hnamed := Token.named_of_closesName hname
  have hadd : found.add (r ++ Y) = found.add r := by
    refine add_congr (groupName_spelled hs ?_ ?_ hnamed)
    · rintro rfl
      exact hY
    · rintro rfl
      exact hY
  rw [surveyFrom_group, hadd]
  simp only [surveyFrom_opener hs hnamed]

theorem surveyFrom_token (read : scan context c (r ++ X) = (k, r.length))
    (hchange : (⟨k, c :: r, context⟩ : Token).changes = false)
    (hname : (⟨k, c :: r, context⟩ : Token).closesName)
    (hY : (⟨k, c :: r, context⟩ : Token).Parts Y) :
    surveyFrom context.isClass found (c :: (r ++ Y)) =
      (Token.surveyed found ⟨k, c :: r, context⟩).bind fun found =>
        surveyFrom (contextAfter context k).isClass found Y := by
  obtain hfirst | ⟨rfl, hr, hc⟩ := first_of_scan read
  · cases k with
    | escape e =>
      obtain rfl := Option.some.inj hfirst
      obtain ⟨d, w, rfl, e', he, hread⟩ := cons_of_scan_escape read hchange
      obtain rfl := TokenKind.escape.inj he
      have hskip : surveyFrom context.isClass found ('\\' :: d :: (w ++ Y)) =
          surveyFrom context.isClass found Y :=
        surveyFrom_hidden.trans (surveyFrom_spelled (spelled_scanEscape hread) hchange)
      cases context <;> exact hskip
    | garbage => cases hchange
    | groupOpen g =>
      obtain rfl := Option.some.inj hfirst
      cases context with
      | pattern => exact surveyFrom_groupOpen read hname hY
      | charClass =>
        obtain rfl := List.length_eq_zero_iff.mp (Prod.mk.inj read).2.symm
        exact surveyFrom_group_class
    | classOpen o =>
      cases o with
      | plain =>
        obtain rfl := Option.some.inj hfirst
        obtain rfl := List.length_eq_zero_iff.mp (scan_of_isAlone read rfl)
        cases context <;> exact surveyFrom_open
      | emptyNegated =>
        obtain ⟨rfl, rfl, rfl⟩ := of_scan_emptyNegated read
        exact surveyFrom_open.trans ((surveyFrom_idle (by decide)).trans surveyFrom_close)
    | classClose =>
      obtain rfl := Option.some.inj hfirst
      obtain rfl := List.length_eq_zero_iff.mp (scan_of_isAlone read rfl)
      cases context <;> exact surveyFrom_close
    | braceOpen b =>
      obtain rfl := Option.some.inj hfirst
      have hidle : ∀ x ∈ r, isIdle x := by
        cases b with
        | literal =>
          obtain rfl := List.length_eq_zero_iff.mp (scan_of_isAlone read rfl)
          simp
        | quantifier =>
          exact fun x hx => isIdle_of_isSoft (bounds_soft _ _ (of_scan_bounds read).2.2 x hx)
      have hskip : surveyFrom context.isClass found ('{' :: (r ++ Y)) =
          surveyFrom context.isClass found Y :=
        (surveyFrom_idle (by decide)).trans (surveyFrom_idles hidle)
      cases context <;> exact hskip
    | char => cases hfirst
    | _ =>
      obtain rfl := Option.some.inj hfirst
      obtain rfl := List.length_eq_zero_iff.mp (scan_of_isAlone read rfl)
      cases context <;> exact surveyFrom_idle (by decide)
  · obtain rfl := List.length_eq_zero_iff.mp hr
    have hidle : isIdle c := by
      simp only [ownKinds, List.mem_cons, List.not_mem_nil, or_false, not_or] at hc
      simp [isIdle, hc]
    cases context <;> exact surveyFrom_idle hidle

end

-- ---------------------------------------------------------------------------
-- The survey of a promoted source
-- ---------------------------------------------------------------------------

/-- What promotion writes for a token outside classes, if it respells it. -/
def TokenKind.respelling? : TokenKind → Option Text
  | .braceOpen .literal => some ['\\', '{']
  | .braceClose => some ['\\', '}']
  | .classClose => some ['\\', ']']
  | .dot => some wideDot
  | .classOpen .emptyNegated => some wideAnyUnit
  | _ => none

theorem Token.promoted_inClass {t : Token} (h : t.context = .charClass) : t.promoted = t.text := by
  simp [Token.promoted, Token.operator?, Token.inClass, h]

theorem Token.promoted_eq {t : Token} (h : t.context = .pattern) :
    t.promoted = t.kind.respelling?.getD t.text := by
  obtain ⟨k, text, context⟩ := t
  obtain rfl : context = .pattern := h
  cases k with
  | braceOpen b => cases b <;> rfl
  | classOpen o => cases o <;> rfl
  | _ => rfl

/-- The kinds that promotion respells, each with its new spelling. -/
inductive TokenKind.Respelled : TokenKind → Text → Prop
  | braceOpen : Respelled (.braceOpen .literal) ['\\', '{']
  | braceClose : Respelled .braceClose ['\\', '}']
  | classClose : Respelled .classClose ['\\', ']']
  | dot : Respelled .dot wideDot
  | emptyNegated : Respelled (.classOpen .emptyNegated) wideAnyUnit

theorem TokenKind.respelled {k : TokenKind} {w : Text} (h : k.respelling? = some w) :
    k.Respelled w := by
  unfold respelling? at h
  split at h
  all_goals cases h
  all_goals constructor

section
variable {context : Context} {found : Survey} {c : Char} {k : TokenKind} {w Y : Text}
variable {t : Token} {ts : List Token} {f : Token → Text}

theorem contextAfter_respelling (h : k.respelling? = some w) :
    contextAfter .pattern k = .pattern := by
  cases k.respelled h <;> rfl

theorem front_respelling (h : k.respelling? = some w) :
    (∃ c ∈ "\x7b\x7d]".toList, w = ['\\', c]) ∨ ∃ v, w = '[' :: v := by
  cases k.respelled h with
  | braceOpen | braceClose | classClose => exact .inl ⟨_, by decide, rfl⟩
  | dot | emptyNegated => exact .inr ⟨_, rfl⟩

theorem surveyFrom_respelling (h : k.respelling? = some w) :
    surveyFrom false found (w ++ Y) = surveyFrom false found Y := by
  cases k.respelled h with
  | braceOpen | braceClose | classClose => exact surveyFrom_hidden
  | dot =>
    have hbreak : ∀ x ∈ "2028".toList, isIdle x := forall_mem_of_all (by decide)
    have hbreak' : ∀ x ∈ "2029".toList, isIdle x := forall_mem_of_all (by decide)
    have hfirst : ∀ x ∈ "\x7b10000\x7d-".toList, isIdle x := forall_mem_of_all (by decide)
    have hlast : ∀ x ∈ "\x7b10FFFF\x7d".toList, isIdle x := forall_mem_of_all (by decide)
    have htext : wideDot ++ Y = '[' :: '^' :: '\\' :: 'n' :: '\\' :: 'r' :: '\\' :: 'u' ::
        ("2028".toList ++ '\\' :: 'u' :: ("2029".toList ++ '\\' :: 'u' ::
          ("\x7b10000\x7d-".toList ++ '\\' :: 'u' ::
            ("\x7b10FFFF\x7d".toList ++ ']' :: Y)))) := rfl
    rw [htext, surveyFrom_open, surveyFrom_idle (by decide), surveyFrom_hidden, surveyFrom_hidden,
      surveyFrom_hidden, surveyFrom_idles hbreak, surveyFrom_hidden, surveyFrom_idles hbreak',
      surveyFrom_hidden, surveyFrom_idles hfirst, surveyFrom_hidden, surveyFrom_idles hlast,
      surveyFrom_close]
  | emptyNegated =>
    have hfirst : ∀ x ∈ "0000-".toList, isIdle x := forall_mem_of_all (by decide)
    have hlast : ∀ x ∈ "FFFF".toList, isIdle x := forall_mem_of_all (by decide)
    have htext : wideAnyUnit ++ Y = '[' :: '\\' :: 'u' ::
        ("0000-".toList ++ '\\' :: 'u' :: ("FFFF".toList ++ ']' :: Y)) := rfl
    rw [htext, surveyFrom_open, surveyFrom_hidden, surveyFrom_idles hfirst, surveyFrom_hidden,
      surveyFrom_idles hlast, surveyFrom_close]

theorem surveyed_respelling (h : k.respelling? = some w) :
    Token.surveyed found ⟨k, c :: Y, .pattern⟩ = some found := by
  cases k.respelled h <;> rfl

theorem spell_cases (hf : ∀ t, f t = t.text ∨ f t = t.promoted) (t : Token) :
    f t = t.text ∨ t.context = .pattern ∧ t.kind.respelling? = some (f t) := by
  obtain htext | hpromoted := hf t
  · exact .inl htext
  · rw [hpromoted]
    cases hcontext : t.context with
    | charClass => exact .inl (Token.promoted_inClass hcontext)
    | pattern =>
      rw [Token.promoted_eq hcontext]
      cases t.kind.respelling? with
      | none => exact .inl rfl
      | some w => exact .inr ⟨rfl, rfl⟩

theorem head_spell (hf : ∀ t, f t = t.text ∨ f t = t.promoted) (h : Lexed context ts)
    (hc : c ≠ '\\' ∧ c ≠ '[') (hne : (untokenize ts).head? ≠ some c) :
    ((ts.map f).flatten).head? ≠ some c := by
  cases h with
  | nil => simp
  | @cons _ a r k us read rest =>
    rw [List.map_cons, List.flatten_cons]
    obtain htext | ⟨-, hrespelling⟩ := spell_cases hf ⟨k, a :: r, context⟩
    · rw [htext]
      exact hne
    · obtain ⟨b, -, hw⟩ | ⟨v, hw⟩ := front_respelling hrespelling <;> rw [hw]
      · simpa using Ne.symm hc.1
      · simpa using Ne.symm hc.2

theorem parts_of_scan {r X : Text} (read : scan context c (r ++ X) = (k, r.length))
    (hY : ∀ a, a ≠ '\\' ∧ a ≠ '[' → X.head? ≠ some a → Y.head? ≠ some a) :
    (⟨k, c :: r, context⟩ : Token).Parts Y := by
  cases context with
  | charClass => trivial
  | pattern =>
    cases k with
    | groupOpen g =>
      have hs := spelled_of_scan read
      cases g with
      | capture => exact hY '?' (by decide) hs.2
      | modifiers => exact hY '<' (by decide) fun hX => hs.2 _ hX (by decide)
      | _ => trivial
    | _ => trivial

theorem surveyFrom_spell (hf : ∀ t, f t = t.text ∨ f t = t.promoted) (h : Lexed context ts)
    (hchange : ∀ t ∈ ts, t.changes = false) (hname : ∀ t ∈ ts, t.closesName) :
    surveyFrom context.isClass found (ts.map f).flatten = ts.foldlM Token.surveyed found := by
  induction h generalizing found with
  | nil => rw [List.map_nil, List.flatten_nil, surveyFrom]; rfl
  | @cons context c r k us read rest ih =>
    rw [List.forall_mem_cons] at hchange hname
    rw [List.map_cons, List.flatten_cons, List.foldlM_cons]
    obtain htext | ⟨hcontext, hrespelling⟩ := spell_cases hf ⟨k, c :: r, context⟩
    · rw [htext, List.cons_append, surveyFrom_token read hchange.1 hname.1
        (parts_of_scan read fun a ha hne => head_spell hf rest ha hne)]
      simp only [ih hchange.2 hname.2]
      rfl
    · obtain rfl : context = .pattern := hcontext
      have hrest : surveyFrom (contextAfter .pattern k).isClass found (us.map f).flatten =
          us.foldlM Token.surveyed found := ih hchange.2 hname.2
      rw [contextAfter_respelling hrespelling] at hrest
      rw [surveyed_respelling hrespelling]
      exact (surveyFrom_respelling hrespelling).trans hrest

-- ---------------------------------------------------------------------------
-- What a survey finds
-- ---------------------------------------------------------------------------

variable {found' : Survey}

theorem add_grows {r : Text} (h : found.add r = some found') :
    found'.parentheses = found.parentheses + 1 ∧
      (found'.names = [] → found.names = [] ∧ groupName? r = none) := by
  unfold Survey.add at h
  split at h
  · rename_i hnone
    obtain rfl := Option.some.inj h
    exact ⟨rfl, fun hnames => ⟨hnames, hnone⟩⟩
  · split at h
    · cases h
    · obtain rfl := Option.some.inj h
      exact ⟨rfl, fun hnames => by cases hnames⟩

def Token.isNamed (t : Token) : Bool := t.operator? == some (.groupOpen .named)

theorem surveyed_token {r X : Text} (read : scan context c (r ++ X) = (k, r.length))
    (hname : (⟨k, c :: r, context⟩ : Token).closesName)
    (h : Token.surveyed found ⟨k, c :: r, context⟩ = some found') :
    found.parentheses + (Token.opensCapture ⟨k, c :: r, context⟩).toNat ≤ found'.parentheses ∧
      (found'.names = [] →
        found.names = [] ∧ Token.isNamed ⟨k, c :: r, context⟩ = false) := by
  have idle : Token.surveyed found ⟨k, c :: r, context⟩ = some found →
      Token.opensCapture ⟨k, c :: r, context⟩ = false →
      Token.isNamed ⟨k, c :: r, context⟩ = false →
        found.parentheses + (Token.opensCapture ⟨k, c :: r, context⟩).toNat ≤ found'.parentheses ∧
          (found'.names = [] →
            found.names = [] ∧ Token.isNamed ⟨k, c :: r, context⟩ = false) := by
    intro hsurveyed hopens hnamed
    obtain rfl := Option.some.inj (hsurveyed.symm.trans h)
    exact ⟨by simp [hopens], fun hnames => ⟨hnames, hnamed⟩⟩
  cases context with
  | charClass => exact idle rfl rfl rfl
  | pattern =>
    cases k with
    | groupOpen g =>
      have hadd : found.add r = some found' := h
      obtain ⟨hcount, hnames⟩ := add_grows hadd
      refine ⟨?_, fun hnone => ⟨(hnames hnone).1, ?_⟩⟩
      · rw [hcount]
        exact Nat.add_le_add_left (Bool.toNat_le _) _
      · by_contra hnamed
        obtain rfl : g = .named := by
          simpa [Token.isNamed, Token.operator?, Token.inClass] using hnamed
        obtain ⟨name, rfl⟩ := spelled_of_scan read
        obtain ⟨text, hread⟩ := Token.named_of_closesName hname rfl
        have hread : name? name = some (text, name.length) := hread
        have hnone := (hnames hnone).2
        simp [groupName?, hread] at hnone
    | _ => exact idle rfl rfl rfl

theorem surveyed_grows (hlexed : Lexed context ts)
    (h : ts.foldlM Token.surveyed found = some found') (hname : ∀ t ∈ ts, t.closesName) :
    found.parentheses + ts.countP Token.opensCapture ≤ found'.parentheses ∧
      (found'.names = [] → found.names = [] ∧ ∀ t ∈ ts, t.isNamed = false) := by
  induction hlexed generalizing found with
  | nil =>
    obtain rfl := Option.some.inj h
    exact ⟨by simp, fun hnames => ⟨hnames, by simp⟩⟩
  | @cons context c r k us read rest ih =>
    rw [List.forall_mem_cons] at hname
    rw [List.foldlM_cons] at h
    obtain ⟨next, hnext, h⟩ := Option.bind_eq_some_iff.mp h
    obtain ⟨hcount, hnames⟩ := surveyed_token read hname.1 hnext
    obtain ⟨hcounts, hnamess⟩ := ih h hname.2
    refine ⟨?_, fun hnone => ?_⟩
    · rw [List.countP_cons]
      cases hopens : Token.opensCapture ⟨k, c :: r, context⟩ <;> simp [hopens] at hcount ⊢ <;> omega
    · obtain ⟨hnext, hrest⟩ := hnamess hnone
      obtain ⟨hfound, hfirst⟩ := hnames hnext
      exact ⟨hfound, List.forall_mem_cons.mpr ⟨hfirst, hrest⟩⟩

end

namespace Source

variable {s : Text} {found : Survey}

theorem survey_lex (hchange : ∀ t ∈ lex s, t.changes = false) (hname : ∀ t ∈ lex s, t.closesName) :
    (lex s).foldlM Token.surveyed ⟨0, []⟩ = survey? s := by
  have hspell : surveyFrom false ⟨0, []⟩ (List.map Token.text (lexFrom .pattern s)).flatten =
      (lexFrom .pattern s).foldlM Token.surveyed ⟨0, []⟩ :=
    surveyFrom_spell (fun _ => .inl rfl) (lexed_lexFrom .pattern s) hchange hname
  have htext : (List.map Token.text (lexFrom .pattern s)).flatten = s :=
    untokenize_lexFrom .pattern s
  rw [htext] at hspell
  exact hspell.symm

theorem survey_promote (hchange : ∀ t ∈ lex s, t.changes = false)
    (hname : ∀ t ∈ lex s, t.closesName) : survey? (promote s) = survey? s :=
  (surveyFrom_spell (fun _ => .inr rfl) (lexed_lexFrom .pattern s) hchange hname).trans
    (survey_lex hchange hname)

end Source

end Splice
