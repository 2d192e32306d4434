import Splice.Proofs.Ranges

/-!
# Tokens of a class

The scan for wide problems follows the members of a class token by token, the
grammar atom by atom. They fall out of step only where two escapes make one atom
at the end of a range, and meet again unless a dash comes next. Apart from that
a class in which the scan finds no problem is read alike in both modes.
-/

namespace Splice

open Lexer

-- ---------------------------------------------------------------------------
-- Members
-- ---------------------------------------------------------------------------

def TokenKind.member : TokenKind → ClassMember
  | .escape (.shorthand _) => .shorthand
  | _ => .other

section
variable {e : Escape} {d : Char} {r : Text}

open Grammar

theorem classEscape_character {wide : Bool} {Y : Text} (hd : d ∉ ownEscapes)
    (hset : isShorthand d = false) :
    classEscape? wide d Y =
      (characterEscape? wide d Y).map fun (code, length) => (.single code, length) := by
  simp only [ownEscapes, List.mem_cons, List.not_mem_nil, or_false, not_or] at hd
  simp [classEscape?, hd, hset]

theorem mem_classEscapes {c : Char} (h : (Escape.char c).classEscapeChanges = false) :
    c ∈ sharedEscapes ∨ c = 'b' ∨ c = '-' := by
  have hmem : classEscapes.contains c = true := by
    change (!classEscapes.contains c) = false at h
    generalize classEscapes.contains c = b at h
    cases b with
    | false => cases h
    | true => rfl
  replace hmem : c ∈ classEscapes := List.contains_iff_mem.mp hmem
  refine (List.mem_append.mp hmem).imp id fun h => ?_
  simpa only [List.mem_cons, List.not_mem_nil, or_false] using h

/-- What is no problem to the scan is the same atom in both modes, codes in four
digits aside. -/
theorem classEscape_spelled (hs : e.Spelled d r) (hchange : e.classEscapeChanges = false)
    (hu : e ≠ .unicode) :
    ∃ atom : ClassAtom, atom.member = (TokenKind.escape e).member ∧
      ∀ wide Y, (e.isNumber → Y.head?.any Char.isDigit = false) →
        classEscape? wide d (r ++ Y) = some (atom, r.length + 1) := by
  have character : d ∉ ownEscapes → isShorthand d = false → e.isCharacter →
      ∃ code, ∀ wide Y, (e.isNumber → Y.head?.any Char.isDigit = false) →
        classEscape? wide d (r ++ Y) = some (.single code, r.length + 1) := by
    intro hd hset he
    obtain ⟨code, hcode⟩ := characterEscape_spelled hs he
    refine ⟨code, fun wide Y hdigit => ?_⟩
    rw [classEscape_character hd hset, hcode wide Y hdigit]
    rfl
  cases e with
  | null =>
    obtain ⟨rfl, rfl⟩ := hs
    obtain ⟨code, hcode⟩ := character (by decide) (by decide) rfl
    exact ⟨_, rfl, hcode⟩
  | hex =>
    obtain ⟨rfl, -⟩ := hs
    obtain ⟨code, hcode⟩ := character (by decide) (by decide) rfl
    exact ⟨_, rfl, hcode⟩
  | control =>
    obtain ⟨rfl, a, rfl, ha⟩ := hs
    refine ⟨.single (a.toNat % 32), rfl, fun wide Y _ => ?_⟩
    have hname : a.isAlphanum := by simp [Char.isAlphanum, ha]
    cases wide with
    | false => simp [classEscape?, hname]
    | true => simp [classEscape?, isShorthand, characterEscape?, ha]
  | char c =>
    obtain ⟨rfl, rfl⟩ := hs
    obtain hc | rfl | rfl := mem_classEscapes hchange
    · obtain ⟨hd, hset, -⟩ := of_mem_sharedEscapes hc
      obtain ⟨code, hcode⟩ := character hd hset (List.contains_iff_mem.mpr hc)
      exact ⟨_, rfl, hcode⟩
    · exact ⟨.single 8, rfl, fun wide Y _ => rfl⟩
    · refine ⟨.single '-'.toNat, rfl, fun wide Y _ => ?_⟩
      cases wide <;> rfl
  | shorthand c =>
    obtain ⟨rfl, hd, rfl⟩ := hs
    refine ⟨.set, rfl, fun wide Y _ => ?_⟩
    have ne : ∀ x, isShorthand x = false → d ≠ x := by
      rintro x hx rfl
      rw [hd] at hx
      cases hx
    simp [classEscape?, hd, ne 'b' rfl, ne 'c' rfl, ne '-' rfl]
  | unicode => exact absurd rfl hu
  | octal | property | unicodeBraced | backReference | namedReference => cases hchange

end

-- ---------------------------------------------------------------------------
-- Tokens of a class
-- ---------------------------------------------------------------------------

/-- Whether wide mode reads a token in another way, as far as the token itself says. -/
def Token.changes (t : Token) : Bool :=
  match t.kind with
  | .garbage => true
  | .escape e => if t.inClass then e.classEscapeChanges else t.patternEscapeChanges e
  | _ => false

/-- The code that an escape of four digits names. -/
def Token.code? (t : Token) : Option Nat :=
  if t.kind = .escape .unicode then Text.hexNumeral? (t.text.drop 2) else none

/-- Whether some tokens begin with two escapes in a class that make one character,
with a dash on both sides. -/
def straddles : List Token → Bool
  | a :: h :: l :: b :: _ =>
    a.inClass && a.kind == .dash && h.code?.any Grammar.isHighSurrogate &&
      l.code?.any Grammar.isLowSurrogate && b.kind == .dash
  | _ => false

/-- Whether some tokens begin with a high surrogate and an escape that it joins with,
or takes the beginning of. -/
def joins : List Token → Bool
  | h :: l :: _ => h.code?.any Grammar.isHighSurrogate && l.kind == .escape .unicode
  | _ => false

def Follows : List Token → Text → Prop
  | [], Y => Y = []
  | t :: _, Y => ∃ Z, Y = t.text ++ Z

theorem follows_untokenize (ts : List Token) : Follows ts (untokenize ts) := by
  cases ts with
  | nil => rfl
  | cons t ts => exact ⟨untokenize ts, rfl⟩

section
variable {context : Context} {c : Char} {k : TokenKind} {r X Y : Text} {t : Token}
variable {ts : List Token} {p : WideProgress} {q q' : ClassProgress}

theorem classToken_escape (e : Escape) : WideProgress.classToken q (.escape e) =
    if e.classEscapeChanges then none else q.member (TokenKind.escape e).member := by
  cases e with
  | shorthand c => rfl
  | _ => rfl

theorem WideProgress.step_not_changes {p' : WideProgress} (h : p.step t = some p') :
    t.changes = false := by
  obtain ⟨kind, text, context⟩ := t
  cases context with
  | pattern =>
    cases kind with
    | escape e =>
      change (if Token.patternEscapeChanges _ e then none else some _) = some p' at h
      split at h
      · cases h
      · exact eq_false_of_ne_true ‹_›
    | garbage => cases h
    | _ => rfl
  | charClass =>
    obtain ⟨q, hq, -⟩ := Option.map_eq_some_iff.mp h
    cases kind with
    | escape e =>
      change WideProgress.classToken _ (.escape e) = some q at hq
      rw [classToken_escape] at hq
      split at hq
      · cases hq
      · exact eq_false_of_ne_true ‹_›
    | garbage => cases hq
    | _ => rfl

theorem WideProgress.not_changes (h : (ts.foldlM WideProgress.step p).isSome) :
    ∀ t ∈ ts, t.changes = false := by
  induction ts generalizing p with
  | nil => simp
  | cons t ts ih =>
    obtain ⟨p'', hrun⟩ := Option.isSome_iff_exists.mp h
    rw [List.foldlM_cons] at hrun
    obtain ⟨p', hstep, hrest⟩ := Option.bind_eq_some_iff.mp hrun
    exact List.forall_mem_cons.mpr ⟨step_not_changes hstep, ih (Option.isSome_of_eq_some hrest)⟩

theorem quad_of_scan (read : scan context c (r ++ X) = (.escape .unicode, r.length)) :
    c = '\\' ∧ ∃ w : Text, r = 'u' :: w ∧ w.IsQuad := by
  obtain hfirst | ⟨hk, -⟩ := first_of_scan read
  · obtain rfl := Option.some.inj hfirst
    cases r with
    | nil =>
      cases X with
      | nil => cases read
      | cons d X =>
        have := (scanEscape_fits d X).1
        rw [List.nil_append, scan_escape, Prod.mk.injEq] at read
        simp at read
        omega
    | cons d w =>
      rw [List.cons_append, scan_escape, Prod.mk.injEq, TokenKind.escape.injEq] at read
      obtain ⟨rfl, hw⟩ := spelled_scanEscape (Prod.ext read.1 read.2)
      exact ⟨rfl, w, rfl, hw⟩
  · cases hk

theorem classToken_member (hk : k ≠ .classClose) (hd : k ≠ .dash)
    (hcaret : q.atStart → k ≠ .caret) (h : WideProgress.classToken q k = some q') :
    q.member k.member = some q' := by
  cases k with
  | classClose => exact absurd rfl hk
  | dash => exact absurd rfl hd
  | garbage => cases h
  | caret =>
    change (if q.atStart then some _ else q.member .other) = some q' at h
    rw [if_neg fun hstart => hcaret hstart rfl] at h
    exact h
  | escape e =>
    rw [classToken_escape] at h
    split at h
    · cases h
    · exact h
  | _ => exact h

theorem cons_of_scan_escape (read : scan context '\\' (r ++ X) = (k, r.length))
    (hchange : (⟨k, '\\' :: r, context⟩ : Token).changes = false) :
    ∃ d w, r = d :: w ∧ ∃ e, k = .escape e ∧ scanEscape d (w ++ X) = (e, w.length + 1) := by
  cases r with
  | nil =>
    cases X with
    | nil =>
      obtain rfl := (Prod.mk.inj read).1
      cases hchange
    | cons d X =>
      have hfits := (scanEscape_fits d X).1
      rw [List.nil_append, scan_escape, Prod.mk.injEq, List.length_nil] at read
      omega
  | cons d w =>
    rw [List.cons_append, scan_escape, Prod.mk.injEq] at read
    exact ⟨d, w, rfl, _, read.1.symm, Prod.ext rfl read.2⟩

theorem scanUnicode_cases (t : Text) : (scanUnicode t).1 = .unicode ∨
    (scanUnicode t).1 = .unicodeBraced ∨ (scanUnicode t).1 = .char 'u' := by
  unfold scanUnicode
  split
  · exact .inr (.inl rfl)
  · split
    · exact .inl rfl
    · exact .inr (.inr rfl)

theorem unicode_of_scan (read : scan context '\\' ('u' :: (r ++ X)) = (k, r.length + 1))
    (hchange : (⟨k, '\\' :: 'u' :: r, context⟩ : Token).changes = false) :
    k = .escape .unicode := by
  obtain rfl : TokenKind.escape (scanUnicode (r ++ X)).1 = k := (Prod.mk.inj read).1
  obtain h | h | h := scanUnicode_cases (r ++ X)
  · rw [h]
  · rw [h] at hchange
    cases context <;> cases hchange
  · rw [h] at hchange
    cases context <;> cases hchange

theorem not_digit_of_null {d : Char} {w : Text}
    (read : scanEscape d (w ++ X) = (.null, w.length + 1)) : X.head?.any Char.isDigit = false := by
  obtain ⟨rfl, rfl⟩ := spelled_scanEscape read
  change scanZero X = _ at read
  simp only [scanZero] at read
  split at read
  · rename_i h
    rw [Bool.and_eq_true] at h
    simpa using h.2
  · cases (Prod.mk.inj read).1

theorem follows_head (h : Lexed context ts) (hf : Follows ts Y) :
    Y.head? = (untokenize ts).head? := by
  cases h with
  | nil =>
    obtain rfl : Y = [] := hf
    rfl
  | cons read rest =>
    obtain ⟨Z, rfl⟩ := hf
    rfl

theorem follows_unicode (h : Lexed context ts) (hchange : ∀ t ∈ ts, t.changes = false)
    (hf : Follows ts Y) (hk : ∀ t ∈ ts.head?, t.kind ≠ .escape .unicode) (rest : Text) :
    Y ≠ '\\' :: 'u' :: rest := by
  rintro rfl
  cases h with
  | nil => cases hf
  | @cons _ c r k _ read _ =>
    obtain ⟨Z, htext⟩ := hf
    rw [List.forall_mem_cons] at hchange
    obtain ⟨rfl, hr⟩ := List.cons.inj htext
    obtain ⟨d, w, rfl, -⟩ := cons_of_scan_escape read hchange.1
    obtain ⟨rfl, -⟩ := List.cons.inj hr
    exact hk _ rfl (unicode_of_scan read hchange.1)

theorem head_of_joins (h : joins (t :: ts) = false) (hhigh : t.code?.any Grammar.isHighSurrogate) :
    ∀ u ∈ ts.head?, u.kind ≠ .escape .unicode := by
  cases ts with
  | nil => simp
  | cons u ts => simpa [joins, hhigh] using h

open Grammar in
/-- A token of a class is an atom, unless it is an escape that joins with the
next one. -/
theorem classAtom_scan (read : scan .charClass c (r ++ untokenize ts) = (k, r.length))
    (hts : Lexed .charClass ts) (hk : k ≠ .classClose)
    (hchange : ∀ t ∈ ⟨k, c :: r, .charClass⟩ :: ts, t.changes = false)
    (hjoins : joins (⟨k, c :: r, .charClass⟩ :: ts) = false) :
    c ≠ ']' ∧ ∃ atom : ClassAtom, atom.member = k.member ∧
      ∀ wide Y, Follows ts Y → classAtom? wide c (r ++ Y) = some (atom, r.length) := by
  rw [List.forall_mem_cons] at hchange
  by_cases hc : c = '\\'
  · subst hc
    refine ⟨by decide, ?_⟩
    obtain ⟨d, w, rfl, e, rfl, hread⟩ := cons_of_scan_escape read hchange.1
    have hs := spelled_scanEscape hread
    by_cases hu : e = .unicode
    · subst hu
      obtain ⟨rfl, hw⟩ := hs
      obtain ⟨code, hcode, -⟩ := hw.code
      refine ⟨.single code, rfl, fun wide Y hf => ?_⟩
      have hescape : unicodeEscape? (w ++ Y) = some (code, 4) := by
        refine unicodeEscape_alone hw hcode fun hhigh rest => ?_
        have hany : (⟨.escape .unicode, '\\' :: 'u' :: w, .charClass⟩ : Token).code?.any
            isHighSurrogate := by simp [Token.code?, hcode, hhigh]
        exact follows_unicode hts hchange.2 hf (head_of_joins hjoins hany) rest
      rw [List.cons_append, classAtom_unicode hescape, List.length_cons, hw.length_eq]
    · obtain ⟨atom, hmember, hatom⟩ := classEscape_spelled hs hchange.1 hu
      refine ⟨atom, hmember, fun wide Y hf => ?_⟩
      have hdigit : e.isNumber → Y.head?.any Char.isDigit = false := by
        intro hnumber
        rw [follows_head hts hf]
        cases e with
        | null => exact not_digit_of_null hread
        | backReference n => cases hchange.1
        | _ => cases hnumber
      simpa [classAtom?] using hatom wide Y hdigit
  · obtain ⟨k', hk'⟩ := (scan_of_isSimple ⟨hc, .inl rfl⟩ : ∃ k, ∀ t, scan .charClass c t = (k, 0))
    rw [hk'] at read
    obtain ⟨rfl, hlength⟩ := Prod.mk.inj read
    obtain rfl := List.length_eq_zero_iff.mp hlength.symm
    have hclose : c ≠ ']' := by
      rintro rfl
      exact hk (Prod.mk.inj (hk' [])).1.symm
    refine ⟨hclose, .single c.toNat, ?_, fun wide Y _ => by simp [classAtom?, hc]⟩
    have hescape : ∀ e, k' ≠ .escape e := by
      rintro e rfl
      obtain hfirst | ⟨hchar, -⟩ := first_of_scan (hk' [])
      · exact hc (Option.some.inj hfirst).symm
      · cases hchar
    cases k' with
    | escape e => exact absurd rfl (hescape e)
    | _ => rfl

end

-- ---------------------------------------------------------------------------
-- Classes
-- ---------------------------------------------------------------------------

section
variable {p : WideProgress} {q q' : ClassProgress} {mode mode' : Option Grammar.ClassAtom}
variable {t u : Token} {ts toks : List Token} {atom : Grammar.ClassAtom} {l : Nat}

open Grammar

theorem foldlM_class (k : TokenKind) (w : Text) (ts : List Token) :
    (⟨k, w, .charClass⟩ :: ts).foldlM WideProgress.step { p with charClass := q } =
      (WideProgress.classToken q k).bind fun q' =>
        ts.foldlM WideProgress.step { p with charClass := q' } := by
  rw [List.foldlM_cons]
  change ((WideProgress.classToken q k).map _).bind _ = _
  rw [Option.bind_map]
  rfl

/-- A class that ends within some tokens and is read alike in both modes. -/
def ReadsClass (p : WideProgress) (q : ClassProgress) (mode : Option ClassAtom)
    (ts : List Token) : Prop :=
  ∃ front rest q', ts = front ++ rest ∧ Lexed .pattern rest ∧ front ≠ [] ∧
    (∀ t ∈ front, t.inClass) ∧
    front.foldlM WideProgress.step { p with charClass := q } = some { p with charClass := q' } ∧
    ∀ wide Y, classFrom? wide mode (untokenize front ++ Y) = some (untokenize front).length

/-- The scan has no range open, and remembers a member exactly where the grammar
remembers an atom. -/
def Awaits (q : ClassProgress) : Option ClassAtom → Prop
  | none => q.last = none ∧ q.rangeStart = none
  | some atom => q = ⟨false, some atom.member, none⟩

theorem Awaits.member (h : Awaits q mode) (atom : ClassAtom) :
    q.member atom.member = some ⟨false, some atom.member, none⟩ := by
  cases mode with
  | none =>
    obtain ⟨-, hrange⟩ := h
    simp [ClassProgress.member, hrange]
  | some first =>
    obtain rfl := h
    rfl

/-- Some tokens of a class that are read off alike by the scan and in both modes. -/
structure Stretch (p : WideProgress) (q : ClassProgress) (mode : Option ClassAtom)
    (toks ts : List Token) (q' : ClassProgress) (mode' : Option ClassAtom) : Prop where
  lexed : Lexed .charClass ts
  ne_nil : toks ≠ []
  inClass : ∀ t ∈ toks, t.inClass
  scanned : toks.foldlM WideProgress.step { p with charClass := q } =
    some { p with charClass := q' }
  awaits : Awaits q' mode'
  started : q'.atStart = false
  reads : ∀ wide Y, Follows ts Y → classFrom? wide mode (untokenize toks ++ Y) =
    (classFrom? wide mode' Y).map (· + (untokenize toks).length)

theorem Stretch.push (hstretch : Stretch p q mode toks ts q' mode') (h : ReadsClass p q' mode' ts) :
    ReadsClass p q mode (toks ++ ts) := by
  obtain ⟨front, rest, q'', rfl, hrest, hne, hfront, hrun, hlength⟩ := h
  refine ⟨toks ++ front, rest, q'', (List.append_assoc ..).symm, hrest, by simp [hne], ?_, ?_, ?_⟩
  · intro t ht
    exact (List.mem_append.mp ht).elim (hstretch.inClass t) (hfront t)
  · rw [List.foldlM_append, hstretch.scanned]
    exact hrun
  · intro wide Y
    obtain ⟨t, front, rfl⟩ := List.exists_cons_of_ne_nil hne
    have hf : Follows (t :: front ++ rest) (untokenize (t :: front) ++ Y) :=
      ⟨untokenize front ++ Y, by rw [untokenize_cons, List.append_assoc]⟩
    rw [untokenize_append, List.append_assoc, hstretch.reads wide _ hf, hlength, List.length_append,
      Nat.add_comm (untokenize toks).length]
    rfl

theorem rangeAllowed_of_narrow {first : ClassAtom} (hf : first.member = .other)
    (ha : atom.member = .other) (h : rangeAllowed false first atom) (wide : Bool) :
    rangeAllowed wide first atom := by
  cases first with
  | set => cases hf
  | single low =>
    cases atom with
    | set => cases ha
    | single high => exact h

theorem contextAfter_class {k : TokenKind} (hk : k ≠ .classClose) :
    contextAfter .charClass k = .charClass := by
  cases k with
  | classClose => exact absurd rfl hk
  | classOpen o => cases o <;> rfl
  | _ => rfl

theorem classToken_open {m : ClassMember} {k : TokenKind} (hk : k ≠ .classClose)
    (h : WideProgress.classToken ⟨false, none, some m⟩ k = some q) :
    m = .other ∧ k.member = .other ∧ q = ⟨false, none, none⟩ := by
  have close : ∀ {m' : ClassMember},
      ClassProgress.member ⟨false, none, some m⟩ m' = some q →
        m = .other ∧ m' = .other ∧ q = ⟨false, none, none⟩ := by
    intro m' h
    cases m with
    | shorthand => cases h
    | other =>
      cases m' with
      | shorthand => cases h
      | other =>
        obtain rfl := Option.some.inj h
        exact ⟨rfl, rfl, rfl⟩
  by_cases hd : k = .dash
  · subst hd
    exact close h
  · exact close (classToken_member hk hd (fun h => by cases h) h)

variable {wide : Bool} {c : Char} {k : TokenKind} {r Y : Text} {first : ClassAtom}

theorem classToken_atom (haw : Awaits q mode) (hk : k ≠ .classClose)
    (hdash : k = .dash → mode = none) (hcaret : q.atStart → k ≠ .caret)
    (hatom : atom.member = k.member) (h : WideProgress.classToken q k = some q') :
    q' = ⟨false, some atom.member, none⟩ := by
  by_cases hd : k = .dash
  · subst hd
    obtain rfl := hdash rfl
    obtain ⟨hlast, hrange⟩ := haw
    have hq : q.dash = some ⟨false, some .other, none⟩ := by
      simp [ClassProgress.dash, ClassProgress.member, hlast, hrange]
    rw [hatom]
    exact Option.some.inj (h.symm.trans hq)
  · have hq := classToken_member hk hd hcaret h
    rw [← hatom, haw.member] at hq
    exact (Option.some.inj hq).symm

theorem stretch_atom (read : scan .charClass c (r ++ untokenize ts) = (k, r.length))
    (hts : Lexed .charClass ts) (hk : k ≠ .classClose) (hdash : k = .dash → mode = none)
    (hchange : ∀ t ∈ ⟨k, c :: r, .charClass⟩ :: ts, t.changes = false)
    (hjoins : joins (⟨k, c :: r, .charClass⟩ :: ts) = false)
    (haw : Awaits q mode) (hcaret : q.atStart → k ≠ .caret)
    (hscan : WideProgress.classToken q k = some q') :
    ∃ mode', Stretch p q mode [⟨k, c :: r, .charClass⟩] ts q' mode' := by
  obtain ⟨hclose, atom, hmember, hatom⟩ := classAtom_scan read hts hk hchange hjoins
  obtain rfl := classToken_atom haw hk hdash hcaret hmember hscan
  have hc : mode = none ∨ c ≠ '-' := by
    by_cases hc : c = '-'
    · subst hc
      exact .inl (hdash (Prod.mk.inj read).1.symm)
    · exact .inr hc
  refine ⟨some atom, hts, by simp, by simp [Token.inClass], ?_, rfl, rfl, fun wide Y hf => ?_⟩
  · rw [foldlM_class, hscan]
    rfl
  · have hlength : untokenize [⟨k, c :: r, .charClass⟩] = c :: r := by simp [untokenize]
    rw [hlength, List.cons_append, classFrom_atom hclose (hatom wide Y hf) hc, List.drop_left]
    rfl

theorem Lexed.quad {context : Context} (h : Lexed context (t :: ts))
    (hk : t.kind = .escape .unicode) :
    ∃ w code, t = ⟨.escape .unicode, '\\' :: 'u' :: w, context⟩ ∧ Text.IsQuad w ∧
      Text.hexNumeral? w = some code ∧ t.code? = some code ∧ Lexed context ts := by
  cases h with
  | @cons _ c r k _ read rest =>
    obtain rfl : k = .escape .unicode := hk
    obtain ⟨rfl, w, rfl, hw⟩ := quad_of_scan read
    obtain ⟨code, hcode, -⟩ := hw.code
    exact ⟨w, code, rfl, hw, hcode, hcode, rest⟩

theorem exists_quads {context : Context} (hts : Lexed context (t :: u :: ts))
    (hjoins : joins (t :: u :: ts)) :
    ∃ w v code low, t = ⟨.escape .unicode, '\\' :: 'u' :: w, context⟩ ∧
      u = ⟨.escape .unicode, '\\' :: 'u' :: v, context⟩ ∧ Text.IsQuad w ∧ Text.IsQuad v ∧
        Text.hexNumeral? w = some code ∧ Text.hexNumeral? v = some low ∧
          t.code? = some code ∧ u.code? = some low ∧ isHighSurrogate code ∧
            Lexed context ts := by
  rw [joins, Bool.and_eq_true, beq_iff_eq] at hjoins
  obtain ⟨hhigh, hu⟩ := hjoins
  have ht : t.kind = .escape .unicode := by
    by_contra ht
    simp [Token.code?, ht] at hhigh
  obtain ⟨w, code, rfl, hw, hcode, hcodeOf, hrest⟩ := hts.quad ht
  obtain ⟨v, low, rfl, hv, hlow, hlowOf, hrest⟩ := hrest.quad hu
  refine ⟨w, v, code, low, rfl, rfl, hw, hv, hcode, hlow, hcodeOf, hlowOf, ?_, hrest⟩
  simpa [hcodeOf] using hhigh

theorem untokenize_quads (w v : Text) (context : Context) :
    untokenize [⟨.escape .unicode, '\\' :: 'u' :: w, context⟩,
      ⟨.escape .unicode, '\\' :: 'u' :: v, context⟩] =
        '\\' :: 'u' :: (w ++ '\\' :: 'u' :: v) := by
  simp [untokenize]

theorem stretch_joint (hts : Lexed .charClass (t :: u :: ts)) (hjoins : joins (t :: u :: ts))
    (haw : Awaits q mode) : ∃ q' mode', Stretch p q mode [t, u] ts q' mode' := by
  obtain ⟨w, v, code, low, rfl, rfl, hw, hv, hcode, hlow, -, -, hhigh, hrest⟩ :=
    exists_quads hts hjoins
  obtain ⟨last, hlast⟩ := classFrom_joint hw hcode hv hlow hhigh
  refine ⟨⟨false, some .other, none⟩, some (.single last), hrest, by simp, by simp [Token.inClass],
    ?_, rfl, rfl, fun wide Y _ => ?_⟩
  · have hmember : WideProgress.classToken q (.escape .unicode) = some ⟨false, some .other, none⟩ :=
      haw.member (.single last)
    rw [foldlM_class, hmember]
    rfl
  · rw [untokenize_quads]
    simp only [List.cons_append, List.append_assoc, hlast, List.length_cons, List.length_append,
      hw.length_eq, hv.length_eq]

theorem Lexed.kind_of_dash {context : Context} (h : Lexed context ts)
    (hd : (untokenize ts).head? = some '-') : ∃ b us, ts = b :: us ∧ b.kind = .dash := by
  cases h with
  | nil => cases hd
  | @cons _ c r k us read _ =>
    obtain rfl : c = '-' := by simpa [untokenize] using hd
    exact ⟨_, us, rfl, (Prod.mk.inj read).1.symm⟩

theorem stretch_range_joint
    (hts : Lexed .charClass (⟨.dash, ['-'], .charClass⟩ :: t :: u :: ts))
    (hjoins : joins (t :: u :: ts))
    (hstraddles : straddles (⟨.dash, ['-'], .charClass⟩ :: t :: u :: ts) = false)
    (haw : Awaits q (some first)) (hfirst : first.member = .other)
    (hread : (classFrom? false (some first)
      (untokenize (⟨.dash, ['-'], .charClass⟩ :: t :: u :: ts))).isSome) :
    ∃ q' mode', Stretch p q (some first) [⟨.dash, ['-'], .charClass⟩, t, u] ts q' mode' := by
  cases hts with
  | cons _ hts =>
  replace hts : Lexed .charClass (t :: u :: ts) := hts
  obtain ⟨w, v, code, low, rfl, rfl, hw, hv, hcode, hlow, hcodeOf, hlowOf, hhigh, hrest⟩ :=
    exists_quads hts hjoins
  obtain ⟨end_, last, hlast⟩ := classFrom_range_joint hw hcode hv hlow hhigh
  have hdash : isLowSurrogate low → (untokenize ts).head? ≠ some '-' := by
    intro hlow hd
    obtain ⟨b, us, rfl, hb⟩ := hrest.kind_of_dash hd
    simp [straddles, Token.inClass, hcodeOf, hlowOf, hhigh, hlow, hb] at hstraddles
  obtain rfl : q = ⟨false, some .other, none⟩ := by
    rw [← hfirst]
    exact haw
  have htext : ∀ Y : Text, untokenize [⟨.dash, ['-'], .charClass⟩,
      ⟨.escape .unicode, '\\' :: 'u' :: w, .charClass⟩,
      ⟨.escape .unicode, '\\' :: 'u' :: v, .charClass⟩] ++ Y =
        '-' :: '\\' :: 'u' :: (w ++ '\\' :: 'u' :: (v ++ Y)) := by
    simp [untokenize]
  have hrange : rangeAllowed false first (.single end_) := by
    have hsplit : untokenize (⟨.dash, ['-'], .charClass⟩ ::
        ⟨.escape .unicode, '\\' :: 'u' :: w, .charClass⟩ ::
          ⟨.escape .unicode, '\\' :: 'u' :: v, .charClass⟩ :: ts) = _ :=
      (untokenize_append [_, _, _] ts).trans (htext _)
    rw [hsplit, hlast false first _ hdash] at hread
    by_contra hrange
    rw [if_neg hrange] at hread
    cases hread
  refine ⟨⟨false, some .other, none⟩, some (.single last), hrest, by simp, by simp [Token.inClass],
    rfl, rfl, rfl, fun wide Y hf => ?_⟩
  rw [htext, hlast wide first Y fun hlow => follows_head hrest hf ▸ hdash hlow,
    if_pos (rangeAllowed_of_narrow hfirst rfl hrange wide)]
  congr 2
  simp [untokenize, hw.length_eq, hv.length_eq]

theorem stretch_range (read : scan .charClass c (r ++ untokenize ts) = (k, r.length))
    (hts : Lexed .charClass ts) (hk : k ≠ .classClose)
    (hchange : ∀ t ∈ ⟨k, c :: r, .charClass⟩ :: ts, t.changes = false)
    (hjoins : joins (⟨k, c :: r, .charClass⟩ :: ts) = false)
    (haw : Awaits q (some first)) (hfirst : first.member = .other) (hmember : k.member = .other)
    (hscan : WideProgress.classToken ⟨false, none, some first.member⟩ k = some q')
    (hread : (classFrom? false (some first)
      (untokenize (⟨.dash, ['-'], .charClass⟩ :: ⟨k, c :: r, .charClass⟩ :: ts))).isSome) :
    Stretch p q (some first) [⟨.dash, ['-'], .charClass⟩, ⟨k, c :: r, .charClass⟩] ts q' none := by
  obtain ⟨hclose, atom, hatomMember, hatom⟩ := classAtom_scan read hts hk hchange hjoins
  have hrange : rangeAllowed false first atom := by
    have htext : untokenize (⟨.dash, ['-'], .charClass⟩ :: ⟨k, c :: r, .charClass⟩ :: ts) =
        '-' :: c :: (r ++ untokenize ts) := by
      simp [untokenize]
    rw [htext, classFrom_range hclose (hatom false _ (follows_untokenize ts))] at hread
    by_contra hrange
    rw [if_neg hrange] at hread
    cases hread
  obtain ⟨-, -, rfl⟩ := classToken_open hk hscan
  obtain rfl : q = ⟨false, some first.member, none⟩ := haw
  refine ⟨hts, by simp, by simp [Token.inClass], ?_, ⟨rfl, rfl⟩, rfl, fun wide Y hf => ?_⟩
  · have hdash : WideProgress.classToken ⟨false, some first.member, none⟩ .dash =
        some ⟨false, none, some first.member⟩ := rfl
    rw [foldlM_class, hdash, Option.bind_some, foldlM_class, hscan]
    rfl
  · have htext : untokenize [⟨.dash, ['-'], .charClass⟩, ⟨k, c :: r, .charClass⟩] ++ Y =
        '-' :: c :: (r ++ Y) := by
      simp [untokenize]
    rw [htext, classFrom_range hclose (hatom wide Y hf), List.drop_left,
      if_pos (rangeAllowed_of_narrow hfirst (hatomMember.trans hmember) hrange wide)]
    rw [classFrom?]
    congr 2
    simp [untokenize, Nat.add_assoc]

theorem readsClass_close (hts : Lexed .pattern ts) :
    ReadsClass p q mode (⟨.classClose, [']'], .charClass⟩ :: ts) := by
  refine ⟨[⟨.classClose, [']'], .charClass⟩], ts, q, rfl, hts, by simp, by simp [Token.inClass],
    rfl, fun wide Y => ?_⟩
  exact classFrom_close

theorem readsClass_dash (haw : Awaits q (some first)) (hts : Lexed .pattern ts) :
    ReadsClass p q (some first)
      (⟨.dash, ['-'], .charClass⟩ :: ⟨.classClose, [']'], .charClass⟩ :: ts) := by
  obtain rfl : q = ⟨false, some first.member, none⟩ := haw
  refine ⟨[⟨.dash, ['-'], .charClass⟩, ⟨.classClose, [']'], .charClass⟩], ts,
    ⟨false, none, some first.member⟩, rfl, hts, by simp, by simp [Token.inClass], rfl,
    fun wide Y => ?_⟩
  exact classFrom_dash_close

/-- What holds of the tokens of a class from a place on, if the source is well formed
in narrow mode and the scan finds no problem in it. -/
structure Goes (p : WideProgress) (q : ClassProgress) (mode : Option ClassAtom)
    (ts : List Token) : Prop where
  lexed : Lexed .charClass ts
  scanned : (ts.foldlM WideProgress.step { p with charClass := q }).isSome
  awaits : Awaits q mode
  caret : q.atStart → ∀ t ∈ ts.head?, t.kind ≠ .caret
  straddles : ∀ us, us <:+ ts → Splice.straddles us = false
  narrow : (classFrom? false mode (untokenize ts)).isSome

theorem Stretch.goes (hstretch : Stretch p q mode toks ts q' mode')
    (h : Goes p q mode (toks ++ ts)) : Goes p q' mode' ts where
  lexed := hstretch.lexed
  scanned := by
    have hscanned := h.scanned
    rw [List.foldlM_append, hstretch.scanned] at hscanned
    exact hscanned
  awaits := hstretch.awaits
  caret := by simp [hstretch.started]
  straddles us hus := h.straddles us (hus.trans (List.suffix_append toks ts))
  narrow := by
    have hnarrow := h.narrow
    rw [untokenize_append, hstretch.reads false _ (follows_untokenize ts)] at hnarrow
    simpa using hnarrow

theorem exists_of_joins {h : Token} (hjoins : joins (h :: ts)) : ∃ l us, ts = l :: us := by
  cases ts with
  | nil => cases hjoins
  | cons l us => exact ⟨l, us, rfl⟩

theorem Goes.cases_dash (h : Goes p q (some first) (⟨.dash, ['-'], .charClass⟩ :: ts)) :
    ReadsClass p q (some first) (⟨.dash, ['-'], .charClass⟩ :: ts) ∨
      ∃ toks us q' mode', ⟨.dash, ['-'], .charClass⟩ :: ts = toks ++ us ∧
        Stretch p q (some first) toks us q' mode' := by
  have hchange := WideProgress.not_changes h.scanned
  have hlexed := h.lexed
  obtain ⟨hts, hscan, haw, -, hstraddles, hnarrow⟩ := h
  cases hts with
  | cons _ hts =>
  replace hts : Lexed .charClass ts := hts
  cases hts with
  | nil =>
    have hnone : classFrom? false (some first) ['-'] = none := classFrom_dash_nil
    rw [untokenize_cons, untokenize, List.map_nil, List.flatten_nil, List.append_nil,
      hnone] at hnarrow
    cases hnarrow
  | @cons _ c r k us read rest =>
    by_cases hk : k = .classClose
    · subst hk
      obtain ⟨rfl, rfl⟩ := of_scan_isAlone read rfl rfl
      exact .inl (readsClass_dash haw rest)
    · rw [contextAfter_class hk] at rest
      have hclass := haw
      obtain rfl : q = ⟨false, some first.member, none⟩ := haw
      have hdash : WideProgress.classToken ⟨false, some first.member, none⟩ .dash =
          some ⟨false, none, some first.member⟩ := rfl
      rw [foldlM_class, hdash, Option.bind_some, foldlM_class] at hscan
      obtain ⟨q', hstep, -⟩ := Option.bind_eq_some_iff.mp (Option.eq_some_of_isSome hscan)
      obtain ⟨hfirst, hmember, -⟩ := classToken_open hk hstep
      cases hjoins : joins (⟨k, c :: r, .charClass⟩ :: us) with
      | true =>
        obtain ⟨l, vs, rfl⟩ := exists_of_joins hjoins
        obtain ⟨q', mode', hstretch⟩ := stretch_range_joint hlexed hjoins
          (hstraddles _ (List.suffix_refl _)) hclass hfirst hnarrow
        exact .inr ⟨_, _, q', mode', rfl, hstretch⟩
      | false =>
        rw [List.forall_mem_cons] at hchange
        exact .inr ⟨_, _, _, _, rfl, stretch_range read rest hk hchange.2 hjoins hclass hfirst
          hmember hstep hnarrow⟩

theorem Goes.cases (h : Goes p q mode ts) : ReadsClass p q mode ts ∨
    ∃ toks us q' mode', ts = toks ++ us ∧ Stretch p q mode toks us q' mode' := by
  have hgoes := h
  obtain ⟨hts, hscan, haw, hcaret, -, hnarrow⟩ := h
  have hchange := WideProgress.not_changes hscan
  cases hts with
  | nil =>
    rw [untokenize, List.map_nil, List.flatten_nil, classFrom_nil] at hnarrow
    cases hnarrow
  | @cons _ c r k us read rest =>
    rw [foldlM_class] at hscan
    obtain ⟨q', hstep, -⟩ := Option.bind_eq_some_iff.mp (Option.eq_some_of_isSome hscan)
    by_cases hk : k = .classClose
    · subst hk
      obtain ⟨rfl, rfl⟩ := of_scan_isAlone read rfl rfl
      exact .inl (readsClass_close rest)
    · rw [contextAfter_class hk] at rest
      by_cases hdash : k = .dash → mode = none
      · cases hjoins : joins (⟨k, c :: r, .charClass⟩ :: us) with
        | true =>
          obtain ⟨l, vs, rfl⟩ := exists_of_joins hjoins
          obtain ⟨q', mode', hstretch⟩ := stretch_joint hgoes.lexed hjoins haw
          exact .inr ⟨_, _, q', mode', rfl, hstretch⟩
        | false =>
          obtain ⟨mode', hstretch⟩ := stretch_atom read rest hk hdash hchange hjoins haw
            (fun hstart => hcaret hstart _ rfl) hstep
          exact .inr ⟨_, _, q', mode', rfl, hstretch⟩
      · obtain ⟨rfl, hmode⟩ := Classical.not_imp.mp hdash
        obtain ⟨first, rfl⟩ := Option.ne_none_iff_exists'.mp hmode
        obtain ⟨rfl, rfl⟩ := of_scan_isAlone read rfl rfl
        exact hgoes.cases_dash

/-- A class of a source that is well formed in narrow mode is read alike in both. -/
theorem Goes.readsClass (h : Goes p q mode ts) : ReadsClass p q mode ts := by
  induction hn : ts.length using Nat.strong_induction_on generalizing ts q mode with
  | _ n ih =>
    obtain hend | ⟨toks, us, q', mode', rfl, hstretch⟩ := h.cases
    · exact hend
    · have hlt : us.length < n := by
        have := List.length_pos_of_ne_nil hstretch.ne_nil
        rw [List.length_append] at hn
        omega
      exact hstretch.push (ih _ hlt (hstretch.goes h) rfl)

theorem classLength_of_ne (h : Y.head? ≠ some '^') :
    classLength? wide Y = classMembers? wide Y := by
  unfold classLength?
  split
  · simp at h
  · rfl

theorem readsClass_open (hts : Lexed .charClass ts)
    (hscan : (ts.foldlM WideProgress.step { p with charClass := .start }).isSome)
    (hstraddles : ∀ us, us <:+ ts → straddles us = false)
    (hnarrow : (classLength? false (untokenize ts)).isSome) :
    ∃ front rest q', ts = front ++ rest ∧ Lexed .pattern rest ∧ (∀ t ∈ front, t.inClass) ∧
      front.foldlM WideProgress.step { p with charClass := .start } =
        some { p with charClass := q' } ∧
      ∀ wide Y, classLength? wide (untokenize front ++ Y) = some (untokenize front).length := by
  have hlexed := hts
  by_cases hcaret : ∃ t ∈ ts.head?, t.kind = .caret
  · obtain ⟨t, ht, hkind⟩ := hcaret
    cases hts with
    | nil => cases ht
    | @cons _ c r k us read rest =>
      obtain rfl : ⟨k, c :: r, .charClass⟩ = t := Option.some.inj ht
      obtain rfl : k = .caret := hkind
      obtain ⟨rfl, rfl⟩ := of_scan_isAlone read rfl rfl
      have hcaret : WideProgress.classToken .start .caret = some ⟨false, none, none⟩ := rfl
      rw [foldlM_class, hcaret] at hscan
      have hlength : ∀ wide Y, classLength? wide ('^' :: Y) = (classMembers? wide Y).map (· + 1) :=
        fun _ _ => rfl
      have hgoes : Goes p ⟨false, none, none⟩ none us := by
        refine ⟨rest, hscan, ⟨rfl, rfl⟩, by simp, fun vs hvs => hstraddles vs ?_, ?_⟩
        · exact hvs.trans (List.suffix_cons _ us)
        · have hlonger : (classLength? false ('^' :: untokenize us)).isSome := hnarrow
          rw [hlength] at hlonger
          simpa [classFrom?] using hlonger
      obtain ⟨front, behind, q', rfl, hbehind, -, hfront, hrun, hreads⟩ := hgoes.readsClass
      refine ⟨⟨.caret, ['^'], .charClass⟩ :: front, behind, q', rfl, hbehind,
        List.forall_mem_cons.mpr ⟨rfl, hfront⟩, ?_, fun wide Y => ?_⟩
      · rw [foldlM_class, hcaret]
        exact hrun
      · have hmembers : classMembers? wide (untokenize front ++ Y) = _ := hreads wide Y
        rw [untokenize_cons, List.append_assoc, List.singleton_append, hlength, hmembers]
        rfl
  · have hhead : ∀ Y, Follows ts Y → Y.head? ≠ some '^' := by
      intro Y hf hY
      rw [follows_head hlexed hf] at hY
      cases hlexed with
      | nil => cases hY
      | @cons _ c r k us read rest =>
        obtain rfl : c = '^' := Option.some.inj hY
        exact hcaret ⟨_, rfl, (Prod.mk.inj read).1.symm⟩
    have hgoes : Goes p .start none ts := by
      refine ⟨hlexed, hscan, ⟨rfl, rfl⟩, fun _ t ht hkind => hcaret ⟨t, ht, hkind⟩, hstraddles, ?_⟩
      rwa [classLength_of_ne (hhead _ (follows_untokenize ts))] at hnarrow
    obtain ⟨front, rest, q', rfl, hrest, hne, hfront, hrun, hreads⟩ := hgoes.readsClass
    refine ⟨front, rest, q', rfl, hrest, hfront, hrun, fun wide Y => ?_⟩
    obtain ⟨t, front, rfl⟩ := List.exists_cons_of_ne_nil hne
    rw [classLength_of_ne (hhead _ ⟨untokenize front ++ Y, ?_⟩)]
    · exact hreads wide Y
    · rw [untokenize_cons, List.append_assoc]

end

end Splice
