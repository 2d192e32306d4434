import Splice.Proofs.Surveys

/-!
# Atoms of a promoted source

What one atom is to the grammar may be several tokens to the lexer: a class, a
reference and the digits behind it, two escapes that join. Narrow mode reads
such a stretch of tokens as it stands and wide mode reads what promotion writes
for it, and both go on where a quantifier may follow (`Atom`).
-/

namespace Splice

open Lexer Grammar

-- ---------------------------------------------------------------------------
-- New spellings
-- ---------------------------------------------------------------------------

def respell (ts : List Token) : Text := (ts.map Token.promoted).flatten

theorem respell_cons (t : Token) (ts : List Token) : respell (t :: ts) = t.promoted ++ respell ts :=
  rfl

theorem respell_append (first second : List Token) :
    respell (first ++ second) = respell first ++ respell second := by
  simp [respell]

theorem respell_kept {ts : List Token} (h : ∀ t ∈ ts, t.promoted = t.text) :
    respell ts = untokenize ts := by
  rw [respell, untokenize, List.map_congr_left h]

namespace Grammar

variable {wide : Bool} {found : Survey} {groups : List Bool} {captures : Nat}
variable {c : Char} {k : TokenKind} {w Y : Text} {n : Nat} {mode : Option ClassAtom}

theorem readFrom_class (h : classLength? wide (w ++ Y) = some w.length) :
    readFrom wide found groups captures ('[' :: (w ++ Y)) =
      readAfter wide found groups captures Y := by
  have hterm : term? wide found '[' (w ++ Y) = some (.atom, w.length) := by simp [term?, h]
  rw [readFrom_term hterm, List.drop_left]
  rfl

theorem readFrom_escape {d : Char}
    (h : escapeLength? wide found d (w ++ Y) = some (w.length + 1)) :
    readFrom wide found groups captures ('\\' :: d :: (w ++ Y)) =
      readAfter wide found groups captures Y := by
  have hterm : term? wide found '\\' (d :: (w ++ Y)) = some (.atom, w.length + 1) := by
    simp [term?, h]
  rw [readFrom_term hterm, List.drop_succ_cons, List.drop_left]
  rfl

theorem classFrom_unicode {code : Nat} (h : unicodeEscape? w = some (code, w.length))
    (hcode : isHighSurrogate code = false) :
    classFrom? wide mode ('\\' :: 'u' :: (w ++ Y)) =
      (classFrom? wide (some (.single code)) Y).map (· + w.length + 2) := by
  have hatom : classAtom? wide '\\' ('u' :: (w ++ Y)) = _ :=
    classAtom_unicode ((unicodeEscape_append h hcode).2 Y)
  rw [classFrom_atom (by decide) hatom (.inr (by decide)), List.drop_succ_cons, List.drop_left]
  rfl

theorem classFrom_letter {code : Nat}
    (h : ∀ t, classAtom? wide '\\' (c :: t) = some (.single code, 1)) :
    classFrom? wide mode ('\\' :: c :: Y) =
      (classFrom? wide (some (.single code)) Y).map (· + 2) :=
  classFrom_atom (by decide) (h Y) (.inr (by decide))

theorem classFrom_range_unicode {low high : Nat} (h : unicodeEscape? w = some (high, w.length))
    (hhigh : isHighSurrogate high = false) (hle : low ≤ high) :
    classFrom? wide (some (.single low)) ('-' :: '\\' :: 'u' :: (w ++ ']' :: Y)) =
      some (w.length + 4) := by
  have hatom : classAtom? wide '\\' ('u' :: (w ++ ']' :: Y)) = _ :=
    classAtom_unicode ((unicodeEscape_append h hhigh).2 (']' :: Y))
  have hallowed : rangeAllowed wide (.single low) (.single high) := decide_eq_true hle
  rw [classFrom_range (by decide) hatom, if_pos hallowed, List.drop_succ_cons, List.drop_left]
  rw [classMembers_close, Option.map_some, Nat.add_comm 1, Nat.add_assoc (w.length + 1)]

theorem readFrom_wideDot :
    readFrom true found groups captures (wideDot ++ Y) =
      readAfter true found groups captures Y := by
  refine readFrom_class (w := wideDot.tail) ?_
  have htext : wideDot.tail ++ Y = '^' :: '\\' :: 'n' :: '\\' :: 'r' :: '\\' :: 'u' ::
      ("2028".toList ++ '\\' :: 'u' :: ("2029".toList ++ '\\' :: 'u' ::
        ("\x7b10000\x7d".toList ++ '-' :: '\\' :: 'u' ::
          ("\x7b10FFFF\x7d".toList ++ ']' :: Y)))) := rfl
  have hcaret : ∀ t, classLength? true ('^' :: t) = (classFrom? true none t).map (· + 1) :=
    fun _ => rfl
  have hline : unicodeEscape? "2028".toList = some (0x2028, "2028".toList.length) := by decide
  have hparagraph : unicodeEscape? "2029".toList = some (0x2029, "2029".toList.length) := by decide
  have hfirst : unicodeEscape? "\x7b10000\x7d".toList =
      some (0x10000, "\x7b10000\x7d".toList.length) := by decide
  have hlast : unicodeEscape? "\x7b10FFFF\x7d".toList =
      some (0x10FFFF, "\x7b10FFFF\x7d".toList.length) := by decide
  rw [htext, hcaret, classFrom_letter (fun _ => rfl), classFrom_letter (fun _ => rfl),
    classFrom_unicode hline rfl, classFrom_unicode hparagraph rfl, classFrom_unicode hfirst rfl,
    classFrom_range_unicode hlast rfl (by decide)]
  rfl

theorem readFrom_wideAnyUnit : readFrom true found groups captures (wideAnyUnit ++ Y) =
    readAfter true found groups captures Y := by
  refine readFrom_class (w := wideAnyUnit.tail) ?_
  have htext : wideAnyUnit.tail ++ Y = '\\' :: 'u' ::
      ("0000".toList ++ '-' :: '\\' :: 'u' :: ("FFFF".toList ++ ']' :: Y)) := rfl
  have hplain : ∀ t, classLength? true ('\\' :: t) = classFrom? true none ('\\' :: t) :=
    fun _ => rfl
  have hfirst : unicodeEscape? "0000".toList = some (0, "0000".toList.length) := by decide
  have hlast : unicodeEscape? "FFFF".toList = some (0xFFFF, "FFFF".toList.length) := by decide
  rw [htext, hplain, classFrom_unicode hfirst rfl, classFrom_range_unicode hlast rfl (by decide)]
  rfl

end Grammar

-- ---------------------------------------------------------------------------
-- Tokens that are still to be read
-- ---------------------------------------------------------------------------

def TokenKind.isBackReference : TokenKind → Bool
  | .escape (.backReference _) => true
  | _ => false

/-- The number of the reference that some tokens begin with outside classes, read
with all the digits behind it. -/
def number? : List Token → Option Nat
  | [] => none
  | t :: ts =>
    if t.operator?.any TokenKind.isBackReference then
      some (Text.digitsValue (Text.leadingDigits (t.text.drop 1 ++ untokenize ts)))
    else none

def Token.refersByName (t : Token) : Bool := t.operator? == some (.escape .namedReference)

section
variable {found : Survey} {p p' : WideProgress} {t : Token} {ts toks us : List Token}
variable {c d : Char} {k : TokenKind} {e : Escape} {r w X Y : Text}

/-- What holds of the tokens from a place outside classes on, if the scan finds no
problem in them, references lead to groups and names end with their tokens. -/
structure Pending (found : Survey) (p : WideProgress) (ts : List Token) : Prop where
  lexed : Lexed .pattern ts
  scanned : (ts.foldlM WideProgress.step p).isSome
  names : ∀ t ∈ ts, t.closesName
  numbers : ∀ us, us <:+ ts → ∀ n ∈ number? us, n ≤ found.parentheses
  known : (∃ t ∈ ts, t.refersByName) → found.names ≠ []
  straddles : ∀ us, us <:+ ts → straddles us = false

theorem Pending.behind (h : Pending found p (toks ++ us)) (hlexed : Lexed .pattern us)
    (hscan : toks.foldlM WideProgress.step p = some p') : Pending found p' us where
  lexed := hlexed
  scanned := by
    have hscanned := h.scanned
    rw [List.foldlM_append, hscan] at hscanned
    exact hscanned
  names t ht := h.names t (List.mem_append_right _ ht)
  numbers vs hvs := h.numbers vs (hvs.trans (List.suffix_append toks us))
  known := fun ⟨t, ht, href⟩ => h.known ⟨t, List.mem_append_right _ ht, href⟩
  straddles vs hvs := h.straddles vs (hvs.trans (List.suffix_append toks us))

theorem Pending.not_changes (h : Pending found p ts) : ∀ t ∈ ts, t.changes = false :=
  WideProgress.not_changes h.scanned

theorem Pending.step (h : Pending found p (t :: ts)) : ∃ p', p.step t = some p' := by
  have hscanned := h.scanned
  rw [List.foldlM_cons] at hscanned
  obtain ⟨p', hstep, -⟩ := Option.bind_eq_some_iff.mp (Option.eq_some_of_isSome hscanned)
  exact ⟨p', hstep⟩

theorem WideProgress.step_groups (h : p.step ⟨k, w, .pattern⟩ = some p')
    (hopen : ∀ g, k = .groupOpen g → g.isDeferred) (hclose : k ≠ .groupClose) :
    p'.groups = p.groups := by
  replace h : p.patternToken ⟨k, w, .pattern⟩ = some p' := h
  unfold WideProgress.patternToken at h
  simp only at h
  split at h
  · split at h
    · cases h
    · obtain rfl := Option.some.inj h
      rfl
  · obtain rfl := Option.some.inj h
    rfl
  · rename_i g hg
    cases g with
    | deferred m => exact absurd rfl (hg m)
    | _ => cases hopen _ rfl
  · exact absurd rfl hclose
  · obtain rfl := Option.some.inj h
    rfl
  · cases h
  · split at h
    · cases h
    · obtain rfl := Option.some.inj h
      rfl

-- ---------------------------------------------------------------------------
-- Atoms
-- ---------------------------------------------------------------------------

/-- Some tokens that are one atom to the grammar, in narrow mode as they stand and in
wide mode as promotion respells them. -/
structure Atom (found : Survey) (p : WideProgress) (toks us : List Token) (p' : WideProgress) :
    Prop where
  ne_nil : toks ≠ []
  lexed : Lexed .pattern us
  scanned : toks.foldlM WideProgress.step p = some p'
  groups : p'.groups = p.groups
  narrow : ∀ groups captures,
    readFrom false found groups captures (untokenize toks ++ untokenize us) =
      readAfter false found groups captures (untokenize us)
  wide : ∀ groups captures,
    readFrom true found groups captures (respell toks ++ respell us) =
      readAfter true found groups captures (respell us)

/-- Some tokens begin with an atom. -/
def HasAtom (found : Survey) (p : WideProgress) (ts : List Token) : Prop :=
  ∃ toks us p', ts = toks ++ us ∧ Atom found p toks us p'

theorem Pending.single (h : Pending found p (⟨k, w, .pattern⟩ :: us)) (hrest : Lexed .pattern us)
    (hopen : ∀ g, k = .groupOpen g → g.isDeferred) (hclose : k ≠ .groupClose)
    (hnarrow : ∀ groups captures, readFrom false found groups captures (w ++ untokenize us) =
      readAfter false found groups captures (untokenize us))
    (hwide : ∀ groups captures, readFrom true found groups captures
      ((⟨k, w, .pattern⟩ : Token).promoted ++ respell us) =
        readAfter true found groups captures (respell us)) :
    HasAtom found p (⟨k, w, .pattern⟩ :: us) := by
  obtain ⟨p', hstep⟩ := h.step
  have hscan : [⟨k, w, .pattern⟩].foldlM WideProgress.step p = some p' := by
    rw [List.foldlM_cons, hstep]
    rfl
  refine ⟨[⟨k, w, .pattern⟩], us, p', rfl, by simp, hrest, hscan,
    WideProgress.step_groups hstep hopen hclose, fun groups captures => ?_,
    fun groups captures => ?_⟩
  · rw [← hnarrow]
    simp [untokenize]
  · rw [← hwide]
    simp [respell]

-- ---------------------------------------------------------------------------
-- Characters and new spellings
-- ---------------------------------------------------------------------------

theorem isLiteral_of_scan (read : scan .pattern c (r ++ X) = (k, r.length))
    (hk : k = .char ∨ k = .dash) : isLiteral c := by
  obtain hfirst | ⟨-, -, hc⟩ := first_of_scan read
  · obtain rfl | rfl := hk
    · cases hfirst
    · obtain rfl := Option.some.inj hfirst
      rfl
  · have hown : ∀ x ∈ "^$\\*+?()[]\x7b\x7d|".toList, ownKinds.contains x :=
      forall_mem_of_all (by decide)
    unfold isLiteral
    rw [Bool.not_eq_eq_eq_not, Bool.not_true, List.contains_eq_mem, decide_eq_false_iff_not]
    exact fun hm => hc (List.contains_iff_mem.mp (hown c hm))

theorem Pending.atom_literal (h : Pending found p (⟨k, c :: r, .pattern⟩ :: us))
    (read : scan .pattern c (r ++ untokenize us) = (k, r.length))
    (rest : Lexed (contextAfter .pattern k) us) (hk : k = .char ∨ k = .dash) :
    HasAtom found p (⟨k, c :: r, .pattern⟩ :: us) := by
  have hliteral := isLiteral_of_scan read hk
  have halone : k.isAlone := by obtain rfl | rfl := hk <;> rfl
  obtain rfl := List.length_eq_zero_iff.mp (scan_of_isAlone read halone)
  have hkept : (⟨k, [c], .pattern⟩ : Token).promoted = [c] := by obtain rfl | rfl := hk <;> rfl
  have hafter : contextAfter .pattern k = .pattern := by obtain rfl | rfl := hk <;> rfl
  rw [hafter] at rest
  refine h.single rest ?_ ?_ (fun _ _ => readFrom_literal hliteral) fun _ _ => ?_
  · rintro g rfl
    obtain hk | hk := hk <;> cases hk
  · rintro rfl
    obtain hk | hk := hk <;> cases hk
  · rw [hkept]
    exact readFrom_literal hliteral

namespace Grammar

variable {wide : Bool} {groups : List Bool} {captures : Nat}

theorem readFrom_identity (hc : c ∈ "\x7b\x7d]".toList) :
    readFrom wide found groups captures ('\\' :: c :: Y) =
      readAfter wide found groups captures Y := by
  have hall : ∀ x ∈ "\x7b\x7d]".toList, sharedEscapes.contains x && identityEscapes.contains x :=
    forall_mem_of_all (by decide)
  have hmem := hall c hc
  rw [Bool.and_eq_true, List.contains_iff_mem, List.contains_iff_mem] at hmem
  obtain ⟨hown, hset, hdigit⟩ := of_mem_sharedEscapes hmem.1
  refine readFrom_escape (w := []) ?_
  rw [List.nil_append, escapeLength_character hown hset (by simp [hdigit]),
    characterEscape_identity hmem.2]
  rfl

theorem readFrom_respelling (h : k.respelling? = some w) :
    readFrom true found groups captures (w ++ Y) = readAfter true found groups captures Y := by
  cases k.respelled h with
  | braceOpen | braceClose | classClose => exact readFrom_identity (by decide)
  | dot => exact readFrom_wideDot
  | emptyNegated => exact readFrom_wideAnyUnit

theorem readFrom_respelt (read : scan .pattern c (r ++ X) = (k, r.length))
    (h : k.respelling? = some w) :
    readFrom false found groups captures (c :: (r ++ X)) =
      readAfter false found groups captures X := by
  have alone : ∀ {a : Char}, k.isAlone → k.first? = some a →
      term? false found a X = some (.atom, 0) →
        readFrom false found groups captures (c :: (r ++ X)) =
          readAfter false found groups captures X := by
    intro a hk hfirst hterm
    obtain ⟨rfl, rfl⟩ := of_scan_isAlone read hk hfirst
    exact readFrom_term hterm
  cases k.respelled h with
  | braceOpen =>
    refine alone rfl rfl ?_
    obtain ⟨rfl, rfl⟩ := of_scan_isAlone read rfl rfl
    rw [List.nil_append, scan_brace] at read
    split at read
    · cases (Prod.mk.inj read).1
    · rename_i hnone
      simp [term?, hnone]
  | braceClose | classClose => exact alone rfl rfl rfl
  | dot => exact alone rfl rfl (term_literal (by decide))
  | emptyNegated =>
    obtain ⟨-, rfl, rfl⟩ := of_scan_emptyNegated read
    refine readFrom_class (w := ['^', ']']) ?_
    have hlength : classLength? false ('^' :: ']' :: X) =
        (classMembers? false (']' :: X)).map (· + 1) := rfl
    rw [List.cons_append, List.cons_append, List.nil_append, hlength, classMembers_close]
    rfl

end Grammar

theorem Pending.atom_respelt (h : Pending found p (⟨k, c :: r, .pattern⟩ :: us))
    (read : scan .pattern c (r ++ untokenize us) = (k, r.length))
    (rest : Lexed (contextAfter .pattern k) us) (hk : k.respelling? = some w) :
    HasAtom found p (⟨k, c :: r, .pattern⟩ :: us) := by
  rw [contextAfter_respelling hk] at rest
  refine h.single rest ?_ ?_ (fun _ _ => readFrom_respelt read hk) fun _ _ => ?_
  · rintro g rfl
    cases hk
  · rintro rfl
    cases hk
  · rw [Token.promoted_eq rfl, hk]
    exact readFrom_respelling hk

theorem Pending.atom_marker {m : Marker}
    (h : Pending found p (⟨.groupOpen (.deferred m), c :: r, .pattern⟩ :: us))
    (read : scan .pattern c (r ++ untokenize us) = (.groupOpen (.deferred m), r.length))
    (rest : Lexed .pattern us) :
    HasAtom found p (⟨.groupOpen (.deferred m), c :: r, .pattern⟩ :: us) := by
  have hs := spelled_of_scan read
  obtain hfirst | ⟨hk, -⟩ := first_of_scan read
  · obtain rfl := Option.some.inj hfirst
    refine h.single rest ?_ (by simp) (fun _ _ => readFrom_marker hs) fun _ _ => readFrom_marker hs
    rintro g hg
    obtain rfl := TokenKind.groupOpen.inj hg
    rfl
  · cases hk

-- ---------------------------------------------------------------------------
-- Runs of plain characters
-- ---------------------------------------------------------------------------

theorem scan_literal (hc : isLiteral c) (hdot : c ≠ '.') :
    ∃ k, (k = .char ∨ k = .dash) ∧ ∀ t, scan .pattern c t = (k, 0) := by
  by_cases hd : c = '-'
  · subst hd
    exact ⟨.dash, .inr rfl, fun _ => rfl⟩
  · refine ⟨.char, .inl rfl, fun t => ?_⟩
    unfold scan
    split <;> first
      | rfl
      | exact absurd rfl hdot
      | exact absurd rfl hd
      | cases hc

theorem exists_run (hlexed : Lexed .pattern ts) (htext : untokenize ts = w ++ Y)
    (hw : ∀ x ∈ w, isLiteral x ∧ x ≠ '.') :
    ∃ front us, ts = front ++ us ∧ untokenize front = w ∧ untokenize us = Y ∧ respell front = w ∧
      Lexed .pattern us ∧
        ∀ p : WideProgress, p.afterLookahead = false →
          front.foldlM WideProgress.step p = some p := by
  induction w generalizing ts with
  | nil => exact ⟨[], ts, rfl, rfl, htext, rfl, hlexed, fun _ _ => rfl⟩
  | cons x w ih =>
    rw [List.forall_mem_cons] at hw
    cases hlexed with
    | nil => cases htext
    | @cons _ a r k us read rest =>
      obtain rfl : a = x := (List.cons.inj htext).1
      obtain ⟨k', hk, hscan⟩ := scan_literal hw.1.1 hw.1.2
      obtain ⟨rfl, hlength⟩ := Prod.mk.inj (read.symm.trans (hscan _))
      obtain rfl := List.length_eq_zero_iff.mp hlength
      have hafter : contextAfter .pattern k = .pattern := by obtain rfl | rfl := hk <;> rfl
      rw [hafter] at rest
      obtain ⟨front, vs, rfl, hfront, hvs, hrespell, hrest, hrun⟩ :=
        ih rest (List.cons.inj htext).2 hw.2
      have hkept : (⟨k, [a], .pattern⟩ : Token).promoted = [a] := by
        obtain rfl | rfl := hk <;> rfl
      refine ⟨⟨k, [a], .pattern⟩ :: front, vs, rfl, ?_, hvs, ?_, hrest, fun p hp => ?_⟩
      · rw [untokenize_cons, hfront]
        rfl
      · rw [respell_cons, hrespell, hkept]
        rfl
      · have hstep : p.step ⟨k, [a], .pattern⟩ = some p := by
          obtain ⟨groups, after, charClass⟩ := p
          obtain rfl : after = false := hp
          obtain rfl | rfl := hk <;> rfl
        rw [List.foldlM_cons, hstep]
        exact hrun p hp

-- ---------------------------------------------------------------------------
-- Escapes
-- ---------------------------------------------------------------------------

theorem respell_head (h : Lexed .pattern ts) (hc : c ≠ '\\' ∧ c ≠ '[')
    (hne : (untokenize ts).head? ≠ some c) : (respell ts).head? ≠ some c :=
  head_spell (fun _ => .inr rfl) h hc hne

theorem respell_digit (h : Lexed .pattern ts)
    (hdigit : (untokenize ts).head?.any Char.isDigit = false) :
    (respell ts).head?.any Char.isDigit = false := by
  by_contra hY
  obtain ⟨c, hc, hd⟩ := (Option.any_eq_true ..).mp (Bool.eq_true_of_not_eq_false hY)
  refine respell_head h ⟨?_, ?_⟩ (fun hT => ?_) hc
  · rintro rfl
    cases hd
  · rintro rfl
    cases hd
  · rw [hT] at hdigit
    simp [hd] at hdigit

theorem Pending.escape (h : Pending found p (⟨.escape e, c :: r, .pattern⟩ :: us))
    (read : scan .pattern c (r ++ untokenize us) = (.escape e, r.length)) :
    ∃ d w, c = '\\' ∧ r = d :: w ∧ e.Spelled d w ∧
      scanEscape d (w ++ untokenize us) = (e, w.length + 1) := by
  obtain hfirst | ⟨hk, -⟩ := first_of_scan read
  · obtain rfl := Option.some.inj hfirst
    obtain ⟨d, w, rfl, e', he, hread⟩ :=
      cons_of_scan_escape read (h.not_changes _ List.mem_cons_self)
    obtain rfl := TokenKind.escape.inj he
    exact ⟨d, w, rfl, rfl, spelled_scanEscape hread, hread⟩
  · cases hk

theorem exists_name {raw : Text} {groups : List Bool} {captures : Nat}
    (hvalid : GroupName.isValid raw) (hnames : found.names ≠ [])
    (hread : (readFrom false found groups captures
      ('\\' :: 'k' :: '<' :: (raw ++ '>' :: Y))).isSome) :
    ∃ name ∈ found.names, name? (raw ++ ['>']) = some (name, raw.length + 1) := by
  obtain ⟨a, rest, hraw, -, hend⟩ := exists_of_isValid hvalid
  have hname := fun Z => name_of_unescape (Y := Z) hraw hend
  have hterm : ((name? (raw ++ '>' :: Y)).bind fun read =>
      if found.names.contains read.1 then some (read.2 + 1) else none).isSome := by
    by_contra hnone
    rw [Option.not_isSome_iff_eq_none] at hnone
    have hreference :
        namedReferenceLength? false found.names ('<' :: (raw ++ '>' :: Y)) = none := by
      simpa [namedReferenceLength?, hnames] using hnone
    have hlength : escapeLength? false found 'k' ('<' :: (raw ++ '>' :: Y)) = none := by
      simp [escapeLength?, isShorthand, hreference]
    have hterm : term? false found '\\' ('k' :: '<' :: (raw ++ '>' :: Y)) = none := by
      simp [term?, hlength]
    rw [readFrom_cons, hterm] at hread
    cases hread
  rw [hname] at hterm
  split at hterm
  · rename_i hid
    refine ⟨a :: rest, ?_, by rw [hname, if_pos hid]⟩
    by_contra hmem
    simp [hmem] at hterm
  · cases hterm

theorem Pending.atom_escape {groups : List Bool} {captures : Nat}
    (h : Pending found p (⟨.escape e, c :: r, .pattern⟩ :: us))
    (read : scan .pattern c (r ++ untokenize us) = (.escape e, r.length))
    (rest : Lexed .pattern us)
    (hread : (readFrom false found groups captures (c :: (r ++ untokenize us))).isSome)
    (hu : e ≠ .unicode) (hreference : ∀ n, e ≠ .backReference n) :
    HasAtom found p (⟨.escape e, c :: r, .pattern⟩ :: us) := by
  obtain ⟨d, w, rfl, rfl, hs, hscan⟩ := h.escape read
  have hname : e = .namedReference →
      ∃ name ∈ found.names, name? w.tail = some (name, w.tail.length) := by
    rintro rfl
    obtain ⟨rfl, raw, rfl⟩ := hs
    have hvalid := isValid_of_not_changes (h.not_changes _ List.mem_cons_self)
    have hread : (readFrom false found groups captures
        ('\\' :: 'k' :: '<' :: (raw ++ '>' :: untokenize us))).isSome := by
      simpa using hread
    obtain ⟨name, hmem, hname⟩ :=
      exists_name hvalid (h.known ⟨_, List.mem_cons_self, rfl⟩) hread
    exact ⟨name, hmem, by simpa using hname⟩
  have hdigit : e.isNumber → (untokenize us).head?.any Char.isDigit = false := by
    intro hnumber
    cases e with
    | null => exact not_digit_of_null hscan
    | backReference n => exact absurd rfl (hreference n)
    | _ => cases hnumber
  have hlength : ∀ wide Y, (e.isNumber → Y.head?.any Char.isDigit = false) →
      escapeLength? wide found d (w ++ Y) = some (w.length + 1) := fun wide Y hY =>
    escapeLength_spelled hs (h.not_changes _ List.mem_cons_self) hu hreference hname hY
  exact h.single rest (by simp) (by simp)
    (fun _ _ => readFrom_escape (hlength false _ hdigit))
    fun _ _ => readFrom_escape (hlength true _ fun hnumber => respell_digit rest (hdigit hnumber))

theorem Pending.atom_reference {n : Nat}
    (h : Pending found p (⟨.escape (.backReference n), c :: r, .pattern⟩ :: us))
    (read : scan .pattern c (r ++ untokenize us) = (.escape (.backReference n), r.length))
    (rest : Lexed .pattern us) :
    HasAtom found p (⟨.escape (.backReference n), c :: r, .pattern⟩ :: us) := by
  obtain ⟨d, w, rfl, rfl, ⟨hd, h0, hw, -⟩, -⟩ := h.escape read
  obtain ⟨digits, Y, htext, hdigits, hY⟩ := exists_leadingDigits (untokenize us)
  obtain ⟨front, vs, rfl, hfront, rfl, hrespell, hrest, hrun⟩ := exists_run rest htext fun x hx =>
    ⟨isLiteral_of_isDigit (hdigits x hx), by rintro rfl; cases hdigits _ hx⟩
  have hall : ∀ x ∈ w ++ digits, x.isDigit := fun x hx =>
    (List.mem_append.mp hx).elim (hw x) (hdigits x)
  have hle : Text.digitsValue (d :: (w ++ digits)) ≤ found.parentheses := by
    refine h.numbers _ (List.suffix_refl _) _ ?_
    have hlead : Text.leadingDigits (d :: (w ++ digits) ++ untokenize vs) = d :: (w ++ digits) :=
      leadingDigits_append (List.forall_mem_cons.mpr ⟨hd, hall⟩) hY
    rw [List.cons_append, List.append_assoc] at hlead
    have hnumber :
        number? (⟨.escape (.backReference n), '\\' :: d :: w, .pattern⟩ :: (front ++ vs)) =
        some (Text.digitsValue (Text.leadingDigits (d :: (w ++ untokenize (front ++ vs))))) := rfl
    rw [hnumber, untokenize_append, hfront, hlead]
    rfl
  have hlength : ∀ wide Y, Y.head?.any Char.isDigit = false →
      escapeLength? wide found d ((w ++ digits) ++ Y) = some ((w ++ digits).length + 1) :=
    fun wide Y hY => escapeLength_reference hd h0 hall hle hY
  have htoks : untokenize (⟨.escape (.backReference n), '\\' :: d :: w, .pattern⟩ :: front) =
      '\\' :: d :: (w ++ digits) := by
    rw [untokenize_cons, hfront]
    rfl
  have hwide : respell (⟨.escape (.backReference n), '\\' :: d :: w, .pattern⟩ :: front) =
      '\\' :: d :: (w ++ digits) := by
    rw [respell_cons, hrespell]
    rfl
  have hstep : p.step ⟨.escape (.backReference n), '\\' :: d :: w, .pattern⟩ =
      some { p with afterLookahead := false } := rfl
  refine ⟨_ :: front, vs, { p with afterLookahead := false }, rfl, by simp, hrest, ?_, rfl,
    fun groups captures => ?_, fun groups captures => ?_⟩
  · rw [List.foldlM_cons, hstep]
    exact hrun _ rfl
  · rw [htoks]
    exact readFrom_escape (hlength false _ hY)
  · rw [hwide]
    exact readFrom_escape (hlength true _ (respell_digit hrest hY))

theorem respell_ne_unicode (h : Lexed .pattern ts) (hchange : ∀ t ∈ ts, t.changes = false)
    (hk : ∀ t ∈ ts.head?, t.kind ≠ .escape .unicode) (Z : Text) :
    respell ts ≠ '\\' :: 'u' :: Z := by
  intro hZ
  have hlexed := h
  cases h with
  | nil => cases hZ
  | @cons _ a r k us read rest =>
    rw [respell_cons, Token.promoted_eq rfl] at hZ
    cases hrespell : k.respelling? with
    | none =>
      rw [hrespell] at hZ
      exact follows_unicode hlexed hchange ⟨respell us, rfl⟩ hk Z hZ
    | some w =>
      rw [hrespell] at hZ
      obtain ⟨b, hb, rfl⟩ | ⟨v, rfl⟩ := front_respelling hrespell
      · obtain rfl : b = 'u' := (List.cons.inj (List.cons.inj hZ).2).1
        revert hb
        decide
      · cases (List.cons.inj hZ).1

theorem Pending.atom_joint {u : Token} (h : Pending found p (t :: u :: us))
    (hjoins : joins (t :: u :: us)) : HasAtom found p (t :: u :: us) := by
  obtain ⟨w, v, code, low, rfl, rfl, hw, hv, hcode, hlow, -, -, hhigh, hrest⟩ :=
    exists_quads h.lexed hjoins
  have hread : ∀ wide groups captures Y,
      readFrom wide found groups captures
        (untokenize [⟨.escape .unicode, '\\' :: 'u' :: w, .pattern⟩,
          ⟨.escape .unicode, '\\' :: 'u' :: v, .pattern⟩] ++ Y) =
        readAfter wide found groups captures Y := by
    intro wide groups captures Y
    rw [untokenize_quads, List.cons_append, List.cons_append, List.append_assoc, List.cons_append,
      List.cons_append]
    exact readFrom_joint hw hcode hv hlow hhigh
  exact ⟨[_, _], us, { p with afterLookahead := false }, rfl, by simp, hrest, rfl, rfl,
    fun groups captures => hread false groups captures _,
    fun groups captures => hread true groups captures _⟩

theorem Pending.atom_unicode (h : Pending found p (⟨.escape .unicode, c :: r, .pattern⟩ :: us))
    (rest : Lexed .pattern us) :
    HasAtom found p (⟨.escape .unicode, c :: r, .pattern⟩ :: us) := by
  cases hjoins : joins (⟨.escape .unicode, c :: r, .pattern⟩ :: us) with
  | true =>
    obtain ⟨u, vs, rfl⟩ := exists_of_joins hjoins
    exact h.atom_joint hjoins
  | false =>
    obtain ⟨w, code, htoken, hw, hcode, hcodeOf, -⟩ := h.lexed.quad rfl
    obtain ⟨rfl, rfl⟩ := List.cons.inj (Token.mk.inj htoken).2.1
    have hchange := (List.forall_mem_cons.mp h.not_changes).2
    have hhead : isHighSurrogate code → ∀ u ∈ us.head?, u.kind ≠ .escape .unicode := by
      intro hhigh
      exact head_of_joins hjoins (by simp [hcodeOf, hhigh])
    exact h.single rest (by simp) (by simp)
      (fun _ _ => readFrom_alone hw hcode fun hhigh =>
        follows_unicode rest hchange (follows_untokenize us) (hhead hhigh))
      fun _ _ => readFrom_alone hw hcode fun hhigh =>
        respell_ne_unicode rest hchange (hhead hhigh)

-- ---------------------------------------------------------------------------
-- Classes
-- ---------------------------------------------------------------------------

theorem Pending.atom_class {groups : List Bool} {captures : Nat}
    (h : Pending found p (⟨.classOpen .plain, c :: r, .pattern⟩ :: us))
    (read : scan .pattern c (r ++ untokenize us) = (.classOpen .plain, r.length))
    (rest : Lexed .charClass us)
    (hread : (readFrom false found groups captures (c :: (r ++ untokenize us))).isSome) :
    HasAtom found p (⟨.classOpen .plain, c :: r, .pattern⟩ :: us) := by
  obtain ⟨rfl, rfl⟩ := of_scan_isAlone read rfl rfl
  have hstep : p.step ⟨.classOpen .plain, ['['], .pattern⟩ =
      some { p with afterLookahead := false, charClass := .start } := rfl
  have hscan : (us.foldlM WideProgress.step
      { p with afterLookahead := false, charClass := .start }).isSome := by
    have hscanned := h.scanned
    rw [List.foldlM_cons, hstep] at hscanned
    exact hscanned
  have hnarrow : (classLength? false (untokenize us)).isSome := by
    by_contra hnone
    rw [Option.not_isSome_iff_eq_none] at hnone
    have hterm : term? false found '[' (untokenize us) = none := by simp [term?, hnone]
    rw [List.nil_append, readFrom_cons, hterm] at hread
    cases hread
  obtain ⟨front, vs, q, rfl, hrest, hclass, hrun, hlength⟩ :=
    readsClass_open (p := { p with afterLookahead := false }) rest hscan
      (fun vs hvs => h.straddles vs (hvs.trans (List.suffix_cons _ _))) hnarrow
  have hkept :
      respell (⟨.classOpen .plain, ['['], .pattern⟩ :: front) = '[' :: untokenize front := by
    rw [respell_cons, respell_kept fun t ht => Token.promoted_inClass (beq_iff_eq.mp (hclass t ht))]
    rfl
  refine ⟨_ :: front, vs, { p with afterLookahead := false, charClass := q }, rfl, by simp, hrest,
    ?_, rfl, fun groups captures => ?_, fun groups captures => ?_⟩
  · rw [List.foldlM_cons, hstep]
    exact hrun
  · exact readFrom_class (hlength false _)
  · rw [hkept]
    exact readFrom_class (hlength true _)

end

end Splice
