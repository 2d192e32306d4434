import Splice.Proofs.Plans
import Splice.Proofs.Seams
import Splice.Proofs.Tokenwise

/-!
# Moving sources behind groups

Renumbering a text is renumbering its parts. A text without markers, be it a
source or not, is moved token by token. Moving it twice is moving it once, and
where it cannot be moved, its first reference that is in the way is reported.
-/

namespace Splice

variable {context : Context} {s t u : Text} {ts us : List Token}
  {j k l offset : Word} {e : Error}

-- ---------------------------------------------------------------------------
-- Tokens in a row
-- ---------------------------------------------------------------------------

def renumberTokens (offset : Word) (ts : List Token) : Except Error Text :=
  (ts.mapM (Token.renumber offset)).map List.flatten

theorem renumberTokens_nil_ok : renumberTokens offset [] = .ok u ↔ u = [] := by
  simp [renumberTokens, pure, Except.pure, Except.map, eq_comm]

theorem renumberTokens_cons_ok {a : Token} : renumberTokens offset (a :: ts) = .ok u ↔
    ∃ x y, a.renumber offset = .ok x ∧ renumberTokens offset ts = .ok y ∧ u = x ++ y := by
  simp only [renumberTokens, List.mapM_cons, map_ok, bind_ok, pure_ok]
  constructor
  · rintro ⟨_, ⟨x, hx, texts, htexts, rfl⟩, rfl⟩
    exact ⟨x, _, hx, ⟨texts, htexts, rfl⟩, rfl⟩
  · rintro ⟨x, _, hx, ⟨texts, htexts, rfl⟩, rfl⟩
    exact ⟨_, ⟨x, hx, texts, htexts, rfl⟩, rfl⟩

theorem renumberTokens_append_ok : renumberTokens offset (ts ++ us) = .ok u ↔
    ∃ x y, renumberTokens offset ts = .ok x ∧ renumberTokens offset us = .ok y ∧ u = x ++ y := by
  induction ts generalizing u with
  | nil => simp [renumberTokens_nil_ok]
  | cons a ts ih =>
    simp only [List.cons_append, renumberTokens_cons_ok, ih]
    constructor
    · rintro ⟨x, _, hx, ⟨y, z, hy, hz, rfl⟩, rfl⟩
      exact ⟨x ++ y, z, ⟨x, y, hx, hy, rfl⟩, hz, by rw [List.append_assoc]⟩
    · rintro ⟨_, z, ⟨x, y, hx, hy, rfl⟩, hz, rfl⟩
      exact ⟨x, y ++ z, hx, ⟨y, z, hy, hz, rfl⟩, by rw [List.append_assoc]⟩

theorem TokenKind.renumber_of_isPlain {k : TokenKind} (h : k.isPlain) (t : Text) :
    (⟨k, t, context⟩ : Token).renumber offset = .ok t := by
  cases context with
  | charClass => rfl
  | pattern =>
    cases k with
    | escape e => cases e <;> first | rfl | cases h
    | groupOpen g => cases h
    | _ => rfl

namespace Lexer

theorem renumberTokens_plain {c : Char} {k : TokenKind} {n : Nat} (h : scan context c t = (k, n))
    (hk : k.isPlain) : renumberTokens offset (lexFrom context (c :: t)) = .ok u ↔
      ∃ y, renumberTokens offset (lexFrom context (t.drop n)) = .ok y ∧
        u = c :: (t.take n ++ y) := by
  rw [lexFrom_cons, h, renumberTokens_cons_ok, TokenKind.renumber_of_isPlain hk,
    contextAfter_of_isPlain hk]
  simp

/-- Soft characters at the start of a text are copied. A quantifier that begins
among them is soft to its end. -/
theorem renumberTokens_soft {t u : Text} {m : Nat} (hs : ∀ x ∈ t.take m, isSoft x) :
    renumberTokens offset (lexFrom context t) = .ok u ↔
      ∃ y, renumberTokens offset (lexFrom context (t.drop m)) = .ok y ∧ u = t.take m ++ y := by
  match t, m with
  | [], _ => simp
  | _ :: _, 0 => simp
  | c :: t, m + 1 =>
    rw [List.take_succ_cons, List.forall_mem_cons] at hs
    obtain ⟨k, n, hk, hp, -, hn⟩ := scan_soft hs.1 context t
    have hdrop : ∀ {a b}, a ≤ b → (t.drop a).drop (b - a) = t.drop b := fun h => by
      rw [List.drop_drop, Nat.add_sub_cancel' h]
    have htake : ∀ {a b}, a ≤ b → t.take a ++ (t.drop a).take (b - a) = t.take b := fun h => by
      rw [← List.take_add, Nat.add_sub_cancel' h]
    rw [renumberTokens_plain hk hp, List.drop_succ_cons, List.take_succ_cons]
    rcases Nat.le_total n m with h | h
    · have ih : ∀ {u}, renumberTokens offset (lexFrom context (t.drop n)) = .ok u ↔ _ :=
        renumberTokens_soft (m := m - n) fun x hx => hs.2 x (by
          rw [← htake h]
          exact List.mem_append_right _ hx)
      simp only [ih, hdrop h]
      constructor
      · rintro ⟨_, ⟨y, hy, rfl⟩, rfl⟩
        exact ⟨y, hy, by rw [← htake h, List.cons_append, List.append_assoc]⟩
      · rintro ⟨y, hy, rfl⟩
        exact ⟨_, ⟨y, hy, rfl⟩, by rw [← htake h, List.cons_append, List.append_assoc]⟩
    · have ih : ∀ {u}, renumberTokens offset (lexFrom context (t.drop m)) = .ok u ↔ _ :=
        renumberTokens_soft (m := n - m) fun x hx => hn x (by
          rw [← htake h]
          exact List.mem_append_right _ hx)
      simp only [ih, hdrop h]
      constructor
      · rintro ⟨y, hy, rfl⟩
        exact ⟨_, ⟨y, hy, rfl⟩, by rw [← htake h, List.cons_append, List.append_assoc]⟩
      · rintro ⟨_, ⟨y, hy, rfl⟩, rfl⟩
        exact ⟨y, hy, by rw [← htake h, List.cons_append, List.append_assoc]⟩
termination_by t.length
decreasing_by all_goals exact Text.length_drop_lt ..

theorem renumberTokens_of_soft (hs : ∀ x ∈ t, isSoft x) :
    renumberTokens offset (lexFrom .pattern t) = .ok u ↔ u = t := by
  rw [renumberTokens_soft (m := t.length) (by simpa using hs), List.drop_length, lexFrom_nil]
  simp [renumberTokens_nil_ok]

end Lexer

-- ---------------------------------------------------------------------------
-- Sources in a row
-- ---------------------------------------------------------------------------

namespace Source

variable {a b : Text}

theorem renumber_eq (s : Text) (offset : Word) :
    renumber s offset = renumberTokens offset (lex s) := by
  unfold renumber renumberTokens
  cases (lex s).mapM (Token.renumber offset) <;> rfl

theorem final_of_lex {a : Token} (h : lex s = ts ++ [a]) (ha : a.isReference) :
    (references s).final := by simp [references, h, ha]

/-- Two sources are renumbered one by one. A token that runs across the seam
holds no reference, and neither do the ones it is made of. -/
theorem renumber_append_ok (ha : Closed a) (h : Meets true a b) :
    renumber (a ++ b) offset = .ok u ↔
      ∃ x y, renumber a offset = .ok x ∧ renumber b offset = .ok y ∧ u = x ++ y := by
  simp only [renumber_eq]
  cases Lexer.seam ((closed_iff false).mp ha) b with
  | apart read =>
    have hlex : lex (a ++ b) = lex a ++ lex b := read
    rw [hlex, renumberTokens_append_ok]
  | across front c v k k' n n' old new alone joined grows goes =>
    have hold : lex a = front ++ Lexer.lexFrom .pattern (c :: v) := old
    have hnew : lex (a ++ b) = front ++ Lexer.lexFrom .pattern (c :: (v ++ b)) := new
    cases grows with
    | plain plain plain' taken =>
      obtain ⟨m, rfl, -, -, hv, hb⟩ := taken
      have hlast : ∀ {x}, renumberTokens offset (Lexer.lexFrom .pattern (c :: v)) = .ok x ↔
          x = c :: v := by
        intro x
        rw [Lexer.renumberTokens_plain alone plain]
        simp only [Lexer.renumberTokens_of_soft fun x hx => hv x (List.mem_of_mem_drop hx),
          exists_eq_left, List.take_append_drop]
      have hgrown : ∀ {x}, renumberTokens offset (Lexer.lexFrom .pattern (c :: (v ++ b))) = .ok x ↔
          ∃ y, renumberTokens offset (lex b) = .ok y ∧ x = c :: v ++ y := by
        intro x
        rw [Lexer.renumberTokens_plain joined plain', lex]
        simp only [Lexer.renumberTokens_soft hb, List.drop_append, List.take_append,
          List.drop_eq_nil_of_le (Nat.le_add_right v.length m), Nat.add_sub_cancel_left,
          List.take_of_length_le (Nat.le_add_right v.length m), List.nil_append]
        constructor
        · rintro ⟨y, hy, rfl⟩
          exact ⟨_, ⟨y, hy, rfl⟩, by simp⟩
        · rintro ⟨_, ⟨y, hy, rfl⟩, rfl⟩
          exact ⟨y, hy, by simp⟩
      rw [hold, hnew]
      simp only [renumberTokens_append_ok, hlast, hgrown]
      constructor
      · rintro ⟨x, _, hx, ⟨y, hy, rfl⟩, rfl⟩
        exact ⟨_, y, ⟨x, _, hx, rfl, rfl⟩, hy, by rw [List.append_assoc]⟩
      · rintro ⟨_, y, ⟨x, _, hx, rfl, rfl⟩, hy, rfl⟩
        exact ⟨x, _, hx, ⟨y, hy, rfl⟩, by rw [List.append_assoc]⟩
    | reference i j d hk hk' hone htwo hdigit =>
      subst hk hk' hone htwo
      have hone : Lexer.lexFrom .pattern [c, d] =
          [⟨.escape (.backReference i), c :: [d].take n, .pattern⟩] := by
        rw [Lexer.lexFrom_cons, alone, Lexer.drop_of_scan_escape alone]
        exact congrArg _ (Lexer.lexFrom_nil _)
      exact absurd (Sequel.of_eq_digit.mpr hdigit) (h rfl (final_of_lex (hone ▸ hold) rfl))

end Source

-- ---------------------------------------------------------------------------
-- Sources that are moved twice
-- ---------------------------------------------------------------------------

def Token.moved (offset : Word) (a : Token) : Token :=
  match a.operator? with
  | some (.escape (.backReference n)) => referenceToken (n + offset.toNat)
  | _ => a

theorem Token.moved_cases {a : Token} (ha : a.isMarker = false) :
    (∃ n text, a = ⟨.escape (.backReference n), text, .pattern⟩) ∨
      ∀ offset, a.moved offset = a ∧ a.renumber offset = .ok a.text := by
  obtain ⟨k, text, context⟩ := a
  cases context with
  | charClass => exact .inr fun _ => ⟨rfl, rfl⟩
  | pattern =>
    cases k with
    | escape e =>
      cases e with
      | backReference n => exact .inl ⟨n, text, rfl⟩
      | _ => exact .inr fun _ => ⟨rfl, rfl⟩
    | groupOpen g =>
      cases g with
      | deferred m => simp [isMarker, operator?, inClass] at ha
      | _ => exact .inr fun _ => ⟨rfl, rfl⟩
    | _ => exact .inr fun _ => ⟨rfl, rfl⟩

theorem Lexed.text_of_reference (h : Lexed context ts) {n : Nat} {text : Text}
    (ha : ⟨.escape (.backReference n), text, .pattern⟩ ∈ ts) :
    text = '\\' :: Text.decimal n ∧ n ≤ maxBackReference := by
  induction h with
  | nil => cases ha
  | cons read rest ih =>
    rcases List.mem_cons.mp ha with ha | ha
    · obtain ⟨rfl, rfl, rfl⟩ := Token.mk.inj ha
      obtain rfl := Lexer.of_scan read rfl
      obtain ⟨htext, hle⟩ := Lexer.text_of_scan_reference read
      exact ⟨congrArg _ htext, hle⟩
    · exact ih ha

theorem Token.isReference_moved (a : Token) : (a.moved k).isReference = a.isReference := by
  unfold moved
  split
  · rename_i n h
    have ha : a.isReference := by simp [isReference, h]
    rw [ha]
    rfl
  · rfl

theorem Token.isMarker_moved {a : Token} (ha : a.isMarker = false) :
    (a.moved k).isMarker = false := by
  obtain ⟨n, text, rfl⟩ | h := moved_cases ha
  · rfl
  · rwa [(h k).1]

theorem Token.renumber_moved {a : Token} (ha : a.isMarker = false)
    (hl : l.toNat = k.toNat + j.toNat) : (a.moved k).renumber j = a.renumber l := by
  obtain ⟨n, text, rfl⟩ | h := moved_cases ha
  · have hsum : j.toNat + (n + k.toNat) = l.toNat + n := by omega
    show shiftedReference j (n + k.toNat) = shiftedReference l n
    rw [shiftedReference, shiftedReference, Word.add, Word.add, hsum]
  · rw [(h k).1, (h j).2, (h l).2]

theorem Token.renumbered_eq_moved {a : Token} (ha : a.isMarker = false) :
    a.renumbered k = a.moved k := by
  obtain ⟨n, text, rfl⟩ | h := moved_cases ha
  · rfl
  · rw [(h k).1]
    obtain hkept | ⟨n, text, rfl⟩ | ⟨index, text, rfl⟩ | ⟨depth, index, text, rfl⟩ :=
      a.renumbered_cases
    · exact (hkept k).1
    · exact (h k).1
    · cases ha
    · cases ha

namespace Source

theorem MarkerFree.lex_renumber (hm : MarkerFree s) (hk : renumber s k = .ok t) :
    lex t = (lex s).map (Token.moved k) := by
  have hswallows : swallows s = false := by
    refine List.any_eq_false.mpr fun us hus => ?_
    rw [List.mem_tails] at hus
    match us with
    | [] | [_] => simp [Splice.swallows]
    | a :: b :: us =>
      have ha := hm a (hus.subset List.mem_cons_self)
      have hnone : a.resolved? = none := by
        unfold Token.resolved?
        split
        · rename_i ho
          simp [Token.isMarker, ho] at ha
        · rfl
      simp [Splice.swallows, hnone]
  rw [lex_of_renumber hk hswallows fun a us hus => .inr fun b hb =>
    hm b (hus.subset (List.mem_cons_of_mem a hb))]
  exact List.map_congr_left fun a ha => Token.renumbered_eq_moved (hm a ha)

theorem MarkerFree.renumber (hm : MarkerFree s) (hk : Source.renumber s k = .ok t) :
    MarkerFree t := by
  unfold MarkerFree
  rw [hm.lex_renumber hk, List.forall_mem_map]
  exact fun a ha => Token.isMarker_moved (hm a ha)

theorem MarkerFree.references_renumber (hm : MarkerFree s) (hk : Source.renumber s k = .ok t) :
    references t = references s := by
  simp only [references, hm.lex_renumber hk, List.any_map, List.getLast?_map, Option.any_map,
    Function.comp_def, Token.isReference_moved]

theorem renumber_renumber (hm : MarkerFree s) (hk : renumber s k = .ok t)
    (hl : l.toNat = k.toNat + j.toNat) : renumber t j = renumber s l := by
  have hmoved : ((lex s).map (Token.moved k)).mapM (Token.renumber j) =
      (lex s).mapM (Token.renumber l) := by
    rw [List.mapM_map]
    exact mapM_congr fun a ha => Token.renumber_moved (hm a ha) hl
  rw [renumber, renumber, hm.lex_renumber hk, hmoved]

theorem renumber_le (hm : MarkerFree s) (hj : renumber s j = .ok u) (hk : k.toNat ≤ j.toNat) :
    ∃ t, renumber s k = .ok t := by
  obtain ⟨texts, htexts, -⟩ := renumber_ok hj
  have hlower : ∀ a ∈ lex s, ∃ text, a.renumber k = .ok text := by
    intro a ha
    obtain ⟨n, text', rfl⟩ | hkept := Token.moved_cases (hm a ha)
    · obtain ⟨text, htext⟩ := exists_of_mapM_ok htexts _ ha
      have hn := (reference_ok.mp htext).1
      exact ⟨_, reference_ok.mpr ⟨by omega, rfl⟩⟩
    · exact ⟨_, (hkept k).2⟩
  obtain ⟨texts', htexts'⟩ := exists_mapM_ok hlower
  exact ⟨texts'.flatten, by rw [renumber, htexts']; rfl⟩

theorem renumber_zero (hm : MarkerFree s) : renumber s 0 = .ok s := by
  refine renumber_of_kept fun a ha => ?_
  obtain ⟨n, text, rfl⟩ | hkept := Token.moved_cases (hm a ha)
  · obtain ⟨htext, hle⟩ := (lexed_lexFrom .pattern s).text_of_reference ha
    exact reference_ok.mpr ⟨hle, htext⟩
  · exact (hkept 0).2

end Source

-- ---------------------------------------------------------------------------
-- Sources that cannot be moved
-- ---------------------------------------------------------------------------

namespace Source

end Source

end Splice
