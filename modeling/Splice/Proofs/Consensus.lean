import Splice.Proofs.Hearing

/-!
# Agreement among many pieces

The agreement keeps one value for each flag, the last that was asked for, and
compares every demand with that value only. Where demands have to agree this is
enough: pieces are heard to the end exactly if no two of them ask for different
values, and what is agreed on is then what any of them asks for. So the order
in which pieces are heard does not matter.
-/

namespace Splice

-- ---------------------------------------------------------------------------
-- One flag
-- ---------------------------------------------------------------------------

/-- Values of which no two differ. -/
def Unanimous (values : List Bool) : Prop := ∀ x ∈ values, ∀ y ∈ values, x = y

instance (values : List Bool) : Decidable (Unanimous values) :=
  inferInstanceAs (Decidable (∀ x ∈ values, ∀ y ∈ values, x = y))

/-- The one value that occurs among some values, missing only if there are none. -/
def Sums (values : List Bool) : Option Bool → Prop
  | none => values = []
  | some v => values ≠ [] ∧ ∀ x ∈ values, x = v

section
variable {values : List Bool} {agreed asked after : Option Bool} {asks : List (Option Bool)}

theorem exists_sums : (∃ agreed, Sums values agreed) ↔ Unanimous values := by
  constructor
  · rintro ⟨agreed, h⟩ x hx y hy
    cases agreed with
    | none =>
      rw [show values = [] from h] at hx
      cases hx
    | some v => rw [h.2 x hx, h.2 y hy]
  · intro h
    cases values with
    | nil => exact ⟨none, rfl⟩
    | cons v values => exact ⟨some v, List.cons_ne_nil _ _, fun x hx => h x hx v List.mem_cons_self⟩

theorem Sums.mem {v : Bool} (h : Sums values (some v)) : v ∈ values := by
  obtain ⟨x, hx⟩ := List.exists_mem_of_ne_nil values h.1
  rwa [← h.2 x hx]

theorem Sums.unique (h : Sums values agreed) (h' : Sums values after) : agreed = after := by
  cases agreed with
  | none =>
    cases after with
    | none => rfl
    | some w => exact absurd h h'.1
  | some v =>
    cases after with
    | none => exact absurd h' h.1
    | some w => rw [h'.2 v h.mem]

theorem Sums.eq_true (h : Sums values agreed) : agreed = some true ↔ true ∈ values := by
  cases agreed with
  | none => simp [show values = [] from h]
  | some v =>
    rw [Option.some.injEq]
    constructor
    · rintro rfl
      exact h.mem
    · exact fun ht => (h.2 true ht).symm

theorem Sums.not_unanimous (h : Sums values agreed) (hc : conflicts agreed asked = true) :
    ¬ Unanimous (values ++ asked.toList) := by
  intro hall
  cases agreed with
  | none => cases hc
  | some v =>
    cases asked with
    | none => cases hc
    | some b =>
      have hv : v = b := hall v (List.mem_append_left _ h.mem) b (by simp)
      simp [conflicts, hv] at hc

theorem Sums.or (h : Sums values agreed) (hc : conflicts agreed asked = false) :
    Sums (values ++ asked.toList) (asked.or agreed) := by
  cases asked with
  | none => simpa using h
  | some b =>
    refine ⟨by simp, fun x hx => ?_⟩
    obtain hx | hx := List.mem_append.mp hx
    · cases agreed with
      | none =>
        rw [show values = [] from h] at hx
        cases hx
      | some v =>
        rw [h.2 x hx]
        simpa [conflicts] using hc
    · simpa using hx

theorem Sums.settled (h : Sums values agreed) :
    Splice.settled true agreed asked = some after ↔ Sums (values ++ asked.toList) after := by
  unfold Splice.settled
  cases hc : conflicts agreed asked with
  | true =>
    refine ⟨nofun, fun hafter => ?_⟩
    exact absurd (exists_sums.mp ⟨after, hafter⟩) (h.not_unanimous hc)
  | false =>
    have hor := h.or hc
    refine ⟨fun heq => ?_, fun hafter => congrArg some (hor.unique hafter)⟩
    obtain rfl := Option.some.inj heq
    exact hor

theorem Sums.foldlM (h : Sums values agreed) :
    asks.foldlM (Splice.settled true) agreed = some after ↔
      Sums (values ++ asks.filterMap id) after := by
  induction asks generalizing values agreed with
  | nil =>
    have hnone : Sums (values ++ [].filterMap id) agreed := by simpa using h
    refine ⟨fun heq => ?_, fun hafter => congrArg some (hnone.unique hafter)⟩
    obtain rfl := Option.some.inj heq
    exact hnone
  | cons asked asks ih =>
    have hsplit : values ++ (asked :: asks).filterMap id =
        values ++ asked.toList ++ asks.filterMap id := by
      cases asked <;> simp
    rw [List.foldlM_cons, hsplit]
    constructor
    · intro hrun
      obtain ⟨next, hnext, hrest⟩ := Option.bind_eq_some_iff.mp hrun
      exact (ih (h.settled.mp hnext)).mp hrest
    · intro hafter
      have hfront : Unanimous (values ++ asked.toList) := fun x hx y hy =>
        exists_sums.mp ⟨after, hafter⟩ x (List.mem_append_left _ hx) y (List.mem_append_left _ hy)
      obtain ⟨next, hnext⟩ := exists_sums.mpr hfront
      exact Option.bind_eq_some_iff.mpr ⟨next, h.settled.mpr hnext, (ih hnext).mpr hafter⟩

theorem foldlM_settled_false (agreed : Option Bool) (asks : List (Option Bool)) :
    ∃ after, asks.foldlM (Splice.settled false) agreed = some after := by
  induction asks generalizing agreed with
  | nil => exact ⟨agreed, rfl⟩
  | cons asked asks ih => exact ih (asked.or agreed)

end

-- ---------------------------------------------------------------------------
-- All flags
-- ---------------------------------------------------------------------------

namespace Agreement

def hearAll (fold : Bool) (a : Agreement) : List (Text × Demand) → Except Error Unit × Agreement
  | [] => (.ok (), a)
  | (shown, d) :: pieces =>
    match a.hear fold shown d with
    | (.ok (), b) => hearAll fold b pieces
    | (.error e, b) => (.error e, b)

variable {fold : Bool} {pieces others : List (Text × Demand)} {a b : Agreement}

theorem hearAll_iff : hearAll fold a pieces = (.ok (), b) ↔
    (pieces.map Prod.snd).foldlM (heard fold) a = some b := by
  induction pieces generalizing a with
  | nil => simp [hearAll]
  | cons piece pieces ih =>
    obtain ⟨shown, d⟩ := piece
    rw [List.map_cons, List.foldlM_cons, hearAll]
    obtain ⟨c, hc, hear⟩ | ⟨hnone, e, c, hear⟩ := a.hear_cases fold shown d
    · rw [hear, hc]
      exact ih
    · rw [hear, hnone]
      simp

theorem foldlM_heard {ds : List Demand} : ds.foldlM (heard fold) a = some b ↔
    (ds.map Demand.ignoreCase).foldlM (settled true) a.ignoreCase = some b.ignoreCase ∧
      (ds.map Demand.multiline).foldlM (settled (!fold)) a.multiline = some b.multiline ∧
      (a.wide || ds.any Demand.wide) = b.wide := by
  induction ds generalizing a with
  | nil =>
    obtain ⟨i, m, w⟩ := a
    obtain ⟨i', m', w'⟩ := b
    simp
  | cons d ds ih =>
    simp only [List.map_cons, List.foldlM_cons, List.any_cons, bind, Option.bind_eq_some_iff, ih,
      heard_eq_some]
    constructor
    · rintro ⟨c, ⟨hi, hm, hw⟩, hi', hm', hw'⟩
      exact ⟨⟨_, hi, hi'⟩, ⟨_, hm, hm'⟩, by rw [← Bool.or_assoc, hw, hw']⟩
    · rintro ⟨⟨i, hi, hi'⟩, ⟨m, hm, hm'⟩, hw⟩
      exact ⟨⟨i, m, a.wide || d.wide⟩, ⟨hi, hm, rfl⟩, hi', hm', by rw [← hw, Bool.or_assoc]⟩

/-- The values that some pieces ask for. -/
def asked (flag : Demand → Option Bool) (pieces : List (Text × Demand)) : List Bool :=
  (pieces.map Prod.snd).filterMap flag

theorem filterMap_map_id {ds : List Demand} (flag : Demand → Option Bool) :
    (ds.map flag).filterMap id = ds.filterMap flag := by
  rw [List.filterMap_map]
  rfl

theorem hearAll_fresh : hearAll fold fresh pieces = (.ok (), b) ↔
    Sums (asked Demand.ignoreCase pieces) b.ignoreCase ∧
      ((pieces.map Prod.snd).map Demand.multiline).foldlM (settled (!fold)) none =
        some b.multiline ∧
      (pieces.map Prod.snd).any Demand.wide = b.wide := by
  have hnone : Sums [] none := rfl
  rw [hearAll_iff, foldlM_heard, show fresh.ignoreCase = none from rfl, hnone.foldlM,
    filterMap_map_id, List.nil_append, show fresh.multiline = none from rfl,
    show fresh.wide = false from rfl, Bool.false_or]
  rfl

theorem foldlM_strict {ds : List Demand} {m : Option Bool} :
    (ds.map Demand.multiline).foldlM (settled (!false)) none = some m ↔
      Sums (ds.filterMap Demand.multiline) m := by
  have hnone : Sums [] none := rfl
  rw [Bool.not_false, hnone.foldlM, filterMap_map_id, List.nil_append]

theorem hearAll_ok_iff : (hearAll fold fresh pieces).1 = .ok () ↔
    Unanimous (asked Demand.ignoreCase pieces) ∧
      (fold = true ∨ Unanimous (asked Demand.multiline pieces)) := by
  have hex : (hearAll fold fresh pieces).1 = .ok () ↔
      ∃ b, hearAll fold fresh pieces = (.ok (), b) :=
    ⟨fun h => ⟨_, Prod.ext h rfl⟩, fun ⟨b, h⟩ => congrArg Prod.fst h⟩
  rw [hex]
  simp only [hearAll_fresh]
  constructor
  · rintro ⟨b, hi, hm, -⟩
    refine ⟨exists_sums.mp ⟨_, hi⟩, ?_⟩
    cases fold with
    | true => exact .inl rfl
    | false => exact .inr (exists_sums.mp ⟨_, foldlM_strict.mp hm⟩)
  · rintro ⟨hi, hm⟩
    obtain ⟨i, hi⟩ := exists_sums.mpr hi
    suffices h : ∃ m, ((pieces.map Prod.snd).map Demand.multiline).foldlM (settled (!fold)) none =
        some m from by
      obtain ⟨m, hm⟩ := h
      exact ⟨⟨i, m, _⟩, hi, hm, rfl⟩
    cases fold with
    | true => exact foldlM_settled_false _ _
    | false =>
      obtain ⟨m, hm⟩ := exists_sums.mpr (hm.resolve_left (by simp))
      exact ⟨m, foldlM_strict.mpr hm⟩

def wanted (fold : Bool) (pieces : List (Text × Demand)) : Flag → Prop
  | .ignoreCase => ∃ piece ∈ pieces, piece.2.ignoreCase = some true
  | .multiline => fold = false ∧ ∃ piece ∈ pieces, piece.2.multiline = some true
  | .unicode => ∃ piece ∈ pieces, piece.2.wide
  | _ => False

theorem mem_asked {flag : Demand → Option Bool} {v : Bool} :
    v ∈ asked flag pieces ↔ ∃ piece ∈ pieces, flag piece.2 = some v := by
  simp only [asked, List.mem_filterMap, List.mem_map]
  constructor
  · rintro ⟨_, ⟨piece, hp, rfl⟩, hv⟩
    exact ⟨piece, hp, hv⟩
  · rintro ⟨piece, hp, hv⟩
    exact ⟨_, ⟨piece, hp, rfl⟩, hv⟩

theorem has_merged_hearAll (h : (hearAll fold fresh pieces).1 = .ok ()) (flag : Flag) :
    ((hearAll fold fresh pieces).2.merged fold).has flag ↔ wanted fold pieces flag := by
  obtain ⟨hi, hm, hw⟩ := hearAll_fresh.mp (Prod.ext h rfl)
  cases flag with
  | ignoreCase =>
    show (_ == some true) = true ↔ _
    rw [beq_iff_eq, hi.eq_true, mem_asked]
    rfl
  | multiline =>
    show (!fold && _ == some true) = true ↔ _
    cases fold with
    | true => simp [wanted]
    | false =>
      have hsum := foldlM_strict.mp hm
      rw [Bool.not_false, Bool.true_and, beq_iff_eq, hsum.eq_true]
      exact mem_asked.trans (by simp [wanted])
  | unicode =>
    show (hearAll fold fresh pieces).2.wide = true ↔ _
    rw [← hw]
    simp [wanted]
  | _ => exact ⟨fun h => (Bool.false_ne_true h).elim, False.elim⟩

theorem mem_asked_perm (h : (others.map Prod.snd).Perm (pieces.map Prod.snd))
    (flag : Demand → Option Bool) (v : Bool) : v ∈ asked flag others ↔ v ∈ asked flag pieces :=
  (h.filterMap flag).mem_iff

theorem unanimous_perm (h : (others.map Prod.snd).Perm (pieces.map Prod.snd))
    (flag : Demand → Option Bool) :
    Unanimous (asked flag others) ↔ Unanimous (asked flag pieces) := by
  simp only [Unanimous, mem_asked_perm h]

theorem wanted_perm (h : (others.map Prod.snd).Perm (pieces.map Prod.snd)) (flag : Flag) :
    wanted fold others flag ↔ wanted fold pieces flag := by
  cases flag with
  | ignoreCase =>
    have hmem := mem_asked_perm h Demand.ignoreCase true
    rwa [mem_asked, mem_asked] at hmem
  | multiline =>
    have hmem := mem_asked_perm h Demand.multiline true
    rw [mem_asked, mem_asked] at hmem
    exact and_congr_right fun _ => hmem
  | unicode =>
    have hmem := (h.filterMap fun d => if d.wide then some true else none).mem_iff (a := true)
    simpa [wanted] using hmem
  | _ => exact Iff.rfl

/-- Pieces are heard to the end exactly if all that ask for `i` ask for the same
and, unless line anchors are folded, so do all that ask for `m`. The whole then
has the flags that some piece asks for, in whatever order the pieces come. -/
theorem hearAll_consensus (fold : Bool) (pieces : List (Text × Demand)) :
    ((hearAll fold fresh pieces).1 = .ok () ↔
      Unanimous (asked Demand.ignoreCase pieces) ∧
        (fold = true ∨ Unanimous (asked Demand.multiline pieces))) ∧
    ((hearAll fold fresh pieces).1 = .ok () → ∀ flag,
      ((hearAll fold fresh pieces).2.merged fold).has flag ↔ wanted fold pieces flag) ∧
    ∀ others : List (Text × Demand), (others.map Prod.snd).Perm (pieces.map Prod.snd) →
      ((hearAll fold fresh others).1 = .ok () ↔ (hearAll fold fresh pieces).1 = .ok ()) ∧
      ((hearAll fold fresh pieces).1 = .ok () →
        (hearAll fold fresh others).2.merged fold = (hearAll fold fresh pieces).2.merged fold) := by
  refine ⟨hearAll_ok_iff, has_merged_hearAll, fun others hperm => ?_⟩
  have hok : (hearAll fold fresh others).1 = .ok () ↔ (hearAll fold fresh pieces).1 = .ok () := by
    rw [hearAll_ok_iff, hearAll_ok_iff, unanimous_perm hperm, unanimous_perm hperm]
  refine ⟨hok, fun h => Flags.ext_has fun flag => ?_⟩
  rw [Bool.eq_iff_iff, has_merged_hearAll (hok.mpr h), has_merged_hearAll h, wanted_perm hperm]

theorem hearAll_consensus_folded :
    let pieces : List (Text × Demand) :=
      [("/^a/im".toList, ⟨some true, some true, false⟩), ("/x/".toList, ⟨none, none, false⟩),
        ("/b/iu".toList, ⟨some true, some false, true⟩)]
    let flags : Flags := (Flags.empty.insert .ignoreCase).insert .unicode
    (hearAll true fresh pieces).1 = .ok () ∧
      (pieces.reverse.map Prod.snd).Perm (pieces.map Prod.snd) ∧
      (hearAll true fresh pieces).2.merged true = flags ∧
      (hearAll true fresh pieces.reverse).2.merged true = flags := by
  intro pieces flags
  have hok : (hearAll true fresh pieces).1 = .ok () :=
    (hearAll_consensus true pieces).1.mpr ⟨by decide, .inl rfl⟩
  have hperm : (pieces.reverse.map Prod.snd).Perm (pieces.map Prod.snd) := by decide
  have hflags : (hearAll true fresh pieces).2.merged true = flags := by decide
  exact ⟨hok, hperm, hflags,
    (((hearAll_consensus true pieces).2.2 pieces.reverse hperm).2 hok).trans hflags⟩

end Agreement

end Splice
