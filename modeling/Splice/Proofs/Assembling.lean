import Splice.Proofs.Analyses
import Splice.Proofs.Pieces

/-!
# Assembled fragments

What assembling does to fragments whose sources are closed and whose records
are honest: it succeeds or fails, it keeps the archive honest, and the result
shows the events of the parts, renumbered from left to right.
-/

namespace Splice

open Source

variable {α : Type} {fine fold wide : Bool} {known : Catalogue} {s t : Text}
  {f g : Fragment}

namespace Fragment

structure Sound (fine : Bool) (known : Catalogue) (f : Fragment) : Prop where
  closed : Closed f.source
  clear : fine → Clear f.source
  captures : f.Answers fine known .captures
  references : f.Answers fine known .references
  alternates : f.Answers fine known .alternates

theorem Recorded.sound (h : f.Recorded fine g) (hf : f.Sound fine known) : g.Sound fine known where
  closed := h.source ▸ hf.closed
  clear := h.source ▸ hf.clear
  captures := h.answers hf.captures
  references := h.answers hf.references
  alternates := h.answers hf.alternates

-- ---------------------------------------------------------------------------
-- Fitting to the flags of the whole
-- ---------------------------------------------------------------------------

/-- A fragment, or another spelling of it with the same groups, bars and
references. A literal stays as it is. -/
structure Respelled (f g : Fragment) : Prop where
  origin : g.origin = f.origin
  literal : f.isLiteral → g = f
  padded : ∀ fine, Padded (outline fine f.source) (outline fine g.source)

theorem Respelled.refl (f : Fragment) : f.Respelled f := ⟨rfl, fun _ => rfl, fun _ => .refl _⟩

theorem respelled_emulate (f : Fragment) (fold : Bool) : f.Respelled (f.emulate fold) := by
  unfold Fragment.emulate
  split
  · rename_i p ho
    simp only
    split
    · exact ⟨rfl, fun hl => by simp [isLiteral, ho] at hl, fun fine =>
        outline_emulate p.flags.dotAll (fold && p.flags.multiline) fine f.source⟩
    · exact .refl f
  · exact .refl f

theorem emulate_eq_nil (f : Fragment) (fold : Bool) :
    (f.emulate fold).source = [] ↔ f.source = [] := by
  unfold Fragment.emulate
  split
  · simp only
    split
    · exact Source.emulate_eq_nil _ _ f.source
    · exact Iff.rfl
  · exact Iff.rfl

theorem respelled_promote (hl : f.isLiteral = false) (hg : f.promote = .ok g) :
    f.Respelled g ∧ ∀ fine, outline fine g.source = outline fine f.source := by
  unfold Fragment.promote at hg
  split at hg
  · simp at hg
  · obtain rfl := Except.ok.inj hg
    have ho := fun fine => outline_promote f.source fine
    exact ⟨⟨rfl, fun h => by simp [hl] at h, fun fine => ho fine ▸ .refl _⟩, ho⟩

theorem respelled_adapt (hg : f.adapt fold wide = .ok g) : f.Respelled g := by
  have he := f.respelled_emulate fold
  unfold Fragment.adapt at hg
  simp only at hg
  split at hg
  · rename_i hw
    simp only [Bool.and_eq_true, Bool.not_eq_true'] at hw
    obtain ⟨hp, ho⟩ := respelled_promote hw.1.2 hg
    refine ⟨hp.origin.trans he.origin, fun hl => ?_, fun fine => ho fine ▸ he.padded fine⟩
    rw [he.literal hl, hl] at hw
    simp at hw
  · obtain rfl := Except.ok.inj hg
    exact he

theorem Respelled.ofLiteral (hg : f.Respelled g) (p : Property α) (hl : f.isLiteral) :
    p.ofLiteral g.source = p.ofLiteral f.source := by rw [hg.literal hl]

theorem Sound.respelled (h : f.Sound fine known) (hg : f.Respelled g) : g.Sound fine known where
  closed := h.closed.padded (hg.padded fine)
  clear := by
    rintro rfl
    exact (h.clear rfl).padded (hg.padded true)
  captures :=
    h.captures.congr hg.origin (hg.ofLiteral _) (h.closed.agrees_captures (hg.padded fine))
  references :=
    h.references.congr hg.origin (hg.ofLiteral _) (h.closed.agrees_references (hg.padded fine))
  alternates :=
    h.alternates.congr hg.origin (hg.ofLiteral _) (h.closed.agrees_alternates (hg.padded fine))

-- ---------------------------------------------------------------------------
-- Wrapping what alternates
-- ---------------------------------------------------------------------------

theorem Sound.grouped (h : f.Sound fine known) (ha : Source.alternates f.source) :
    f.grouped.Sound fine known ∧ signals fine f.grouped.source = signals fine f.source ∧
      topBars f.grouped.source = 0 := by
  refine ⟨⟨h.closed.grouped ha, ?_, ?_, ?_, ?_⟩, signals_grouped h.closed ha,
    topBars_grouped h.closed ha⟩
  · rintro rfl
    have hc := clear_iff.mp (h.clear rfl)
    have ho : outline true f.grouped.source = _ := outline_group h.closed ha
    rw [clear_iff, ho, List.forall_mem_append, List.forall_mem_cons, List.forall_mem_map]
    exact ⟨⟨rfl, fun m hm => Mark.isClear_before (hc m hm) fun _ => by decide⟩, by
      simp [Mark.isClear]⟩
  · exact Analysis.reports_empty _ _ .captures
  · exact Analysis.reports_empty _ _ .references
  · exact Analysis.reports_empty _ _ .alternates

theorem Sound.protect (h : f.Sound fine known) :
    Keeps (Archive.Reports fine known) f.protect fun g => g.Sound fine known ∧
      signals fine g.source = signals fine f.source ∧ topBars g.source = 0 := by
  refine (keeps_ask h.alternates).bind ?_
  rintro ⟨b, g⟩ ⟨hb, hg⟩
  have hgs : g.Sound fine known := hg.sound h
  have hs : g.source = f.source := hg.source
  have hb : b = Source.alternates g.source := hs ▸ hb
  rw [← hs]
  cases b with
  | true => exact .pure (hgs.grouped hb.symm)
  | false =>
    have hbars : topBars g.source = 0 := by
      rw [alternates_eq] at hb
      simpa using hb.symm
    exact .pure ⟨hgs, rfl, hbars⟩

-- ---------------------------------------------------------------------------
-- Numbering
-- ---------------------------------------------------------------------------

structure Numbers (fine : Bool) (count : Nat) (source : Text) (r : Piece × Nat × Bool) : Prop where
  fit : r.1.Fit fine
  signals : signals fine r.1.source = (signals fine source).map (Event.shift count)
  bars : topBars r.1.source = topBars source
  captures : r.2.1 = captureCount source
  present : fine → (Source.references r.1.source).present → r.2.2

theorem numbers_of_outline {count : Nat} {refs : References} (hs : Closed s)
    (hc : fine → Clear s) (hr : fine → refs.Covers (Source.references s))
    (ho : outline fine t = (outline fine s).map (Mark.shift count)) :
    Numbers fine count s (⟨t, refs.final⟩, captureCount t, refs.present) := by
  have hd := (closed_iff fine).mp hs
  rw [← Mark.depth?_map (Mark.shift_alike count), ← ho] at hd
  have ht : Closed t := (closed_iff fine).mpr hd
  have hsignals : signals fine t = (signals fine s).map (Event.shift count) := by
    simp only [Source.signals, ho, List.filterMap_map, List.map_filterMap, Function.comp_def,
      Mark.event?_shift]
  refine ⟨⟨ht, ?_, ?_⟩, hsignals, ?_, ?_, ?_⟩
  · rintro rfl
    rw [clear_iff, ho, List.forall_mem_map]
    exact fun m hm => Mark.isClear_shift (clear_iff.mp (hc rfl) m hm)
  · rintro rfl hf
    rw [← ht.final, ho, List.any_map] at hf
    refine (hr rfl).2 ?_
    rw [← hs.final]
    simpa [Function.comp_def, Mark.isFinal_shift] using hf
  · rw [← ht.bars fine, ho, Mark.bars_map (Mark.shift_alike count), hs.bars]
  · rw [← ht.captures fine, hsignals, Event.captures_shift, hs.captures]
  · rintro rfl hp
    refine (hr rfl).1 ?_
    rw [references_present, ← ht.events, hsignals, List.any_map] at hp
    rw [references_present, ← hs.events]
    simpa [Function.comp_def, Event.isReference_shift] using hp

theorem Sound.counted (h : f.Sound fine known) {count : Nat} {refs : References}
    (hr : fine → refs.Covers (Source.references f.source))
    (ho : outline fine t = (outline fine f.source).map (Mark.shift count)) :
    Yields (Archive.Reports fine known)
      (do
        let (captures, g) ← ({ f with source := t } : Fragment).ask .captures
        return (⟨g.source, refs.final⟩, captures, refs.present) :
        ExceptT Error (StateM Archive) (Piece × Nat × Bool))
      (Numbers fine count f.source) := by
  have hn := numbers_of_outline h.closed h.clear hr ho
  have ha : ({ f with source := t } : Fragment).Answers fine known .captures :=
    h.captures.congr rfl (fun _ => rfl) hn.captures.symm
  refine (Yields.lift (keeps_ask ha)).bind ?_
  rintro ⟨n, g⟩ ⟨hcount, hg⟩
  have hs : g.source = t := hg.source
  have hcount : n = captureCount t := hcount
  rw [← hs] at hn hcount
  exact .pure (hcount ▸ hn)

theorem Sound.number (h : f.Sound fine known) (count : Word) :
    Yields (Archive.Reports fine known) (f.number count)
      (Numbers fine count.toNat f.source) := by
  refine (Yields.lift (keeps_ask h.references)).bind ?_
  rintro ⟨refs, g⟩ ⟨hr, hg⟩
  have hs : g.source = f.source := hg.source
  have hgs : g.Sound fine known := hg.sound h
  have hr : fine → refs.Covers (Source.references g.source) := hs ▸ hr
  rw [← hs]
  simp only
  split
  · have hrenumber : Yields (Archive.Reports fine known)
        (Source.renumber g.source count : ExceptT Error (StateM Archive) Text)
        fun t => outline fine t = (outline fine g.source).map (Mark.shift count.toNat) :=
      .ofExcept fun t ht => hgs.closed.outline_renumber hgs.clear ht
    exact hrenumber.bind fun t ht => hgs.counted hr ht
  · rename_i hp
    have hnone : fine → (Source.references g.source).present = false := by
      intro hf
      by_contra hactual
      exact hp ((hr hf).1 (by simpa using hactual))
    exact (Yields.pure rfl).bind fun t ht => by
      obtain rfl : g.source = t := ht
      exact hgs.counted hr (hgs.closed.outline_shift hnone count.toNat).symm

structure NumbersAll (fine : Bool) (count : Nat) (sources : List Text) (n : Numbered) : Prop where
  fit : ∀ p ∈ n.pieces, p.Fit fine
  signals : (n.pieces.map fun p => signals fine p.source).flatten =
    Event.place count (sources.map (signals fine))
  bars : n.pieces.map (fun p => topBars p.source) = sources.map topBars
  captures : n.captures = (n.pieces.map fun p => captureCount p.source).sum
  present : fine → ∀ p ∈ n.pieces, (references p.source).present → n.hasReferences

theorem numberAll_yields {fs : List Fragment} (h : ∀ f ∈ fs, f.Sound fine known) (count : Word) :
    Yields (Archive.Reports fine known) (numberAll count fs)
      (NumbersAll fine count.toNat (fs.map Fragment.source)) := by
  induction fs generalizing count with
  | nil => exact .pure ⟨by simp, rfl, rfl, rfl, by simp⟩
  | cons f fs ih =>
    rw [List.forall_mem_cons] at h
    refine (h.1.number count).bind ?_
    rintro ⟨piece, captures, present⟩ hn
    have hcaptures : captures = Event.captures (Source.signals fine f.source) :=
      hn.captures.trans (h.1.closed.captures fine).symm
    have hpiece : captures = captureCount piece.source := by
      rw [hcaptures, ← Event.captures_shift count.toNat, ← hn.signals, hn.fit.closed.captures]
    refine Yields.bind (.ofExcept fun _ => Word.add_eq_ok.mp) fun behind hbehind => ?_
    refine (ih h.2 behind).bind fun others hs => .pure ⟨?_, ?_, ?_, ?_, ?_⟩
    · exact List.forall_mem_cons.mpr ⟨hn.fit, hs.fit⟩
    · rw [List.map_cons, List.flatten_cons, hs.signals, hn.signals, hbehind, hcaptures]
      rfl
    · rw [List.map_cons, hs.bars, hn.bars]
      rfl
    · rw [List.map_cons, List.sum_cons, ← hpiece, hs.captures]
    · intro hf
      rw [List.forall_mem_cons]
      refine ⟨fun hp => ?_, fun p hp hr => ?_⟩
      · have := hn.present hf hp
        simp only at this
        simp [this]
      · simp [hs.present hf p hp hr]

end Fragment

-- ---------------------------------------------------------------------------
-- Assembling
-- ---------------------------------------------------------------------------

structure Assembled (fine : Bool) (layout : Layout) (sources : List Text) (f : Fragment) :
    Prop where
  closed : Closed f.source
  clear : fine → Clear f.source
  recorded : ∃ traits a, f.origin = .composite traits a ∧ a.Reports fine f.source ∧
    a.captures = some (captureCount f.source)
  signals : signals fine f.source = Event.place layout.offset.toNat (sources.map (signals fine))
  sequence : layout.alternation = false → layout.wrap → topBars f.source = 0
  alternatives : layout.alternation → sources ≠ [] →
    topBars f.source + 1 = sources.length + (sources.map topBars).sum

theorem Assembled.sound {layout : Layout} {sources : List Text}
    (h : Assembled fine layout sources f) : f.Sound fine known := by
  obtain ⟨traits, a, ho, ha, -⟩ := h.recorded
  refine ⟨h.closed, h.clear, ?_, ?_, ?_⟩ <;> simp only [Fragment.Answers, ho] <;> exact ha _ _

theorem captures_flatten (pieces : List Piece) (h : ∀ p ∈ pieces, p.Fit fine) :
    Event.captures (pieces.map fun p => signals fine p.source).flatten =
      (pieces.map fun p => captureCount p.source).sum := by
  rw [Event.captures, List.count_flatten, List.map_map]
  refine congrArg List.sum (List.map_congr_left fun p hp => ?_)
  exact (h p hp).closed.captures fine

theorem Fragment.NumbersAll.assembled {layout : Layout} {sources : List Text} {n : Numbered}
    (h : Fragment.NumbersAll fine layout.offset.toNat sources n)
    (hw : layout.alternation = false → layout.wrap → ∀ s ∈ sources, topBars s = 0)
    (stance : Stance) (directed : Bool) :
    Assembled fine layout sources (n.toFragment layout stance directed) := by
  have hj := Piece.joined_join h.fit layout.alternation
  have hcount : n.captures = captureCount (Piece.join layout.alternation n.pieces) := by
    rw [h.captures, ← captures_flatten n.pieces h.fit, ← hj.signals, hj.closed.captures]
  have hlength : n.pieces.length = sources.length := by
    have := congrArg List.length h.bars
    simpa using this
  have halternatives : layout.alternation → n.pieces ≠ [] →
      topBars (Piece.join layout.alternation n.pieces) + 1 =
        sources.length + (sources.map topBars).sum := by
    intro ha hne
    rw [ha, ← hlength, ← h.bars]
    exact Piece.topBars_alternatives h.fit hne
  refine ⟨hj.closed, hj.clear, ⟨_, _, rfl, ?_, congrArg some hcount⟩, hj.signals.trans h.signals,
    fun ha hwrap => ?_, fun ha hne => halternatives ha ?_⟩
  · intro α p answer hp
    cases p with
    | captures =>
      obtain rfl := Option.some.inj hp
      exact hcount
    | references =>
      obtain rfl := Option.some.inj hp
      rintro rfl
      refine ⟨fun hpresent => ?_, hj.final rfl⟩
      obtain ⟨p, hpiece, hr⟩ := hj.present h.fit hpresent
      simp [h.present rfl p hpiece hr]
    | alternates =>
      replace hp : (if layout.alternation && 1 < n.pieces.length then some true else none) =
          some answer := hp
      split at hp
      · rename_i ha
        obtain rfl := Option.some.inj hp
        simp only [Bool.and_eq_true, decide_eq_true_eq] at ha
        have hbars := halternatives ha.1 (List.ne_nil_of_length_pos (by omega))
        show true = Source.alternates (Piece.join layout.alternation n.pieces)
        rw [alternates_eq]
        exact (decide_eq_true (by omega)).symm
      · simp at hp
    | singleGroup => cases hp
  · have hsum : ∀ x ∈ sources.map topBars, x = 0 := by simpa using hw ha hwrap
    have hseq : topBars (Piece.sequence n.pieces) = 0 := by
      rw [Piece.topBars_sequence h.fit, h.bars]
      exact List.sum_eq_zero_iff_forall_eq_nat.mpr hsum
    simpa [Numbered.toFragment, Fragment.composite, ha, Piece.join] using hseq
  · rintro hnil
    rw [hnil] at hlength
    exact hne (List.length_eq_zero_iff.mp hlength.symm)

theorem forall₂_mono {α β : Type} {R S : α → β → Prop} {l : List α} {r : List β}
    (h : List.Forall₂ R l r) (hS : ∀ a ∈ l, ∀ b, R a b → S a b) : List.Forall₂ S l r := by
  induction h with
  | nil => exact .nil
  | cons h _ ih =>
    rw [List.forall_mem_cons] at hS
    exact .cons (hS.1 _ h) (ih hS.2)

theorem forall_mem_of_forall₂ {α β : Type} {P : β → Prop} {l : List α} {r : List β}
    (h : List.Forall₂ (fun _ b => P b) l r) : ∀ b ∈ r, P b := by
  induction h with
  | nil => simp
  | cons h _ ih => exact List.forall_mem_cons.mpr ⟨h, ih⟩

theorem forall₂_append {α β : Type} {R : α → β → Prop} {first second : List α} {r : List β}
    (h : List.Forall₂ R (first ++ second) r) :
    ∃ r₁ r₂, List.Forall₂ R first r₁ ∧ List.Forall₂ R second r₂ ∧ r = r₁ ++ r₂ := by
  induction first generalizing r with
  | nil => exact ⟨[], r, .nil, h, rfl⟩
  | cons a first ih =>
    cases h with
    | cons ha h =>
      obtain ⟨r₁, r₂, h₁, h₂, rfl⟩ := ih h
      exact ⟨_ :: r₁, r₂, .cons ha h₁, h₂, rfl⟩

theorem map_eq_of_forall₂ {α γ : Type} {u : α → γ} {l r : List α}
    (h : List.Forall₂ (fun a b => u b = u a) l r) : r.map u = l.map u := by
  induction h with
  | nil => rfl
  | cons h _ ih => rw [List.map_cons, List.map_cons, h, ih]

theorem Assembled.congr {layout : Layout} {sources others : List Text}
    (h : Assembled fine layout sources f)
    (hsignals : sources.map (Source.signals fine) = others.map (Source.signals fine))
    (hbars : layout.alternation → sources.map topBars = others.map topBars) :
    Assembled fine layout others f := by
  have hlength : sources.length = others.length := by
    simpa using congrArg List.length hsignals
  refine ⟨h.closed, h.clear, h.recorded, hsignals ▸ h.signals, h.sequence, fun ha hne => ?_⟩
  rw [← hlength, ← hbars ha]
  refine h.alternatives ha ?_
  rintro rfl
  exact hne (List.length_eq_zero_iff.mp hlength.symm)

theorem numbered_yields {layout : Layout} {fs : List Fragment}
    (h : ∀ f ∈ fs, f.Sound fine known)
    (hw : layout.alternation = false → layout.wrap → ∀ f ∈ fs, topBars f.source = 0)
    (stance : Stance) (directed : Bool) :
    Yields (Archive.Reports fine known)
      (do
        let numbered ← Fragment.numberAll layout.offset fs
        return numbered.toFragment layout stance directed)
      (Assembled fine layout (fs.map Fragment.source)) := by
  refine (Fragment.numberAll_yields h layout.offset).bind fun n hn => .pure ?_
  exact hn.assembled (by simpa using hw) stance directed

/-- A fragment that takes the place of another in an assembly. -/
structure Fragment.Replaces (fine : Bool) (known : Catalogue) (f g : Fragment) :
    Prop where
  sound : g.Sound fine known
  signals : Source.signals fine g.source = Source.signals fine f.source

theorem Fragment.Sound.replaces_adapted (h : f.Sound fine known)
    (hg : f.adapt fold wide = .ok g) :
    f.Replaces fine known g ∧ topBars g.source = topBars f.source := by
  have hr := respelled_adapt hg
  have hs := h.respelled hr
  have hp := hr.padded fine
  refine ⟨⟨hs, by rw [signals, signals, hp.events]⟩, ?_⟩
  rw [← hs.closed.bars fine, ← h.closed.bars fine, hp.bars]

/-- Assembling sound fragments keeps the archive honest, and what comes of it is
sound and shows their events. -/
theorem assemble_yields {layout : Layout} {fs : List Fragment}
    (h : ∀ f ∈ fs, f.Sound fine known) (fold : Bool) (stance : Stance) (directed : Bool) :
    Yields (Archive.Reports fine known) (assemble fold stance layout directed fs)
      (Assembled fine layout (fs.map Fragment.source)) := by
  have hadapt : Yields (Archive.Reports fine known)
      ((fs.mapM (Fragment.adapt fold stance.agreement.wide) : Except Error (List Fragment)) :
        ExceptT Error (StateM Archive) (List Fragment))
      (List.Forall₂ (fun f g => f.Replaces fine known g ∧ topBars g.source = topBars f.source)
        fs) :=
    .ofExcept fun gs hgs => forall₂_mono (mapM_ok hgs) fun f hf g hg => (h f hf).replaces_adapted hg
  refine hadapt.bind fun gs hgs => ?_
  have hsound := forall_mem_of_forall₂ (hgs.imp fun _ _ hr => hr.1.sound)
  have hsignals := map_eq_of_forall₂ (u := fun f => signals fine f.source)
    (hgs.imp fun _ _ hr => hr.1.signals)
  have hbars := map_eq_of_forall₂ (u := fun f => topBars f.source) (hgs.imp fun _ _ hr => hr.2)
  simp only
  split
  · rename_i hw
    simp only [Bool.and_eq_true, Bool.not_eq_true'] at hw
    have hprotect : Yields (Archive.Reports fine known)
        (gs.mapM fun g => (g.protect : ExceptT Error (StateM Archive) Fragment))
        (List.Forall₂ (fun f g => f.Replaces fine known g ∧ topBars g.source = 0) gs) :=
      .mapM fun g hg => .lift ((hsound g hg).protect.mono fun r hr => ⟨⟨hr.1, hr.2.1⟩, hr.2.2⟩)
    refine hprotect.bind fun gs' hgs' => ?_
    have hsound' := forall_mem_of_forall₂ (hgs'.imp fun _ _ hr => hr.1.sound)
    have hsignals' := map_eq_of_forall₂ (u := fun f => signals fine f.source)
      (hgs'.imp fun _ _ hr => hr.1.signals)
    have hzero := forall_mem_of_forall₂ (hgs'.imp fun _ _ hr => hr.2)
    refine (numbered_yields hsound' (fun _ _ => hzero) stance directed).mono fun f hf => ?_
    refine hf.congr ?_ fun ha => ?_
    · simpa [Function.comp_def] using hsignals'.trans hsignals
    · simp [hw.1] at ha
  · rename_i hw
    have hoff : layout.alternation = false → layout.wrap → ∀ g ∈ gs, topBars g.source = 0 :=
      fun ha hwrap => absurd (by simp [ha, hwrap]) hw
    refine (Yields.pure rfl).bind fun gs' hgs' => ?_
    obtain rfl : gs = gs' := hgs'
    refine (numbered_yields hsound hoff stance directed).mono fun f hf => ?_
    refine hf.congr ?_ fun _ => ?_
    · simpa [Function.comp_def] using hsignals
    · simpa [Function.comp_def] using hbars

end Splice
