import RasterRuntime.Encoding.Incremental

/-! # The byte order mark of a stream

The bytes of a stream go through `process_bom` before they are decoded. `bomHeld` tells whether the
bytes seen so far are held back, since they may be the start of a byte order mark; `bomRest` are the
bytes handed on, and `bomWhole` those that a single call would hand on. -/

namespace RasterRuntime.Encoding

open List (prefix_append isPrefixOf_iff_prefix)

/-! ### Held back and handed on -/

/-- The bytes without a byte order mark at their start. -/
def stripBom (encoder : Encoder) (bs : List UInt8) : List UInt8 :=
  if (bomPrefix encoder).isPrefixOf bs then bs.drop (bomPrefix encoder).length else bs

/-- All bytes seen may still become a byte order mark. -/
def bomHeld (encoder : Encoder) (ignoreBom : Bool) (seen : List UInt8) : Bool :=
  !ignoreBom && seen.isPrefixOf (bomPrefix encoder) &&
    decide (seen.length < (bomPrefix encoder).length)

/-- The bytes a call that is not streaming decodes. -/
def bomWhole (encoder : Encoder) (ignoreBom : Bool) (bs : List UInt8) : List UInt8 :=
  if ignoreBom then bs else stripBom encoder bs

/-- The bytes handed on so far. -/
def bomRest (encoder : Encoder) (ignoreBom : Bool) (seen : List UInt8) : List UInt8 :=
  if bomHeld encoder ignoreBom seen then [] else bomWhole encoder ignoreBom seen

theorem sharedLength_cons (a b : UInt8) (data pre : List UInt8) :
    sharedLength (a :: data) (b :: pre) = if a = b then sharedLength data pre + 1 else 0 := by
  unfold sharedLength
  by_cases h : a = b <;> simp [h]

theorem sharedLength_eq : ∀ data pre : List UInt8,
    (sharedLength data pre == data.length) = data.isPrefixOf pre
  | [], _ | a :: data, [] => by simp [sharedLength]
  | a :: data, b :: pre => by
    have ih := sharedLength_eq data pre
    rw [sharedLength_cons, List.isPrefixOf_cons_cons, ← ih]
    by_cases h : a = b <;> simp [h]

theorem not_isPrefixOf_of_length {pre data : List UInt8} (h : data.length < pre.length) :
    pre.isPrefixOf data = false := by
  cases hp : pre.isPrefixOf data with
  | false => rfl
  | true =>
    have hpre := isPrefixOf_iff_prefix.mp hp
    have := hpre.length_le
    omega

variable {encoder : Encoder} {ignoreBom : Bool} {seen a : List UInt8} {d : IncrementalDecoder}

theorem ignoreBom_of_bomHeld (h : bomHeld encoder ignoreBom seen) : ignoreBom = false := by
  cases ignoreBom <;> simp [bomHeld] at h ⊢

theorem bomRest_of_bomHeld (h : bomHeld encoder ignoreBom seen) :
    bomRest encoder ignoreBom seen = [] :=
  if_pos h

theorem bomRest_of_not_bomHeld (h : bomHeld encoder ignoreBom seen = false) :
    bomRest encoder ignoreBom seen = bomWhole encoder ignoreBom seen :=
  if_neg (by rw [h]; exact Bool.false_ne_true)

theorem bomWhole_of_bomHeld (h : bomHeld encoder ignoreBom seen) :
    bomWhole encoder ignoreBom seen = seen := by
  unfold bomWhole
  rw [ignoreBom_of_bomHeld h, if_neg Bool.false_ne_true]
  unfold bomHeld at h
  simp only [Bool.and_eq_true, decide_eq_true_eq] at h
  unfold stripBom
  rw [not_isPrefixOf_of_length h.2]
  rfl

theorem processBom_eq (hpre : bomPrefix encoder ≠ []) (bytes : List UInt8)
    (stream bomFinalize resolved : Bool) (pendingBom : Option (List UInt8)) :
    processBom encoder bytes stream bomFinalize resolved pendingBom =
      if stream && !bomFinalize && bomHeld encoder false (pendingBom.getD [] ++ bytes) then
        ([], resolved, some (pendingBom.getD [] ++ bytes))
      else (stripBom encoder (pendingBom.getD [] ++ bytes), true, none) := by
  have hne : (bomPrefix encoder).isEmpty = false := by simpa using hpre
  unfold processBom bomHeld stripBom
  simp only [hne]
  generalize pendingBom.getD [] ++ bytes = data
  have hs := sharedLength_eq data (bomPrefix encoder)
  cases hp : (bomPrefix encoder).isPrefixOf data with
  | true =>
    have hpre := isPrefixOf_iff_prefix.mp hp
    have hl := hpre.length_le
    have hlt : decide (data.length < (bomPrefix encoder).length) = false := by simpa using hl
    simp [hlt]
  | false =>
    rw [hs]
    cases hd : data.isPrefixOf (bomPrefix encoder) with
    | false => simp
    | true =>
      rw [hd, beq_iff_eq] at hs
      simp [hs]

section

variable (h : bomHeld encoder ignoreBom a = false) (x : List UInt8)

include h

theorem bomHeld_append : bomHeld encoder ignoreBom (a ++ x) = false := by
  cases hax : bomHeld encoder ignoreBom (a ++ x) with
  | false => rfl
  | true =>
    unfold bomHeld at h hax
    simp only [Bool.and_eq_true, decide_eq_true_eq, List.length_append] at hax
    obtain ⟨⟨hi, hp⟩, hl⟩ := hax
    have hpre := isPrefixOf_iff_prefix.mp hp
    have hpa : a.isPrefixOf (bomPrefix encoder) :=
      isPrefixOf_iff_prefix.mpr ((prefix_append a x).trans hpre)
    rw [hi, hpa, Bool.and_self, Bool.true_and, decide_eq_false_iff_not] at h
    omega

/-- Past the byte order mark, what comes in is handed on. -/
theorem bomWhole_append :
    bomWhole encoder ignoreBom (a ++ x) = bomWhole encoder ignoreBom a ++ x := by
  unfold bomWhole stripBom
  cases ignoreBom with
  | true => rfl
  | false =>
    simp only [Bool.false_eq_true, if_false]
    cases hp : (bomPrefix encoder).isPrefixOf a with
    | true =>
      have hpre := isPrefixOf_iff_prefix.mp hp
      have hpx := isPrefixOf_iff_prefix.mpr (hpre.trans (prefix_append a x))
      rw [hpx, if_pos rfl, if_pos rfl, List.drop_append_of_le_length hpre.length_le]
    | false =>
      cases hpx : (bomPrefix encoder).isPrefixOf (a ++ x) with
      | false => rfl
      | true =>
        -- then the byte order mark is longer than `a`, and `a` is held back
        exfalso
        unfold bomHeld at h
        have hpre := isPrefixOf_iff_prefix.mp hpx
        rcases List.prefix_or_prefix_of_prefix hpre (prefix_append a x) with h1 | h1
        · have htrue := isPrefixOf_iff_prefix.mpr h1
          rw [htrue] at hp
          cases hp
        · have hlt : a.length < (bomPrefix encoder).length := by
            refine Nat.lt_of_le_of_ne h1.length_le fun he => ?_
            rw [h1.eq_of_length he, isPrefixOf_iff_prefix.mpr List.prefix_rfl] at hp
            cases hp
          have htrue := isPrefixOf_iff_prefix.mpr h1
          rw [htrue] at h
          simp [hlt] at h

theorem bomRest_append : bomRest encoder ignoreBom (a ++ x) = bomRest encoder ignoreBom a ++ x := by
  rw [bomRest_of_not_bomHeld (bomHeld_append h x), bomRest_of_not_bomHeld h, bomWhole_append h]

end

/-! ### The stream -/

/-- The decoder has seen the bytes `seen` as a stream. -/
structure BomInv (encoder : Encoder) (ignoreBom : Bool) (seen : List UInt8)
    (d : IncrementalDecoder) : Prop where
  resolved : d.bomResolved = (!ignoreBom && !bomHeld encoder ignoreBom seen)
  held : bomHeld encoder ignoreBom seen = true → d.pendingBom.getD [] = seen ∧ d.pending = []

theorem bomInv_new (hpre : bomPrefix encoder ≠ []) (ignoreBom : Bool) :
    BomInv encoder ignoreBom [] .new := by
  have hl : 0 < (bomPrefix encoder).length := List.length_pos_iff.mpr hpre
  refine ⟨?_, fun _ => ⟨rfl, rfl⟩⟩
  cases ignoreBom <;> simp [bomHeld, IncrementalDecoder.new, hl]

/-- **A chunk of a stream**: the bytes decoded are those held for decoding and what the chunk adds
to the bytes handed on. -/
theorem bomStage_stream (hpre : bomPrefix encoder ≠ []) (h : BomInv encoder ignoreBom seen d)
    (chunk : List UInt8) :
    ∃ x, bomRest encoder ignoreBom (seen ++ chunk) = bomRest encoder ignoreBom seen ++ x ∧
      (d.bomStage encoder chunk true ignoreBom false).1 = d.pending ++ x ∧
      (d.bomStage encoder chunk true ignoreBom false).2.1 =
        (!ignoreBom && !bomHeld encoder ignoreBom (seen ++ chunk)) ∧
      (bomHeld encoder ignoreBom (seen ++ chunk) →
        (d.bomStage encoder chunk true ignoreBom false).2.2.getD [] = seen ++ chunk) := by
  unfold IncrementalDecoder.bomStage
  cases hs : bomHeld encoder ignoreBom seen with
  | false =>
    have hpass : (d.bomResolved || ignoreBom) := by
      rw [h.resolved, hs]; cases ignoreBom <;> rfl
    have happ := bomHeld_append hs chunk
    refine ⟨chunk, bomRest_append hs chunk, ?_, ?_, fun hh => ?_⟩
    · rw [if_pos hpass]
    · rw [if_pos hpass, happ, h.resolved, hs]
    · rw [happ] at hh; simp at hh
  | true =>
    obtain ⟨hpb, hpend⟩ := h.held hs
    obtain rfl := ignoreBom_of_bomHeld hs
    have hres : d.bomResolved = false := by rw [h.resolved, hs]; rfl
    rw [hres, hpend, bomRest_of_bomHeld hs]
    simp only [Bool.or_false, Bool.false_eq_true, if_false, List.nil_append]
    rw [processBom_eq hpre, hpb]
    cases hsc : bomHeld encoder false (seen ++ chunk) with
    | true => exact ⟨[], by simp [bomRest, hsc], by simp, by simp, fun _ => by simp⟩
    | false => exact ⟨_, rfl, by simp [bomRest, hsc, bomWhole], by simp, fun hh => by simp at hh⟩

theorem bomInv_of_stage (hpre : bomPrefix encoder ≠ []) {d' : IncrementalDecoder}
    (h : BomInv encoder ignoreBom seen d) (chunk : List UInt8)
    (hres : d'.bomResolved = (d.bomStage encoder chunk true ignoreBom false).2.1)
    (hpb : d'.pendingBom = (d.bomStage encoder chunk true ignoreBom false).2.2)
    (hpend : bomRest encoder ignoreBom (seen ++ chunk) = [] → d'.pending = []) :
    BomInv encoder ignoreBom (seen ++ chunk) d' := by
  obtain ⟨x, -, -, h1, h2⟩ := bomStage_stream hpre h chunk
  refine ⟨hres.trans h1, fun hh => ⟨?_, ?_⟩⟩
  · rw [hpb, h2 hh]
  · exact hpend (bomRest_of_bomHeld hh)

theorem bomStage_resolved (h : d.bomResolved) (encoder : Encoder) (input : List UInt8)
    (stream ignoreBom bomFinalize : Bool) :
    d.bomStage encoder input stream ignoreBom bomFinalize =
      (d.pending ++ input, true, d.pendingBom) := by
  unfold IncrementalDecoder.bomStage
  rw [h]
  rfl

section

variable (h : BomInv encoder ignoreBom seen d) (hs : bomHeld encoder ignoreBom seen = false)

include h hs

theorem bomStage_finalize :
    d.bomStage encoder [] true ignoreBom true = (d.pending, d.bomResolved, d.pendingBom) := by
  have hpass : (d.bomResolved || ignoreBom) := by
    rw [h.resolved, hs]; cases ignoreBom <;> rfl
  unfold IncrementalDecoder.bomStage
  rw [if_pos hpass, List.append_nil]

omit hs in
/-- At the end of a stream in which no chunk has come in. -/
theorem bomStage_of_none (hs : bomHeld encoder ignoreBom seen) (hp : d.pendingBom = none) :
    d.bomStage encoder [] true ignoreBom true = ([], true, none) := by
  unfold IncrementalDecoder.bomStage
  rw [(h.held hs).2, h.resolved, hs, ignoreBom_of_bomHeld hs, hp]
  cases encoder <;> rfl

/-- At the end of a stream that is past its byte order mark, nothing is held back. -/
theorem flushBom_of_not_bomHeld [Codecs] (lossy : Bool) :
    d.flushBom encoder lossy ignoreBom = (.ok [], d) := by
  have hpass : (!ignoreBom && !d.bomResolved) = false := by
    rw [h.resolved, hs]; cases ignoreBom <;> rfl
  unfold IncrementalDecoder.flushBom
  rw [hpass, if_neg (by simp)]

end

theorem flushBom_of_none [Codecs] (h : d.pendingBom = none) (encoder : Encoder)
    (lossy ignoreBom : Bool) :
    d.flushBom encoder lossy ignoreBom = (.ok [], d) := by
  unfold IncrementalDecoder.flushBom
  rw [h]
  split_ifs <;> rfl

/-- At the end of a stream that is all held back, the bytes are decoded in one piece. -/
theorem flushBom_of_bomHeld [Codecs] {p : List UInt8} (h : BomInv encoder ignoreBom seen d)
    (hs : bomHeld encoder ignoreBom seen) (hp : d.pendingBom = some p) (lossy : Bool) :
    d.flushBom encoder lossy ignoreBom =
      ({ d with pendingBom := none, bomResolved := true } : IncrementalDecoder).decodeBytes
        encoder p lossy false true true := by
  have hpass : (!ignoreBom && !d.bomResolved) := by
    rw [h.resolved, hs, ignoreBom_of_bomHeld hs]; rfl
  unfold IncrementalDecoder.flushBom
  rw [if_pos hpass, hp]

theorem flush_eq [Codecs] {d1 d2 : IncrementalDecoder} {lossy : Bool} {out1 out2 : List Char}
    (h1 : d.flushBom encoder lossy ignoreBom = (.ok out1, d1))
    (h2 : d1.decodeBytes encoder [] lossy true ignoreBom true = (.ok out2, d2)) :
    (d.flush encoder lossy ignoreBom).1 = (d2.flushRest encoder lossy (out1 ++ out2)).1 := by
  unfold IncrementalDecoder.flush
  rw [h1]
  simp only [h2]
  rcases d2.flushRest encoder lossy (out1 ++ out2) with ⟨_ | _, _⟩ <;> rfl

theorem bomStage_whole (hpre : bomPrefix encoder ≠ []) (ignoreBom : Bool) (bs : List UInt8) :
    (IncrementalDecoder.new.bomStage encoder bs false ignoreBom false).1 =
      bomWhole encoder ignoreBom bs := by
  unfold IncrementalDecoder.bomStage bomWhole
  cases ignoreBom with
  | true => rfl
  | false =>
    have hr : (IncrementalDecoder.new.bomResolved || false) = false := rfl
    rw [hr]
    simp only [Bool.false_eq_true, if_false]
    rw [processBom_eq hpre]
    rfl

end RasterRuntime.Encoding
