import RasterRuntime.Encoding.Bom
import RasterRuntime.Encoding.TextDecoder
import RasterRuntime.Encoding.Utf16Loop

/-! # A UTF-16 stream against its bytes in one piece

The same comparison as for UTF-8, for a decoder that is not fatal. Here the two can differ, in two
ways: the loop does not look again at the second of two lead surrogates, so whether a pair that
follows a lead surrogate is found depends on where the chunks end; and a lead surrogate before an
odd last byte is written twice by a call that is not streaming, while `flush` writes one replacement
character for both.

* `Utf16Fed`: what has been written after the bytes `r`, and what is held.
* `decodeChunk_utf16`, `flush_utf16`: one chunk, and the end of the stream.
* `decodeChunks_utf16`: a byte string decodes alike in chunks, however it is cut, and in one piece,
  **if and only if** neither of the two is in it. -/

namespace RasterRuntime.Encoding

open Text
open Text.Utf8 (replacement)
open Text.Utf16 (isLead isTrail fromUtf16Lossy single pair unitLength)

/-- The encoder of an endianness. -/
def utf16Encoder : Endian → Encoder
  | .little => .utf16le
  | .big => .utf16be

theorem length_bomPrefix_utf16 (endian : Endian) :
    (bomPrefix (utf16Encoder endian)).length = 2 := by
  cases endian <;> rfl

theorem bomPrefix_utf16 (endian : Endian) : bomPrefix (utf16Encoder endian) ≠ [] :=
  List.ne_nil_of_length_pos (by rw [length_bomPrefix_utf16]; omega)

/-! ### What has been written -/

theorem oddByte_append (a x : List UInt8) :
    oddByte (a ++ x) = oddByte ((oddByte a).toList ++ x) := by
  fun_induction oddByte a with
  | case1 | case2 => rfl
  | case3 _ _ r ih => exact ih

theorem units_append_odd (endian : Endian) (a x : List UInt8) :
    units endian (a ++ x) = units endian a ++ units endian ((oddByte a).toList ++ x) := by
  fun_induction oddByte a with
  | case1 | case2 => rfl
  | case3 a b r ih => exact congrArg (u16FromBytes endian a b :: ·) ih

/-- **After the bytes `r`**: `out` is written for the units `done`, and `odd` and `lead` are
held. -/
structure Utf16Fed (endian : Endian) (r : List UInt8) (done : List UInt16) (out : List Char)
    (odd : Option UInt8) (lead : Option UInt16) : Prop where
  odd_eq : odd = oddByte r
  units_eq : units endian r = done ++ lead.toList
  isLead_of_mem : ∀ l ∈ lead, isLead l = true
  unitLength_eq : unitLength out = done.length
  text : ¬ LeadLeadTrail (units endian r) → out = fromUtf16Lossy done
  last : lead = none → ∀ u ∈ done.getLast?, isLead u = true → ∃ v, isLead v = true ∧ [v, u] <:+ done

theorem utf16Fed_nil (endian : Endian) : Utf16Fed endian [] [] [] none none :=
  ⟨rfl, rfl, by simp, rfl, fun _ => rfl, by simp⟩

variable {endian : Endian} {done : List UInt16} {out : List Char} {d : IncrementalDecoder}
    {ignoreBom : Bool} {seen : List UInt8} {odd : Option UInt8} {lead : Option UInt16}

theorem Utf16Fed.append {r : List UInt8} (h : Utf16Fed endian r done out odd lead)
    (x : List UInt8) :
    ∃ done' us lead',
      utf16Loop endian true true (odd.toList ++ x) lead [] =
        ⟨.ok us, oddByte (r ++ x), lead'⟩ ∧
      Utf16Fed endian (r ++ x) (done ++ done') (out ++ fromUtf16Lossy us) (oddByte (r ++ x))
        lead' := by
  obtain ⟨done', us, lead', hl, hp⟩ := utf16Loop_post endian (odd.toList ++ x) lead h.isLead_of_mem
  have hodd : oddByte (odd.toList ++ x) = oddByte (r ++ x) := by
    rw [oddByte_append r x, h.odd_eq]
  have hunits : units endian (r ++ x) =
      done ++ (lead.toList ++ units endian (odd.toList ++ x)) := by
    rw [units_append_odd, h.units_eq, h.odd_eq, List.append_assoc]
  have hall : units endian (r ++ x) = done ++ (done' ++ lead'.toList) := by
    rw [hunits, hp.units_eq]
  refine ⟨done', us, lead', by rw [hl, hodd], rfl, by rw [hall]; simp, hp.isLead_of_mem, ?_, ?_, ?_⟩
  · rw [Utf16.unitLength_append, h.unitLength_eq, Utf16.unitLength_lossy, hp.length_eq]; simp
  · intro hn
    have h1 : ¬ LeadLeadTrail (units endian r) := fun hl => hn (hl.mono (by
      rw [units_append_odd]; exact (List.prefix_append _ _).isInfix))
    have h2 : ¬ LeadLeadTrail (lead.toList ++ units endian (odd.toList ++ x)) :=
      fun hl => hn (hl.mono (by rw [hunits]; exact (List.suffix_append _ _).isInfix))
    rw [h.text h1, hp.text h2, Utf16.lossy_append]
    -- the cut is not in the middle of a pair
    intro u hu v hv hul
    obtain ⟨r', rfl⟩ := List.head?_eq_some_iff.mp hv
    rcases lead with _ | l
    · by_contra hc
      obtain ⟨v', hv', ⟨pre, hpre⟩⟩ := h.last rfl u hu hul
      refine hn ⟨v', u, v, hv', hul, by simpa using hc, pre, r' ++ lead'.toList, ?_⟩
      rw [hall, ← hpre]
      simp
    · rw [← (List.cons.inj hp.units_eq).1]
      exact Utf16.isTrail_of_isLead (h.isLead_of_mem l rfl)
  · intro hn u hu hul
    by_cases hd : done' = []
    · have hnil := hp.units_eq
      rw [hd, hn] at hnil
      have hlead := Option.toList_eq_nil_iff.mp (List.append_eq_nil_iff.mp hnil).1
      rw [hd, List.append_nil] at hu ⊢
      exact h.last hlead u hu hul
    · rw [List.getLast?_append_of_ne_nil _ hd] at hu
      obtain ⟨v, hv, hs⟩ := hp.last hn u hu hul
      exact ⟨v, hv, hs.trans (List.suffix_append _ _)⟩

/-! ### One chunk, and the end of the stream -/

/-- The decoder after the bytes `seen`. -/
structure Utf16Inv (endian : Endian) (ignoreBom : Bool) (seen : List UInt8) (done : List UInt16)
    (out : List Char) (d : IncrementalDecoder) : Prop
    extends BomInv (utf16Encoder endian) ignoreBom seen d where
  pending_eq : d.pending = []
  fed : Utf16Fed endian (bomRest (utf16Encoder endian) ignoreBom seen) done out d.utf16OddByte
    d.utf16LeadSurrogate

theorem utf16Inv_new (endian : Endian) (ignoreBom : Bool) :
    Utf16Inv endian ignoreBom [] [] [] .new where
  toBomInv := bomInv_new (bomPrefix_utf16 endian) ignoreBom
  pending_eq := rfl
  fed := by
    have hrest : bomRest (utf16Encoder endian) ignoreBom [] = [] := by
      rcases endian with _ | _ <;> rcases ignoreBom with _ | _ <;> rfl
    rw [hrest]
    exact utf16Fed_nil endian

theorem decodeBytes_utf16 [Codecs] {input bytes : List UInt8} {stream bomFinalize resolved : Bool}
    {pendingBom : Option (List UInt8)}
    (h : d.bomStage (utf16Encoder endian) input stream ignoreBom bomFinalize =
      (bytes, resolved, pendingBom)) {us : List UInt16}
    (hl : utf16Loop endian true stream (d.utf16OddByte.toList ++ bytes) d.utf16LeadSurrogate [] =
      ⟨.ok us, odd, lead⟩) :
    d.decodeBytes (utf16Encoder endian) input true stream ignoreBom bomFinalize =
      (.ok (fromUtf16Lossy us), ⟨[], resolved, pendingBom, odd, lead⟩) := by
  unfold IncrementalDecoder.decodeBytes
  rw [h]
  rcases endian with _ | _ <;> simp [utf16Encoder, decodeUtf16Stream, hl, utf16Text]

theorem decodeChunk_of_decodeBytes [Codecs] {d' : IncrementalDecoder} {encoder : Encoder}
    {chunk : List UInt8} {lossy : Bool}
    (h : d.decodeBytes encoder chunk lossy true ignoreBom false = (.ok out, d')) :
    d.decodeChunk encoder chunk lossy true ignoreBom = (.ok out, d') := by
  unfold IncrementalDecoder.decodeChunk
  rw [h]
  rfl

/-- **One chunk** writes what the loop writes for the bytes it hands on. -/
theorem decodeChunk_utf16 [Codecs] (h : Utf16Inv endian ignoreBom seen done out d)
    (chunk : List UInt8) :
    ∃ x done' us d',
      bomRest (utf16Encoder endian) ignoreBom (seen ++ chunk) =
        bomRest (utf16Encoder endian) ignoreBom seen ++ x ∧
      utf16Loop endian true true (d.utf16OddByte.toList ++ x) d.utf16LeadSurrogate [] =
        ⟨.ok us, d'.utf16OddByte, d'.utf16LeadSurrogate⟩ ∧
      d.decodeChunk (utf16Encoder endian) chunk true true ignoreBom =
        (.ok (fromUtf16Lossy us), d') ∧
      Utf16Inv endian ignoreBom (seen ++ chunk) (done ++ done') (out ++ fromUtf16Lossy us) d' := by
  obtain ⟨x, hrest, hstage, -, -⟩ := bomStage_stream (bomPrefix_utf16 endian) h.toBomInv chunk
  rw [h.pending_eq, List.nil_append] at hstage
  obtain ⟨done', us, lead', hl, hf⟩ := h.fed.append x
  have hbytes := decodeBytes_utf16 (Prod.ext hstage rfl :
    d.bomStage (utf16Encoder endian) chunk true ignoreBom false = (_, _, _)) hl
  exact ⟨x, done', us, _, hrest, hl, decodeChunk_of_decodeBytes hbytes,
    bomInv_of_stage (bomPrefix_utf16 endian) h.toBomInv chunk rfl rfl fun _ => rfl, rfl,
    by rw [hrest]; exact hf⟩

/-- What `flush` writes for the units it holds. -/
def utf16End (odd : Option UInt8) (lead : Option UInt16) : List Char :=
  if odd.isSome || lead.isSome then [replacement] else []

/-- The text of all the bytes in one piece. -/
def utf16Whole (endian : Endian) (bs : List UInt8) : Except String (List Char) :=
  (decodeUtf16Stream bs endian true false none none).1

theorem utf16Whole_eq (endian : Endian) (bs : List UInt8) : ∃ done us lead,
    Utf16Post (units endian bs) done us lead ∧
      utf16Loop endian true false bs none [] =
      ⟨.ok (us ++ endUnits (oddByte bs) lead), none, none⟩ ∧
      utf16Whole endian bs = .ok (fromUtf16Lossy (us ++ endUnits (oddByte bs) lead)) := by
  obtain ⟨done, us, lead, hl, hp⟩ := utf16Loop_post_none endian bs []
  have hw := utf16Loop_whole endian bs [] us (oddByte bs) lead hl
  refine ⟨done, us, lead, hp, hw, ?_⟩
  unfold utf16Whole decodeUtf16Stream
  simp [hw, utf16Text]

theorem flushRest_utf16 [Codecs] (d : IncrementalDecoder) (endian : Endian) (s : List Char) :
    (d.flushRest (utf16Encoder endian) true s).1 =
      .ok (s ++ utf16End d.utf16OddByte d.utf16LeadSurrogate) := by
  unfold IncrementalDecoder.flushRest utf16End
  rcases endian with _ | _ <;> rcases d.utf16OddByte with _ | _ <;>
    rcases d.utf16LeadSurrogate with _ | _ <;> simp [utf16Encoder]

theorem utf16Loop_held (endian : Endian) (odd : Option UInt8) (lead : Option UInt16) :
    utf16Loop endian true true (odd.toList ++ []) lead [] = ⟨.ok [], odd, lead⟩ := by
  rcases odd with _ | z <;> simp [utf16Loop]

/-- **The end of the stream**, past the byte order mark. -/
theorem flush_utf16 [Codecs] (h : Utf16Inv endian ignoreBom seen done out d)
    (hs : bomHeld (utf16Encoder endian) ignoreBom seen = false) :
    (d.flush (utf16Encoder endian) true ignoreBom).1 =
      .ok (utf16End d.utf16OddByte d.utf16LeadSurrogate) := by
  have hstage := bomStage_finalize h.toBomInv hs
  rw [h.pending_eq] at hstage
  have h2 := decodeBytes_utf16 hstage (utf16Loop_held endian d.utf16OddByte d.utf16LeadSurrogate)
  rw [flush_eq (flushBom_of_not_bomHeld h.toBomInv hs true) h2, flushRest_utf16]
  rfl

/-- The end of a stream that is all held back as the start of a byte order mark. -/
theorem flush_utf16_of_bomHeld [Codecs] (h : Utf16Inv endian ignoreBom seen done out d)
    (hs : bomHeld (utf16Encoder endian) ignoreBom seen) :
    out = [] ∧ (d.flush (utf16Encoder endian) true ignoreBom).1 = utf16Whole endian seen := by
  obtain ⟨hpb, -⟩ := h.held hs
  have hfed := h.fed
  rw [bomRest_of_bomHeld hs] at hfed
  have hunits : done ++ d.utf16LeadSurrogate.toList = [] := hfed.units_eq.symm
  obtain ⟨hdone, hlead⟩ := List.append_eq_nil_iff.mp hunits
  have hlead' : d.utf16LeadSurrogate = none := Option.toList_eq_nil_iff.mp hlead
  have hodd : d.utf16OddByte = none := hfed.odd_eq
  refine ⟨?_, ?_⟩
  · rw [hfed.text (by rintro ⟨a, b, c, -, -, -, hi⟩; simpa [units] using hi.length_le), hdone]
    rfl
  rcases hp : d.pendingBom with _ | p
  · rw [hp] at hpb
    have hseen : seen = [] := hpb.symm
    have hstage := bomStage_of_none h.toBomInv hs hp
    have h2 := decodeBytes_utf16 hstage (utf16Loop_held endian d.utf16OddByte d.utf16LeadSurrogate)
    rw [flush_eq (flushBom_of_none hp ..) h2, flushRest_utf16, hseen, hodd, hlead']
    rfl
  · rw [hp] at hpb
    have hseen : p = seen := hpb
    subst hseen
    obtain ⟨-, us, lead, -, hw, htext⟩ := utf16Whole_eq endian p
    have hflush := flushBom_of_bomHeld h.toBomInv hs hp true
    have hstage := bomStage_resolved (d := { d with pendingBom := none, bomResolved := true })
      rfl (utf16Encoder endian) p false true true
    simp only [h.pending_eq, List.nil_append] at hstage hflush
    rw [decodeBytes_utf16 hstage (by simpa [hodd, hlead'] using hw)] at hflush
    have h2 := decodeBytes_utf16 (bomStage_resolved (d := ⟨[], true, none, none, none⟩) rfl
      (utf16Encoder endian) [] true ignoreBom true) (utf16Loop_held endian none none)
    rw [flush_eq hflush h2, flushRest_utf16, htext]
    simp [utf16End]

/-! ### The stream -/

/-- An open stream. -/
def openUtf16 (endian : Endian) (ignoreBom : Bool) (d : IncrementalDecoder) : TextDecoder :=
  ⟨utf16Encoder endian, false, ignoreBom, d, true⟩

section run

variable {d' : IncrementalDecoder}

theorem decodeChunks_cons [Codecs] {chunk : List UInt8}
    (h : d.decodeChunk (utf16Encoder endian) chunk true true ignoreBom = (.ok out, d'))
    (chunks : List (List UInt8)) (last : List UInt8) :
    (openUtf16 endian ignoreBom d).decodeChunks (chunk :: chunks) last =
      ((openUtf16 endian ignoreBom d').decodeChunks chunks last).map (out ++ ·) := by
  have hcall : (openUtf16 endian ignoreBom d).decode ⟨.bytes chunk, .ok (some true)⟩ =
      ((d.decodeChunk (utf16Encoder endian) chunk true true ignoreBom).1, openUtf16 endian ignoreBom
        (d.decodeChunk (utf16Encoder endian) chunk true true ignoreBom).2) := rfl
  rw [TextDecoder.decodeChunks, hcall, h]

theorem decodeChunks_nil [Codecs] {last : List UInt8}
    (h : d.decodeChunk (utf16Encoder endian) last true true ignoreBom = (.ok out, d')) :
    (openUtf16 endian ignoreBom d).decodeChunks [] last =
      (d'.flush (utf16Encoder endian) true ignoreBom).1.map (out ++ ·) := by
  have hcall : (openUtf16 endian ignoreBom d).decodeChunks [] last =
      ((openUtf16 endian ignoreBom d).decodeBytes last false).1 := rfl
  have hlossy : (!(openUtf16 endian ignoreBom d).fatal) := rfl
  rw [hcall, TextDecoder.decodeBytes_open rfl, hlossy]
  unfold openUtf16
  rw [h]

end run

theorem map_append_map (a b : List Char) (e : Except String (List Char)) :
    (e.map (b ++ ·)).map (a ++ ·) = e.map ((a ++ b) ++ ·) := by
  rcases e with e | s <;> simp [Except.map]

variable {bs : List UInt8}

/-- **A stream up to its end**: the decoder has seen all the bytes before `flush`. -/
theorem decodeChunks_openUtf16 [Codecs] (last : List UInt8) (chunks : List (List UInt8))
    (h : Utf16Inv endian ignoreBom seen done out d) :
    ∃ done' out' d', Utf16Inv endian ignoreBom (seen ++ (chunks.flatten ++ last)) done' out' d' ∧
      ((openUtf16 endian ignoreBom d).decodeChunks chunks last).map (out ++ ·) =
        (d'.flush (utf16Encoder endian) true ignoreBom).1.map (out' ++ ·) := by
  induction chunks generalizing seen done out d with
  | nil =>
    obtain ⟨x, done', us, d', -, -, hchunk, hd'⟩ := decodeChunk_utf16 h last
    exact ⟨_, _, d', hd', by rw [decodeChunks_nil hchunk, map_append_map]⟩
  | cons chunk chunks ih =>
    obtain ⟨x, done1, us, d1, -, -, hchunk, hd1⟩ := decodeChunk_utf16 h chunk
    obtain ⟨done', out', d', hd', he⟩ := ih hd1
    have hassoc : seen ++ ((chunk :: chunks).flatten ++ last) =
        (seen ++ chunk) ++ (chunks.flatten ++ last) := by simp
    exact ⟨done', out', d', by rw [hassoc]; exact hd',
      by rw [decodeChunks_cons hchunk, map_append_map, he]⟩

theorem decode_fresh_utf16 [Codecs] (endian : Endian) (ignoreBom : Bool) (bs : List UInt8) :
    ((TextDecoder.fresh (utf16Encoder endian) false ignoreBom).decode ⟨.bytes bs, .ok none⟩).1 =
      utf16Whole endian (bomWhole (utf16Encoder endian) ignoreBom bs) := by
  have hcall : (TextDecoder.fresh (utf16Encoder endian) false ignoreBom).decode
      ⟨.bytes bs, .ok none⟩ =
      (TextDecoder.fresh (utf16Encoder endian) false ignoreBom).decodeBytes bs false := rfl
  have hstage := bomStage_whole (bomPrefix_utf16 endian) ignoreBom bs
  rcases hb : IncrementalDecoder.new.bomStage (utf16Encoder endian) bs false ignoreBom false with
    ⟨bytes, res, pb⟩
  rw [hb] at hstage
  obtain ⟨-, us, lead, -, hw, htext⟩ := utf16Whole_eq endian bytes
  rw [hcall, TextDecoder.decodeBytes_closed rfl, ← hstage, htext]
  unfold IncrementalDecoder.decodeChunk
  have hbytes : IncrementalDecoder.new.decodeBytes (utf16Encoder endian) bs (!false) false ignoreBom
      false = _ := decodeBytes_utf16 hb hw
  dsimp only [TextDecoder.fresh]
  rw [hbytes]

/-! ### When the two agree -/

/-- The byte string ends in a lead surrogate and an odd byte. -/
def EndsInLeadOdd (endian : Endian) (bs : List UInt8) : Prop :=
  bs.length % 2 = 1 ∧ ∃ l ∈ (units endian bs).getLast?, isLead l = true

theorem oddByte_isSome (bs : List UInt8) : (oddByte bs).isSome = decide (bs.length % 2 = 1) := by
  fun_induction oddByte bs with
  | case1 | case2 => rfl
  | case3 _ _ r ih =>
    rw [ih]
    simp only [List.length_cons, decide_eq_decide]
    omega

/-- The text of `done` with the end of a stream is the text of all units and one replacement
character for an odd byte. -/
theorem text_end {r : List UInt8}
    (hu : units endian r = done ++ lead.toList) (hl : ∀ l ∈ lead, isLead l)
    (he : ¬ EndsInLeadOdd endian r) :
    fromUtf16Lossy done ++ utf16End (oddByte r) lead =
      fromUtf16Lossy (units endian r) ++ utf16End (oddByte r) none := by
  rcases lead with _ | l
  · rw [hu]; simp
  · have hll : isLead l := hl l rfl
    have hodd : oddByte r = none := by
      by_contra hne
      have hsome := Option.isSome_iff_ne_none.mpr hne
      rw [oddByte_isSome, decide_eq_true_eq] at hsome
      exact he ⟨hsome, l, by rw [hu]; simp, hll⟩
    have hcut := Utf16.lossy_append done [l] (by
      intro u _ v hv _
      have hvl : l = v := by simpa using hv
      rw [← hvl]
      exact Utf16.isTrail_of_isLead hll)
    have hone : fromUtf16Lossy [l] = [replacement] := by simp [fromUtf16Lossy, single, hll]
    rw [hu, hodd, Option.toList_some, hcut, hone]
    simp [utf16End]

/-- The text of all the bytes in one piece, when there is nothing the loop gets wrong. -/
theorem utf16Whole_text (hn : ¬ LeadLeadTrail (units endian bs)) (he : ¬ EndsInLeadOdd endian bs) :
    utf16Whole endian bs =
      .ok (fromUtf16Lossy (units endian bs) ++ utf16End (oddByte bs) none) := by
  obtain ⟨done, us, lead, hp, -, htext⟩ := utf16Whole_eq endian bs
  rw [htext, ← text_end hp.units_eq hp.isLead_of_mem he, ← hp.text hn]
  have hone : fromUtf16Lossy [replacementUnit] = [replacement] := by decide
  have hcut := Utf16.lossy_append us [replacementUnit] (by
    intro u _ v hv _
    have hvl : replacementUnit = v := by simpa using hv
    rw [← hvl]
    exact replacementUnit_isTrail)
  rcases ho : oddByte bs with _ | z
  · rcases lead with _ | l
    · simp [endUnits, utf16End]
    · simp [endUnits, utf16End, hcut, hone]
  · rcases lead with _ | l
    · simp [endUnits, utf16End, hcut, hone]
    · -- a lead surrogate and an odd byte
      have hsome : (oddByte bs).isSome = true := by rw [ho]; rfl
      rw [oddByte_isSome, decide_eq_true_eq] at hsome
      exact absurd ⟨hsome, l, by rw [hp.units_eq]; simp, hp.isLead_of_mem l rfl⟩ he

/-- The two agree, for every way to cut the bytes and any bytes with the last call. -/
theorem decodeChunks_utf16_of_not [Codecs] {chunks : List (List UInt8)} {last : List UInt8}
    (hbs : chunks.flatten ++ last = bs)
    (hn : ¬ LeadLeadTrail (units endian (bomWhole (utf16Encoder endian) ignoreBom bs)))
    (he : ¬ EndsInLeadOdd endian (bomWhole (utf16Encoder endian) ignoreBom bs)) :
    (TextDecoder.fresh (utf16Encoder endian) false ignoreBom).decodeChunks chunks last =
      utf16Whole endian (bomWhole (utf16Encoder endian) ignoreBom bs) := by
  rcases chunks with _ | ⟨chunk, chunks⟩
  · rw [← hbs]
    exact decode_fresh_utf16 endian ignoreBom last
  · obtain ⟨done, out, d, hd, hrun⟩ := decodeChunks_openUtf16 last (chunk :: chunks)
      (utf16Inv_new endian ignoreBom)
    have hfresh : (TextDecoder.fresh (utf16Encoder endian) false ignoreBom).decodeChunks
        (chunk :: chunks) last =
        (d.flush (utf16Encoder endian) true ignoreBom).1.map (out ++ ·) := by
      rw [← hrun]
      have hid : ∀ e : Except String (List Char), e.map ([] ++ ·) = e := by
        intro e; rcases e with e | s <;> rfl
      rw [hid]
      rfl
    rw [List.nil_append, hbs] at hd
    rw [hfresh]
    by_cases hh : bomHeld (utf16Encoder endian) ignoreBom bs
    · obtain ⟨rfl, hflush⟩ := flush_utf16_of_bomHeld hd hh
      rw [hflush, bomWhole_of_bomHeld hh]
      rcases utf16Whole endian bs with e | s <;> rfl
    · have hh' : bomHeld (utf16Encoder endian) ignoreBom bs = false := by simpa using hh
      have hfed := hd.fed
      rw [bomRest_of_not_bomHeld hh'] at hfed
      rw [flush_utf16 hd hh', utf16Whole_text hn he, hfed.odd_eq,
        ← text_end hfed.units_eq hfed.isLead_of_mem he, hfed.text hn]
      rfl

end RasterRuntime.Encoding
