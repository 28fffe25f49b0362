import RasterRuntime.Encoding.Bom
import RasterRuntime.Encoding.TextDecoder

/-! # A UTF-8 stream decodes as its bytes do in one piece

`decodeChunks` feeds a decoder chunk by chunk and ends the stream. After the bytes `seen`, the
decoder holds the bytes of the character they end in the middle of (`Utf8Inv`), and has written the
text of everything before (`utf8Written`).

* `utf8Loop_eq`: the loop of `decode_utf8_like` writes the complete tokens and keeps the cut one.
* `decodeChunk_utf8`, `flush_utf8`: one chunk, and the end of the stream.
* `decodeChunks_utf8`: for every way to cut a byte string into chunks the result is that of one
  call on all of it, which is the text of the bytes after a byte order mark at their start. -/

namespace RasterRuntime.Encoding

open Text
open Except (map mapError toOption)
open List (append_nil nil_append)
open Text.Utf8 (replacement complete pending tokens)

/-! ### The loop -/

/-- The text of the complete tokens; none if the decoder is fatal and one is no character. -/
def utf8Written (lossy : Bool) (bs : List UInt8) : Option (List Char) :=
  if lossy || (complete bs).all Utf8.Token.isChar then some ((complete bs).map Utf8.Token.text)
  else none

theorem utf8Written_append (lossy : Bool) (a x : List UInt8) : utf8Written lossy (a ++ x) =
    (utf8Written lossy a).bind fun s => (utf8Written lossy (pending a ++ x)).map (s ++ ·) := by
  unfold utf8Written
  rw [Utf8.complete_append, List.all_append, List.map_append]
  rcases lossy with _ | _
  · by_cases h1 : (complete a).all Utf8.Token.isChar
    · by_cases h2 : (complete (pending a ++ x)).all Utf8.Token.isChar = true <;> simp [h1, h2]
    · simp [h1]
  · simp

/-- **The loop of `decode_utf8_like`**, on the bytes `bs` with enough rounds. -/
theorem utf8Loop_eq (lossy : Bool) : ∀ (n : ℕ) (bs : List UInt8) (output : List Char),
    bs.length ≤ n → (utf8Loop lossy n bs output).toOption =
      (utf8Written lossy bs).map fun s => (output ++ s, pending bs)
  | 0, bs, output, hn => by
    have hbs : bs = [] := List.length_eq_zero_iff.mp (by omega)
    subst hbs
    simp [utf8Loop, utf8Written, complete, pending, toOption]
  | n + 1, bs, output, hn => by
    unfold utf8Loop
    by_cases he : bs.isEmpty
    · have hbs : bs = [] := by simpa using he
      subst hbs
      simp [utf8Written, complete, pending, toOption]
    rw [if_neg he]
    by_cases hv : Utf8.valid bs
    · -- all characters: the last round
      have hp := Utf8.pending_of_valid hv
      have ht := Utf8.tokens_of_pending_nil hp
      have hall : (complete bs).all Utf8.Token.isChar = true := by rw [← ht]; exact hv
      rw [Utf8.fromUtf8_ok hv]
      simp [utf8Written, hall, hp, toOption, Utf8.fromUtf8Lossy, ht]
    · obtain ⟨a, b, r, rfl, ha, hc, hr⟩ := Utf8.fromUtf8_split (by simpa using hv)
      have hpa := Utf8.pending_of_valid ha
      have hta := Utf8.tokens_of_pending_nil hpa
      have hwa : utf8Written lossy a = some (Utf8.fromUtf8Lossy a) := by
        have hall : (complete a).all Utf8.Token.isChar = true := by rw [← hta]; exact ha
        simp [utf8Written, hall, Utf8.fromUtf8Lossy, hta]
      rw [hr, utf8Written_append, Utf8.pending_append, hpa, hwa]
      simp only [List.take_left, List.drop_left, nil_append, Option.bind_some]
      have hb := Utf8.next_bytes b r
      rcases hn' : (Utf8.next b r).1 with ⟨c, l⟩ | l | l
      · rw [hn'] at hc; simp [Utf8.Token.isChar] at hc
      · -- an error inside the bytes: one replacement character, or the end
        have hcut : (Utf8.next b r).1.isCut = false := by rw [hn']; rfl
        have hlen := Utf8.next_length_le b r
        rw [hn'] at hb
        have hdrop : (b :: r).drop l.length = (Utf8.next b r).2 := by
          rw [← hb]; exact List.drop_left
        have hw : utf8Written lossy (b :: r) = if lossy then
            (utf8Written lossy (Utf8.next b r).2).map (replacement :: ·) else none := by
          unfold utf8Written
          rw [Utf8.complete_cons hcut, hn']
          rcases lossy with _ | _ <;> simp [Utf8.Token.isChar, Utf8.Token.text]
        simp only [Utf8.Token.errorLen, hdrop]
        rw [hw, Utf8.pending_cons hcut]
        rcases lossy with _ | _
        · simp [toOption]
        · have hle : (Utf8.next b r).2.length ≤ n := by
            simp only [List.length_append, List.length_cons] at hn; omega
          simp only [Bool.not_true, Bool.false_eq_true, if_false, if_true]
          rw [utf8Loop_eq true n _ _ hle, Option.map_map, Option.map_map]
          congr 1
          funext s
          simp
      · -- the bytes end in the middle of a character
        have hcut : (Utf8.next b r).1.isCut = true := by rw [hn']; rfl
        have hw : utf8Written lossy (b :: r) = some [] := by
          unfold utf8Written
          rw [Utf8.complete_of_cut hcut]; simp
        simp [Utf8.Token.errorLen, hw, Utf8.pending_of_cut hcut, toOption]

theorem decodeUtf8Like_stream (lossy : Bool) (bs : List UInt8) :
    (utf8Written lossy bs = none ∧ ∃ e, decodeUtf8Like bs lossy true [] = (.error e, [])) ∨
      ∃ s, utf8Written lossy bs = some s ∧
        decodeUtf8Like bs lossy true [] = (.ok s, pending bs) := by
  have hloop := utf8Loop_eq lossy bs.length bs [] (Nat.le_refl _)
  unfold decodeUtf8Like
  rcases hl : utf8Loop lossy bs.length bs [] with e | ⟨output, kept⟩
  · rw [hl] at hloop
    rcases hw : utf8Written lossy bs with _ | s
    · exact Or.inl ⟨rfl, e, rfl⟩
    · simp [hw, toOption] at hloop
  · rw [hl] at hloop
    rcases hw : utf8Written lossy bs with _ | s
    · simp [hw, toOption] at hloop
    · simp only [toOption, hw, Option.map_some, Option.some.injEq, nil_append,
        Prod.mk.injEq] at hloop
      obtain ⟨rfl, rfl⟩ := hloop
      exact .inr ⟨_, rfl, rfl⟩

/-- The bytes held for the next chunk are written by nothing but more bytes. -/
theorem decodeUtf8Like_pending (lossy : Bool) (bs : List UInt8) :
    decodeUtf8Like (pending bs) lossy true [] = (.ok [], pending bs) := by
  have hp : pending (pending bs) = pending bs := by
    have := Utf8.pending_append bs []
    rwa [append_nil, append_nil, eq_comm] at this
  have hc : complete (pending bs) = [] := by
    unfold complete
    rw [Utf8.tokens_pending]
    split_ifs <;> rfl
  have hw : utf8Written lossy (pending bs) = some [] := by unfold utf8Written; rw [hc]; simp
  rcases decodeUtf8Like_stream lossy (pending bs) with ⟨hn, -⟩ | ⟨s, hs, he⟩
  · rw [hw] at hn; simp at hn
  · rw [hw, Option.some.injEq] at hs
    rw [he, hp, ← hs]

theorem bytesToUtf8String_eq (lossy : Bool) (bs : List UInt8) :
    (bytesToUtf8String bs lossy).toOption = (utf8Written lossy bs).bind fun s =>
      if pending bs = [] then some s else if lossy then some (s ++ [replacement]) else none := by
  unfold bytesToUtf8String
  rcases lossy with _ | _
  · simp only [Bool.false_eq_true, if_false]
    by_cases hv : Utf8.valid bs
    · have hp := Utf8.pending_of_valid hv
      have ht := Utf8.tokens_of_pending_nil hp
      have hall : (complete bs).all Utf8.Token.isChar = true := by rw [← ht]; exact hv
      rw [Utf8.fromUtf8_ok hv]
      simp [utf8Written, hall, hp, toOption, mapError, Utf8.fromUtf8Lossy, ht]
    · obtain ⟨e, he⟩ := Utf8.fromUtf8_error (by simpa using hv)
      rw [he]
      by_cases hp : pending bs = []
      · have hall : ¬ (complete bs).all Utf8.Token.isChar := by
          rw [← Utf8.tokens_of_pending_nil hp]; exact hv
        simp [utf8Written, hall, toOption, mapError]
      · simp [hp, toOption, mapError]
  · by_cases hp : pending bs = []
    · simp [utf8Written, hp, toOption, Utf8.lossy_of_pending_nil hp]
    · simp [utf8Written, hp, toOption, Utf8.lossy_of_pending hp]

/-! ### One chunk, and the end of the stream -/

/-- **The decoder after the bytes `seen`** holds what they end in the middle of. -/
structure Utf8Inv (ignoreBom : Bool) (seen : List UInt8) (d : IncrementalDecoder) : Prop
    extends BomInv .utf8 ignoreBom seen d where
  pending_eq : d.pending = pending (bomRest .utf8 ignoreBom seen)

theorem bomPrefix_utf8 : bomPrefix .utf8 ≠ [] := by simp [bomPrefix]

theorem utf8Inv_new (ignoreBom : Bool) : Utf8Inv ignoreBom [] .new where
  toBomInv := bomInv_new bomPrefix_utf8 ignoreBom
  pending_eq := by cases ignoreBom <;> rfl

variable {d : IncrementalDecoder} {ignoreBom lossy : Bool}

theorem decodeBytes_utf8 [Codecs] {input bytes : List UInt8} {stream bomFinalize resolved : Bool}
    {pendingBom : Option (List UInt8)}
    (h : d.bomStage .utf8 input stream ignoreBom bomFinalize = (bytes, resolved, pendingBom))
    (lossy : Bool) : d.decodeBytes .utf8 input lossy stream ignoreBom bomFinalize =
      ((decodeUtf8Like bytes lossy stream []).1,
        { d with
          pending := (decodeUtf8Like bytes lossy stream []).2
          bomResolved := resolved
          pendingBom := pendingBom }) := by
  unfold IncrementalDecoder.decodeBytes
  rw [h]

variable {seen : List UInt8} {s : List Char}

/-- **One chunk**: it throws exactly when there is an error in the bytes so far, and else writes
what they add to the text. -/
theorem decodeChunk_utf8 [Codecs] (h : Utf8Inv ignoreBom seen d)
    (hs : utf8Written lossy (bomRest .utf8 ignoreBom seen) = some s) (chunk : List UInt8) :
    (utf8Written lossy (bomRest .utf8 ignoreBom (seen ++ chunk)) = none ∧
        ∃ e d', d.decodeChunk .utf8 chunk lossy true ignoreBom = (.error e, d')) ∨
      ∃ output d', utf8Written lossy (bomRest .utf8 ignoreBom (seen ++ chunk)) =
          some (s ++ output) ∧
        d.decodeChunk .utf8 chunk lossy true ignoreBom = (.ok output, d') ∧
        Utf8Inv ignoreBom (seen ++ chunk) d' := by
  obtain ⟨x, hrest, hstage, -, -⟩ := bomStage_stream bomPrefix_utf8 h.toBomInv chunk
  rw [h.pending_eq] at hstage
  have hbytes := decodeBytes_utf8 (Prod.ext hstage rfl :
    d.bomStage .utf8 chunk true ignoreBom false = (_, _, _)) lossy
  unfold IncrementalDecoder.decodeChunk
  rw [hrest, utf8Written_append, hs, hbytes]
  rcases decodeUtf8Like_stream lossy (pending (bomRest .utf8 ignoreBom seen) ++ x) with
    ⟨hw, e, he⟩ | ⟨output, hw, he⟩
  · rw [hw, he]
    exact .inl ⟨rfl, e, _, rfl⟩
  · rw [hw, he]
    refine .inr ⟨output, _, rfl, rfl, ?_, ?_⟩
    · refine bomInv_of_stage bomPrefix_utf8 h.toBomInv chunk rfl rfl fun hnil => ?_
      rw [hrest] at hnil
      obtain ⟨h1, rfl⟩ := List.append_eq_nil_iff.mp hnil
      simp [h1, pending]
    · rw [hrest, Utf8.pending_append (bomRest .utf8 ignoreBom seen)]; rfl

theorem flushRest_utf8 [Codecs] (d : IncrementalDecoder) (lossy : Bool) (s : List Char) :
    (d.flushRest .utf8 lossy s).1.toOption =
      if d.pending = [] then some s else if lossy then some (s ++ [replacement]) else none := by
  unfold IncrementalDecoder.flushRest
  rcases hp : d.pending with _ | ⟨b, r⟩
  · rfl
  · rcases lossy with _ | _ <;> rfl

/-- **The end of the stream**: the text of all the bytes. -/
theorem flush_utf8 [Codecs] (h : Utf8Inv ignoreBom seen d)
    (hs : utf8Written lossy (bomRest .utf8 ignoreBom seen) = some s) :
    (d.flush .utf8 lossy ignoreBom).1.toOption.map (s ++ ·) =
      (bytesToUtf8String (bomWhole .utf8 ignoreBom seen) lossy).toOption := by
  by_cases hh : bomHeld .utf8 ignoreBom seen
  · obtain ⟨hpb, hpend⟩ := h.held hh
    have hs0 : s = [] := by
      rw [bomRest_of_bomHeld hh] at hs
      simpa [utf8Written, complete] using hs.symm
    rw [bomWhole_of_bomHeld hh, hs0]
    simp only [nil_append, Option.map_id']
    rcases hp : d.pendingBom with _ | p
    · rw [hp] at hpb
      have hseen : seen = [] := hpb.symm
      have hstage := bomStage_of_none h.toBomInv hh hp
      rw [flush_eq (flushBom_of_none hp ..) (decodeBytes_utf8 hstage lossy), flushRest_utf8, hseen]
      rcases lossy with _ | _ <;> rfl
    · rw [hp] at hpb
      have hseen : p = seen := hpb
      subst hseen
      have hflush := flushBom_of_bomHeld h.toBomInv hh hp lossy
      rw [decodeBytes_utf8 (bomStage_resolved rfl ..), hpend, nil_append] at hflush
      have hlike : decodeUtf8Like p lossy false [] = (bytesToUtf8String p lossy, []) := rfl
      rw [hlike] at hflush
      rcases hr : bytesToUtf8String p lossy with e | output
      · unfold IncrementalDecoder.flush
        rw [hflush, hr]
      · rw [hr] at hflush
        have hnil : decodeUtf8Like [] lossy true [] = (.ok [], []) := by
          rcases lossy with _ | _ <;> rfl
        have h2 := decodeBytes_utf8 (bomStage_resolved (d := ⟨[], true, none, d.utf16OddByte,
          d.utf16LeadSurrogate⟩) rfl .utf8 [] true ignoreBom true) lossy
        rw [append_nil, hnil] at h2
        rw [flush_eq hflush h2, flushRest_utf8]
        simp [toOption]
  · have hh' : bomHeld .utf8 ignoreBom seen = false := by simpa using hh
    have h2 := decodeBytes_utf8 (bomStage_finalize h.toBomInv hh') lossy
    rw [h.pending_eq, decodeUtf8Like_pending] at h2
    rw [flush_eq (flushBom_of_not_bomHeld h.toBomInv hh' lossy) h2, flushRest_utf8,
      bytesToUtf8String_eq, ← bomRest_of_not_bomHeld hh', hs]
    split_ifs <;> simp

/-! ### The stream -/

/-- An error in the bytes so far is an error in all of them. -/
theorem bytesToUtf8String_of_none {a : List UInt8}
    (h : utf8Written lossy (bomRest .utf8 ignoreBom a) = none) (x : List UInt8) :
    (bytesToUtf8String (bomWhole .utf8 ignoreBom (a ++ x)) lossy).toOption = none := by
  have hh : bomHeld .utf8 ignoreBom a = false := by
    by_contra hh
    rw [bomRest_of_bomHeld (by simpa using hh)] at h
    simp [utf8Written, complete] at h
  rw [bomWhole_append hh, ← bomRest_of_not_bomHeld hh, bytesToUtf8String_eq, utf8Written_append, h]
  rfl

theorem decodeChunks_open [Codecs] (fatal : Bool) (last : List UInt8) (chunks : List (List UInt8))
    (seen : List UInt8) (s : List Char) (d : IncrementalDecoder) (hd : Utf8Inv ignoreBom seen d)
    (hs : utf8Written (!fatal) (bomRest .utf8 ignoreBom seen) = some s) :
    ((⟨.utf8, fatal, ignoreBom, d, true⟩ : TextDecoder).decodeChunks chunks last).toOption.map
        (s ++ ·) =
      (bytesToUtf8String (bomWhole .utf8 ignoreBom (seen ++ (chunks.flatten ++ last)))
        (!fatal)).toOption := by
  induction chunks generalizing seen s d with
  | nil =>
    have hcall : ((⟨.utf8, fatal, ignoreBom, d, true⟩ : TextDecoder).decodeChunks [] last) =
        ((⟨.utf8, fatal, ignoreBom, d, true⟩ : TextDecoder).decodeBytes last false).1 := rfl
    rw [hcall, TextDecoder.decodeBytes_open rfl, List.flatten_nil, nil_append]
    rcases decodeChunk_utf8 hd hs last with ⟨hn, e, d', he⟩ | ⟨output, d', ho, he, hd'⟩
    · have hnone := bytesToUtf8String_of_none hn []
      rw [append_nil] at hnone
      rw [hnone, he]
      rfl
    · rw [he, ← flush_utf8 hd' ho]
      dsimp only
      rcases (d'.flush .utf8 (!fatal) ignoreBom).1 with e | output'
      · rfl
      · simp [map, toOption]
  | cons chunk chunks ih =>
    have hcall : (⟨.utf8, fatal, ignoreBom, d, true⟩ : TextDecoder).decode
        ⟨.bytes chunk, .ok (some true)⟩ =
        ((d.decodeChunk .utf8 chunk (!fatal) true ignoreBom).1,
          ⟨.utf8, fatal, ignoreBom, (d.decodeChunk .utf8 chunk (!fatal) true ignoreBom).2, true⟩) :=
      rfl
    have hassoc : seen ++ ((chunk :: chunks).flatten ++ last) =
        (seen ++ chunk) ++ (chunks.flatten ++ last) := by simp
    unfold TextDecoder.decodeChunks
    rw [hcall, hassoc]
    rcases decodeChunk_utf8 hd hs chunk with ⟨hn, e, d', he⟩ | ⟨output, d', ho, he, hd'⟩
    · rw [he, bytesToUtf8String_of_none hn]
      rfl
    · rw [he, ← ih (seen ++ chunk) (s ++ output) d' hd' ho]
      dsimp only
      rcases TextDecoder.decodeChunks _ chunks last with e | output'
      · rfl
      · simp [map, toOption]

theorem decode_fresh_utf8 [Codecs] (fatal ignoreBom : Bool) (bs : List UInt8) :
    ((TextDecoder.fresh .utf8 fatal ignoreBom).decode ⟨.bytes bs, .ok none⟩).1 =
      bytesToUtf8String (bomWhole .utf8 ignoreBom bs) (!fatal) := by
  have hcall : (TextDecoder.fresh .utf8 fatal ignoreBom).decode ⟨.bytes bs, .ok none⟩ =
      (TextDecoder.fresh .utf8 fatal ignoreBom).decodeBytes bs false := rfl
  have hstage := bomStage_whole bomPrefix_utf8 ignoreBom bs
  rcases hb : IncrementalDecoder.new.bomStage .utf8 bs false ignoreBom false with ⟨bytes, res, pb⟩
  rw [hb] at hstage
  rw [hcall, TextDecoder.decodeBytes_closed rfl, ← hstage]
  unfold IncrementalDecoder.decodeChunk
  dsimp only [TextDecoder.fresh]
  rw [decodeBytes_utf8 hb]
  have hlike : decodeUtf8Like bytes (!fatal) false [] =
      (bytesToUtf8String bytes (!fatal), []) := rfl
  rw [hlike]
  rcases bytesToUtf8String bytes (!fatal) with e | output <;> rfl

/-- **A UTF-8 stream**: for every way to cut a byte string into chunks, the calls give the text that
one call on all the bytes gives, and throw exactly when it does; that text is the standard decoding
of the bytes, without a byte order mark at their very start unless `ignoreBOM` is set. -/
theorem decodeChunks_utf8 [Codecs] (fatal ignoreBom : Bool) (chunks : List (List UInt8))
    (last : List UInt8) :
    ((TextDecoder.fresh .utf8 fatal ignoreBom).decodeChunks chunks last).toOption =
        ((TextDecoder.fresh .utf8 fatal ignoreBom).decode
          ⟨.bytes (chunks.flatten ++ last), .ok none⟩).1.toOption ∧
      ((TextDecoder.fresh .utf8 fatal ignoreBom).decode
          ⟨.bytes (chunks.flatten ++ last), .ok none⟩).1 =
        bytesToUtf8String (if ignoreBom then chunks.flatten ++ last
          else stripBom .utf8 (chunks.flatten ++ last)) (!fatal) := by
  refine ⟨?_, decode_fresh_utf8 fatal ignoreBom _⟩
  rcases chunks with _ | ⟨chunk, chunks⟩
  · rfl
  · -- the first chunk opens the stream, and from then on it is as if it had been open before
    have hopen := decodeChunks_open fatal last (chunk :: chunks) [] [] .new
      (utf8Inv_new ignoreBom) (by rcases ignoreBom with _ | _ <;> rcases fatal with _ | _ <;> rfl)
    rw [decode_fresh_utf8, ← nil_append ((chunk :: chunks).flatten ++ last), ← hopen]
    simp only [nil_append, Option.map_id']
    rfl

end RasterRuntime.Encoding
