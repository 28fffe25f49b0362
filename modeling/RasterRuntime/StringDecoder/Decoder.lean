import RasterRuntime.Encoding.Encoder

/-! # `StringDecoder`

The class of `raster_runtime_string_decoder`. A call of `write` first finishes the character that
the last chunk ended in the middle of (`finishCharacter`), then holds back the bytes at the end of
the chunk that may be the start of a character (`holdTail`), and decodes the bytes in between.

Both parts only guess: `missing_bytes` is how many bytes the held ones seem to lack. -/

namespace RasterRuntime.StringDecoder

open Encoding

/-- `StringDecoder`. -/
structure Decoder where
  encoder : Encoder
  buffer : List UInt8
  bufferedBytes : ℕ
  missingBytes : ℕ
  deriving DecidableEq, Repr

/-- A decoder that has been given nothing. -/
def Decoder.fresh (encoder : Encoder) : Decoder := ⟨encoder, [], 0, 0⟩

/-- The constructor `new`; the encoding defaults to `utf-8`. -/
def Decoder.new (encoding : Option String) : Except String Decoder :=
  match fromStr (encoding.getD "utf-8") with
  | .ok encoder => .ok (.fresh encoder)
  | .error _ => .error ("Unknown encoding: " ++ encoding.getD "utf-8")

/-- The first `i` bytes of a chunk go with what is held. -/
theorem append_take_drop (buffer data x : List UInt8) (i : ℕ) :
    buffer ++ (data ++ x) = (buffer ++ data.take i) ++ (data.drop i ++ x) := by
  rw [List.append_assoc, ← List.append_assoc (data.take _), List.take_append_drop]

variable [Codecs]

/-- `make_string`. -/
def makeString (encoder : Encoder) (data : List UInt8) : Except String (List Char) :=
  match encodeToString encoder data true with
  | .ok s => .ok s
  | .error _ => .error "Encoding error"

/-- A continuation byte of UTF-8, as the source tests it. -/
def isTrailing (b : UInt8) : Bool := b &&& 0xC0 == 0x80

/-- The byte of a high surrogate that tells it is one, as the source tests it. -/
def isHighByte (b : UInt8) : Bool := b &&& 0xFC == 0xD8

/-- The number of bytes that the upper bits of a lead byte announce. -/
def leadLength (b : UInt8) : Option ℕ :=
  if b &&& 0xE0 == 0xC0 then some 2
  else if b &&& 0xF0 == 0xE0 then some 3
  else if b &&& 0xF8 == 0xF0 then some 4
  else none

namespace Decoder

/-- The alignment of the held character with the new bytes: `missing_bytes` is corrected, and the
bytes before an unexpected one are taken. -/
def align (d : Decoder) (data : List UInt8) : Decoder × List UInt8 :=
  match d.encoder with
  | .utf8 =>
    match (data.take d.missingBytes).findIdx? fun b => !isTrailing b with
    | some i =>
      ({ d with
          missingBytes := 0
          buffer := d.buffer ++ data.take i
          bufferedBytes := d.bufferedBytes + i }, data.drop i)
    | none => (d, data)
  | .utf16le =>
    if (data.take d.missingBytes).any isHighByte then ({ d with missingBytes := 3 }, data)
    else (d, data)
  | _ => (d, data)

/-- The missing bytes go to the buffer, and a buffer that misses none is decoded. -/
def fill (d : Decoder) (data : List UInt8) : Except String (List Char) × List UInt8 × Decoder :=
  let foundBytes := min data.length d.missingBytes
  let d : Decoder :=
    { d with
      buffer := d.buffer ++ data.take foundBytes
      missingBytes := d.missingBytes - foundBytes
      bufferedBytes := d.bufferedBytes + foundBytes }
  if d.missingBytes = 0 then
    match makeString d.encoder d.buffer with
    | .ok s => (.ok s, data.drop foundBytes, { d with buffer := [], bufferedBytes := 0 })
    | .error e => (.error e, data.drop foundBytes, d)
  else (.ok [], data.drop foundBytes, d)

/-- The first part of `decode_data`: the text of the held character, and the bytes left over. -/
def finishCharacter (d : Decoder) (data : List UInt8) :
    Except String (List Char) × List UInt8 × Decoder :=
  if d.missingBytes = 0 then (.ok [], data, d)
  else (d.align data).1.fill (d.align data).2

/-- The loop that looks for the start of the last character, on the bytes from the last one back. -/
def findLead : List UInt8 → Decoder → Decoder
  | [], d => d
  | b :: rest, d =>
    let d : Decoder := { d with bufferedBytes := d.bufferedBytes + 1 }
    if isTrailing b then
      if decide (4 ≤ d.bufferedBytes) || rest.isEmpty then
        { d with buffer := [], bufferedBytes := 0 }
      else findLead rest d
    else
      match leadLength b with
      | some n =>
        if n ≤ d.bufferedBytes then { d with missingBytes := 0, bufferedBytes := 0 }
        else { d with missingBytes := n - d.bufferedBytes }
      | none => { d with bufferedBytes := 0 }

/-- How many bytes at the end of the chunk are held back, and how many they miss. -/
def holdTail (d : Decoder) (data : List UInt8) : Decoder :=
  match d.encoder with
  | .utf8 =>
    if data.getLast?.any fun b => b &&& 0x80 != 0 then findLead data.reverse d else d
  | .utf16le =>
    if data.length % 2 = 1 then
      if 3 ≤ data.length ∧ isHighByte (data.getD (data.length - 2) 0) then
        { d with bufferedBytes := 3, missingBytes := 1 }
      else { d with bufferedBytes := 1, missingBytes := 1 }
    else if isHighByte (data.getD (data.length - 1) 0) then
      { d with bufferedBytes := 2, missingBytes := 2 }
    else d
  | .base64 =>
    let d : Decoder := { d with bufferedBytes := data.length % 3 }
    if 0 < d.bufferedBytes then { d with missingBytes := 3 - d.bufferedBytes } else d
  | _ => d

/-- The second part of `decode_data`, after `holdTail`. -/
def decodeRest (d : Decoder) (data : List UInt8) (result : List Char) :
    Except String (List Char) × Decoder :=
  let cut := if 0 < d.bufferedBytes then data.length - d.bufferedBytes else data.length
  let d : Decoder := { d with buffer := d.buffer ++ data.drop cut }
  if (data.take cut).isEmpty then (.ok result, d)
  else
    match makeString d.encoder (data.take cut) with
    | .ok s => (.ok (result ++ s), d)
    | .error e => (.error e, d)

/-- `decode_data`. -/
def decodeData (d : Decoder) (data : List UInt8) : Except String (List Char) × Decoder :=
  if d.encoder = .utf8 ∨ d.encoder = .utf16le ∨ d.encoder = .base64 then
    match d.finishCharacter data with
    | (.error e, _, d) => (.error e, d)
    | (.ok result, data, d) =>
      if data.isEmpty then (.ok result, d) else (d.holdTail data).decodeRest data result
  else (makeString d.encoder data, d)

/-- `flush`. -/
def flush (d : Decoder) : Except String (List Char) × Decoder :=
  let d : Decoder :=
    if d.encoder = .utf16le ∧ d.bufferedBytes % 2 = 1 then
      { d with missingBytes := d.missingBytes - 1, bufferedBytes := d.bufferedBytes - 1 }
    else d
  if d.bufferedBytes = 0 then (.ok [], d)
  else
    (makeString d.encoder d.buffer, { d with missingBytes := 0, bufferedBytes := 0, buffer := [] })

/-- `end`; an absent buffer and one that has been used are both `none`. -/
def «end» (d : Decoder) (buffer : Option (List UInt8)) : Except String (List Char) × Decoder :=
  match buffer with
  | none => d.flush
  | some data =>
    match d.decodeData data with
    | (.error e, d) => (.error e, d)
    | (.ok output, d) => (d.flush.1.map (output ++ ·), d.flush.2)

/-- `write`; a buffer that has been used is `none`. -/
def write (d : Decoder) (buffer : Option (List UInt8)) : Except String (List Char) × Decoder :=
  match buffer with
  | none => (.error "Buffer has already been used", d)
  | some data => d.decodeData data

/-- The chunks with `write`, then `end`. -/
def writeAll (d : Decoder) : List (List UInt8) → Option (List UInt8) → Except String (List Char)
  | [], last => (d.end last).1
  | chunk :: chunks, last =>
    match d.write (some chunk) with
    | (.error e, _) => .error e
    | (.ok output, d) => (d.writeAll chunks last).map (output ++ ·)

/-- The second part of `decode_data`, on the bytes to decode and those to hold. -/
theorem decodeRest_append (d : Decoder) (pre buf : List UInt8) {text : List Char}
    (hbuf : buf.length = d.bufferedBytes) (hpre : pre ≠ [] → makeString d.encoder pre = .ok text)
    (hnil : pre = [] → text = []) (s : List Char) : d.decodeRest (pre ++ buf) s =
      (.ok (s ++ text), { d with buffer := d.buffer ++ buf }) := by
  have hcut : (if 0 < d.bufferedBytes then (pre ++ buf).length - d.bufferedBytes
      else (pre ++ buf).length) = pre.length := by
    rw [List.length_append, hbuf]
    split_ifs <;> omega
  unfold decodeRest
  dsimp only
  rw [hcut, List.take_left, List.drop_left]
  by_cases hempty : pre.isEmpty
  · rw [if_pos hempty, hnil (List.isEmpty_iff.mp hempty), List.append_nil]
  · rw [if_neg hempty, hpre (hempty ∘ List.isEmpty_iff.mpr)]

variable {d : Decoder} {data : List UInt8}

theorem fill_of_le {s : List Char} (h : d.missingBytes ≤ data.length)
    (hs : makeString d.encoder (d.buffer ++ data.take d.missingBytes) = .ok s) :
    d.fill data = (.ok s, data.drop d.missingBytes, .fresh d.encoder) := by
  unfold Decoder.fill
  dsimp only
  rw [Nat.min_eq_right h, Nat.sub_self, if_pos rfl, hs]
  rfl

theorem fill_of_lt (h : data.length < d.missingBytes) :
    d.fill data = (.ok [], [], ⟨d.encoder, d.buffer ++ data, d.bufferedBytes + data.length,
      d.missingBytes - data.length⟩) := by
  unfold Decoder.fill
  dsimp only
  rw [Nat.min_eq_left (by omega), if_neg (by omega), List.take_length, List.drop_length]

end Decoder

/-! ### Chunk by chunk -/

/-- **A text that can be decoded chunk by chunk**: what the decoder holds before the bytes still to
come (`Held`), and that both parts of `decode_data` cut the bytes where `text` can be taken of the
two sides. -/
structure Scheme (e : Encoder) (text : List UInt8 → List Char)
    (Held : List UInt8 → Decoder → Prop) : Prop where
  cutting : e = .utf8 ∨ e = .utf16le ∨ e = .base64
  make : ∀ data, makeString e data = .ok (text data)
  nil : text [] = []
  encoder : ∀ {d rest}, Held rest d → d.encoder = e
  finish : ∀ {d data rest}, Held (data ++ rest) d → ∃ s data' d',
    d.finishCharacter data = (.ok s, data', d') ∧ Held (data' ++ rest) d' ∧
    (data' ≠ [] → d' = .fresh e) ∧
    text (d.buffer ++ (data ++ rest)) = s ++ text (d'.buffer ++ (data' ++ rest))
  tail : ∀ {data rest}, data ≠ [] → Held (data ++ rest) (.fresh e) → ∃ pre buf m,
    data = pre ++ buf ∧ (Decoder.fresh e).holdTail data = ⟨e, [], buf.length, m⟩ ∧
    Held rest ⟨e, buf, buf.length, m⟩ ∧
    text (pre ++ (buf ++ rest)) = text pre ++ text (buf ++ rest)
  flush : ∀ {d}, Held [] d → d.flush.1 = .ok (text d.buffer)

variable {e : Encoder} {text : List UInt8 → List Char} {Held : List UInt8 → Decoder → Prop}

/-- The bytes left over are cut by `holdTail`. -/
theorem Scheme.decodeRest (S : Scheme e text Held) {d : Decoder} {data pre buf : List UInt8}
    {s : List Char} {m : ℕ} (he : d.encoder = e)
    (hfin : d.finishCharacter data = (.ok s, pre ++ buf, .fresh e)) (hne : pre ++ buf ≠ [])
    (htail : (Decoder.fresh e).holdTail (pre ++ buf) = ⟨e, [], buf.length, m⟩) :
    d.decodeData data = (.ok (s ++ text pre), ⟨e, buf, buf.length, m⟩) := by
  have hrest := Decoder.decodeRest_append ⟨e, [], buf.length, m⟩ pre buf rfl (fun _ => S.make pre)
    (fun h => by rw [h, S.nil]) s
  unfold Decoder.decodeData
  rw [if_pos (by rw [he]; exact S.cutting), hfin]
  dsimp only
  rw [if_neg (by simpa using hne), htail, hrest]
  rfl

/-- **One chunk**: what was held and the chunk decode to what is written, and then to what is held
now and what is to come. -/
theorem Scheme.decodeData (S : Scheme e text Held) {d : Decoder} {data rest : List UInt8}
    (h : Held (data ++ rest) d) : ∃ s d', d.decodeData data = (.ok s, d') ∧ Held rest d' ∧
      text (d.buffer ++ (data ++ rest)) = s ++ text (d'.buffer ++ rest) := by
  obtain ⟨s, data', d1, hfin, hheld, hfresh, htext⟩ := S.finish h
  by_cases hnil : data' = []
  · subst hnil
    refine ⟨s, d1, ?_, hheld, htext⟩
    unfold Decoder.decodeData
    rw [if_pos (by rw [S.encoder h]; exact S.cutting), hfin]
    rfl
  · obtain rfl := hfresh hnil
    obtain ⟨pre, buf, m, rfl, htail, hheld', hcut⟩ := S.tail hnil hheld
    refine ⟨_, _, S.decodeRest (S.encoder h) hfin hnil htail, hheld', ?_⟩
    rw [htext, List.append_assoc, List.append_assoc, ← hcut]
    rfl

/-- **All chunks**, and then what `end` gives. -/
theorem Scheme.writeAll (S : Scheme e text Held) (last : Option (List UInt8)) :
    ∀ (chunks : List (List UInt8)) (d : Decoder), Held (chunks.flatten ++ last.getD []) d →
      d.writeAll chunks last = .ok (text (d.buffer ++ (chunks.flatten ++ last.getD [])))
  | [], d, h => by
    rcases last with _ | data
    · rw [Option.getD_none, List.flatten_nil, List.append_nil, List.append_nil]
      exact S.flush h
    · rw [Option.getD_some, List.flatten_nil, List.nil_append] at h ⊢
      rw [← List.append_nil data] at h
      obtain ⟨s, d', hdec, hheld, htext⟩ := S.decodeData h
      rw [List.append_nil, List.append_nil] at htext
      unfold Decoder.writeAll Decoder.end
      dsimp only
      rw [hdec, htext]
      dsimp only
      rw [S.flush hheld]
      rfl
  | chunk :: chunks, d, h => by
    rw [List.flatten_cons, List.append_assoc] at h ⊢
    obtain ⟨s, d', hdec, hheld, htext⟩ := S.decodeData h
    have hwrite : d.write (some chunk) = (.ok s, d') := hdec
    rw [Decoder.writeAll, hwrite]
    dsimp only
    rw [S.writeAll last chunks d' hheld, htext]
    rfl

end RasterRuntime.StringDecoder
