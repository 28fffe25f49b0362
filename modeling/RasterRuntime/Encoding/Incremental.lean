import RasterRuntime.Encoding.Encoder

/-! # The incremental decoder

`IncrementalDecoder` of `raster_runtime_encoding`: bytes come in chunks, and what a chunk ends in
the middle of is kept for the next one. Its methods change the decoder also when they fail, so each
returns the text or the error *and* the decoder it leaves behind.

The two loops are followed as written: `decodeUtf8Like` calls `from_utf8` on the rest of the bytes
again after every error, `decodeUtf16Stream` reads one or two code units per round. -/

namespace RasterRuntime.Encoding

open Text
open Text.Utf8 (replacement)

/-- `IncrementalDecoder`. -/
structure IncrementalDecoder where
  pending : List UInt8 := []
  bomResolved : Bool := false
  pendingBom : Option (List UInt8) := none
  utf16OddByte : Option UInt8 := none
  utf16LeadSurrogate : Option UInt16 := none
  deriving DecidableEq, Repr

/-- `IncrementalDecoder::new`, and what `reset` leaves. -/
def IncrementalDecoder.new : IncrementalDecoder := {}

/-! ### The byte order mark -/

/-- `bom_prefix`. -/
def bomPrefix : Encoder → List UInt8
  | .utf8 => [0xEF, 0xBB, 0xBF]
  | .utf16le => [0xFF, 0xFE]
  | .utf16be => [0xFE, 0xFF]
  | _ => []

/-- The length of the common start of two byte strings. -/
def sharedLength (data pre : List UInt8) : ℕ :=
  ((data.zip pre).takeWhile fun p => p.1 == p.2).length

/-- `process_bom`: the bytes to decode, and the new `bom_resolved` and `pending_bom`. -/
def processBom (encoder : Encoder) (bytes : List UInt8) (stream bomFinalize bomResolved : Bool)
    (pendingBom : Option (List UInt8)) : List UInt8 × Bool × Option (List UInt8) :=
  let pre := bomPrefix encoder
  if pre.isEmpty then (bytes, true, pendingBom)
  else
    let data := pendingBom.getD [] ++ bytes
    if pre.isPrefixOf data then (data.drop pre.length, true, none)
    else if stream && !bomFinalize && sharedLength data pre == data.length &&
        decide (sharedLength data pre < pre.length) then
      ([], bomResolved, some data)
    else (data, true, none)

/-! ### UTF-8 -/

/-- The loop of `decode_utf8_like`: `rest` are the bytes from `pos` on. The result is the output
and the bytes added to `pending`. Every round but the last takes at least one byte, so `n` rounds
are enough for `n` bytes. -/
def utf8Loop (lossy : Bool) : ℕ → List UInt8 → List Char → Except String (List Char × List UInt8)
  | 0, _, output => .ok (output, [])
  | n + 1, rest, output =>
    if rest.isEmpty then .ok (output, [])
    else
      match Utf8.fromUtf8 rest with
      | .ok valid => .ok (output ++ valid, [])
      | .error e =>
        -- `from_utf8_unchecked` on the bytes before the error
        let output := output ++ Utf8.fromUtf8Lossy (rest.take e.validUpTo)
        let rest := rest.drop e.validUpTo
        match e.errorLen with
        | some invalidLen =>
          if !lossy then .error e.toMessage
          else utf8Loop lossy n (rest.drop invalidLen) (output ++ [replacement])
        | none => .ok (output, rest)

/-- `decode_utf8_like`; `pending` is what the field holds on entry. -/
def decodeUtf8Like (bytes : List UInt8) (lossy stream : Bool) (pending : List UInt8) :
    Except String (List Char) × List UInt8 :=
  if !stream then (bytesToUtf8String bytes lossy, pending)
  else
    match utf8Loop lossy bytes.length bytes [] with
    | .ok (output, kept) => (.ok output, pending ++ kept)
    | .error e => (.error e, pending)

/-! ### UTF-16 -/

/-- What a call of the UTF-16 loop leaves: the code units or an error, and the two fields. -/
structure Utf16State where
  codeUnits : Except String (List UInt16)
  oddByte : Option UInt8
  leadSurrogate : Option UInt16
  deriving Repr

/-- The message for an unpaired surrogate in fatal mode. -/
def invalidUtf16 : String := "Invalid UTF-16 sequence"

/-- The message for an input that ends inside a unit or a pair in fatal mode. -/
def incompleteUtf16 : String := "Incomplete UTF-16 sequence"

/-- `REPLACEMENT as u16`. -/
def replacementUnit : UInt16 := 0xFFFD

/-- The end of a round: a unit that is not the first of a pair. -/
def pushUnit (lossy : Bool) (unit : UInt16) (codeUnits : List UInt16) :
    Except String (List UInt16) :=
  if Utf16.isTrail unit then
    if !lossy then .error invalidUtf16 else .ok (codeUnits ++ [replacementUnit])
  else .ok (codeUnits ++ [unit])

/-- The loop of `decode_utf16_stream`, on the bytes from `index` on. -/
def utf16Loop (endian : Endian) (lossy stream : Bool) :
    List UInt8 → Option UInt16 → List UInt16 → Utf16State
  | [], lead, codeUnits => ⟨.ok codeUnits, none, lead⟩
  | [x], lead, codeUnits =>
    if stream then ⟨.ok codeUnits, some x, lead⟩
    else if lossy then ⟨.ok (codeUnits ++ [replacementUnit]), none, lead⟩
    else ⟨.error incompleteUtf16, none, lead⟩
  | x :: y :: rest, lead, codeUnits =>
    let unit := u16FromBytes endian x y
    if lead.isSome && Utf16.isTrail unit then
      utf16Loop endian lossy stream rest none (codeUnits ++ lead.toList ++ [unit])
    else if lead.isSome && !lossy then ⟨.error invalidUtf16, none, none⟩
    else
      let codeUnits := if lead.isSome then codeUnits ++ [replacementUnit] else codeUnits
      if Utf16.isLead unit then
        match rest with
        | x' :: y' :: rest' =>
          let next := u16FromBytes endian x' y'
          if Utf16.isTrail next then
            utf16Loop endian lossy stream rest' none (codeUnits ++ [unit, next])
          else if !lossy then ⟨.error invalidUtf16, none, none⟩
          else
            -- the round goes on with `next` in place of the lead surrogate
            match pushUnit lossy next (codeUnits ++ [replacementUnit]) with
            | .ok us => utf16Loop endian lossy stream rest' none us
            | .error e => ⟨.error e, none, none⟩
        | [z] =>
          if stream then ⟨.ok codeUnits, some z, some unit⟩
          else if !lossy then ⟨.error invalidUtf16, none, none⟩
          else
            -- no `continue` here: the round goes on and pushes the lead surrogate as well
            match pushUnit lossy unit (codeUnits ++ [replacementUnit]) with
            | .ok us => utf16Loop endian lossy stream [z] none us
            | .error e => ⟨.error e, none, none⟩
        | [] =>
          if stream then ⟨.ok codeUnits, none, some unit⟩
          else if !lossy then ⟨.error invalidUtf16, none, none⟩
          else ⟨.ok (codeUnits ++ [replacementUnit]), none, none⟩
      else
        match pushUnit lossy unit codeUnits with
        | .ok us => utf16Loop endian lossy stream rest none us
        | .error e => ⟨.error e, none, none⟩

/-- `decode_utf16_stream`: the text, and the new `utf16_odd_byte` and `utf16_lead_surrogate`. -/
def decodeUtf16Stream (bytes : List UInt8) (endian : Endian) (lossy stream : Bool)
    (oddByte : Option UInt8) (leadSurrogate : Option UInt16) :
    Except String (List Char) × Option UInt8 × Option UInt16 :=
  let st := utf16Loop endian lossy stream (oddByte.toList ++ bytes) leadSurrogate []
  match st.codeUnits with
  | .ok us => (utf16Text us lossy, st.oddByte, st.leadSurrogate)
  | .error e => (.error e, st.oddByte, st.leadSurrogate)

/-! ### The methods -/

namespace IncrementalDecoder

/-- The first part of `decode_bytes`: the bytes to decode, `bom_resolved` and `pending_bom`. -/
def bomStage (d : IncrementalDecoder) (encoder : Encoder) (input : List UInt8)
    (stream ignoreBom bomFinalize : Bool) : List UInt8 × Bool × Option (List UInt8) :=
  let combined := d.pending ++ input
  if d.bomResolved || ignoreBom then (combined, d.bomResolved, d.pendingBom)
  else processBom encoder combined stream bomFinalize d.bomResolved d.pendingBom

variable [Codecs]

/-- `decode_bytes`. -/
def decodeBytes (d : IncrementalDecoder) (encoder : Encoder) (input : List UInt8)
    (lossy stream ignoreBom bomFinalize : Bool) : Except String (List Char) × IncrementalDecoder :=
  let (bytes, bomResolved, pendingBom) := d.bomStage encoder input stream ignoreBom bomFinalize
  let d : IncrementalDecoder :=
    { d with pending := [], bomResolved := bomResolved, pendingBom := pendingBom }
  let utf16 (endian : Endian) : Except String (List Char) × IncrementalDecoder :=
    let (r, odd, lead) :=
      decodeUtf16Stream bytes endian lossy stream d.utf16OddByte d.utf16LeadSurrogate
    (r, { d with utf16OddByte := odd, utf16LeadSurrogate := lead })
  match encoder with
  | .utf8 | .windows1252 =>
    let (r, pending) := decodeUtf8Like bytes lossy stream d.pending
    (r, { d with pending := pending })
  | .utf16le => utf16 .little
  | .utf16be => utf16 .big
  | .hex | .base64 =>
    if stream then (.ok [], { d with pending := bytes })
    else (encodeToString encoder bytes lossy, d)

/-- `decode_chunk`. -/
def decodeChunk (d : IncrementalDecoder) (encoder : Encoder) (input : List UInt8)
    (lossy stream ignoreBom : Bool) : Except String (List Char) × IncrementalDecoder :=
  match d.decodeBytes encoder input lossy stream ignoreBom false with
  | (.ok output, d') => (.ok output, if stream then d' else .new)
  | (.error e, d') => (.error e, d')

/-- The part of `flush` that writes out what the decoder still holds. -/
def flushRest (d : IncrementalDecoder) (encoder : Encoder) (lossy : Bool) (output : List Char) :
    Except String (List Char) × IncrementalDecoder :=
  match encoder with
  | .utf8 | .windows1252 =>
    if d.pending.isEmpty then (.ok output, d)
    else if lossy then (.ok (output ++ [replacement]), { d with pending := [] })
    else (.error "Incomplete UTF-8 sequence", d)
  | .utf16le | .utf16be =>
    if d.utf16LeadSurrogate.isSome && d.utf16OddByte.isSome then
      if lossy then
        (.ok (output ++ [replacement]), { d with utf16LeadSurrogate := none, utf16OddByte := none })
      else (.error incompleteUtf16, d)
    else if d.utf16OddByte.isSome then
      if lossy then (.ok (output ++ [replacement]), { d with utf16OddByte := none })
      else (.error incompleteUtf16, d)
    else if d.utf16LeadSurrogate.isSome then
      if lossy then (.ok (output ++ [replacement]), { d with utf16LeadSurrogate := none })
      else (.error incompleteUtf16, d)
    else (.ok output, d)
  | .hex | .base64 =>
    if d.pending.isEmpty then (.ok output, d)
    else
      match encodeToString encoder d.pending lossy with
      | .ok s => (.ok (output ++ s), { d with pending := [] })
      | .error e => (.error e, d)

/-- The first part of `flush`: bytes held back as the start of a byte order mark are decoded. -/
def flushBom (d : IncrementalDecoder) (encoder : Encoder) (lossy ignoreBom : Bool) :
    Except String (List Char) × IncrementalDecoder :=
  if !ignoreBom && !d.bomResolved then
    match d.pendingBom with
    | some pending =>
      ({ d with pendingBom := none, bomResolved := true } : IncrementalDecoder).decodeBytes
        encoder pending lossy false true true
    | none => (.ok [], d)
  else (.ok [], d)

/-- `flush`. -/
def flush (d : IncrementalDecoder) (encoder : Encoder) (lossy ignoreBom : Bool) :
    Except String (List Char) × IncrementalDecoder :=
  match d.flushBom encoder lossy ignoreBom with
  | (.error e, d) => (.error e, d)
  | (.ok out1, d) =>
    match d.decodeBytes encoder [] lossy true ignoreBom true with
    | (.error e, d) => (.error e, d)
    | (.ok out2, d) =>
      match d.flushRest encoder lossy (out1 ++ out2) with
      | (.error e, d) => (.error e, d)
      | (.ok output, _) => (.ok output, .new)

end IncrementalDecoder

end RasterRuntime.Encoding
