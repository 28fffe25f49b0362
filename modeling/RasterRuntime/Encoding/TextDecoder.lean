import RasterRuntime.Encoding.Incremental

/-! # `TextDecoder`, and what a finished call leaves behind

The class `TextDecoder` of `raster_runtime_util`: `decode` reads its options, then its input, and
only then touches the incremental decoder, with `do_not_flush` telling a later call whether a
stream is open.

A call that is not streaming and whose arguments can be read is *final*: it ends the stream.

* `decode_of_ok`: a final call that returns leaves a fresh decoder.
* `decode_of_closed`: when no stream is open, a final call does not see what the decoder holds.
* `results_after_final`: hence the calls after a final one are those of a fresh decoder, when it
  returned, or when the next call to reach the decoder is itself final. When it threw and a
  streaming call comes next, the state it was left in shows (`results_after_throw`). -/

namespace RasterRuntime.Encoding

/-- The first argument of `decode`: absent or `undefined`, bytes, or a value whose bytes cannot be
taken. -/
inductive Input where
  | undefined
  | bytes (bs : List UInt8)
  | invalid (error : String)
  deriving DecidableEq, Repr

/-- The arguments of a call of `decode`; `stream` is the option as `get_optional` reads it. -/
structure Call where
  input : Input := .undefined
  stream : Except String (Option Bool) := .ok none

/-- `TextDecoder`. -/
structure TextDecoder where
  encoder : Encoder
  fatal : Bool
  ignoreBom : Bool
  decoder : IncrementalDecoder
  doNotFlush : Bool
  deriving DecidableEq, Repr

namespace TextDecoder

/-- A decoder with the given options that has decoded nothing. -/
def fresh (encoder : Encoder) (fatal ignoreBom : Bool) : TextDecoder :=
  ⟨encoder, fatal, ignoreBom, .new, false⟩

/-- The constructor `new`, on the options as `get_optional` reads them. -/
def new (label : Option String) (fatal ignoreBom : Option Bool) : Except String TextDecoder :=
  match fromOptionalStr label with
  | .ok encoder => .ok (fresh encoder (fatal.getD false) (ignoreBom.getD false))
  | .error e => .error e

/-- `decode`, once the arguments are read. -/
def decodeBytes [Codecs] (t : TextDecoder) (bytes : List UInt8) (stream : Bool) :
    Except String (List Char) × TextDecoder :=
  let lossy := !t.fatal
  if stream then
    let (r, d) := t.decoder.decodeChunk t.encoder bytes lossy true t.ignoreBom
    (r, { t with decoder := d, doNotFlush := true })
  else if t.doNotFlush then
    match t.decoder.decodeChunk t.encoder bytes lossy true t.ignoreBom with
    | (.error e, d) => (.error e, { t with decoder := d, doNotFlush := false })
    | (.ok output, d) =>
      let (r, d) := d.flush t.encoder lossy t.ignoreBom
      (r.map (output ++ ·), { t with decoder := d, doNotFlush := false })
  else
    let (r, d) := IncrementalDecoder.new.decodeChunk t.encoder bytes lossy false t.ignoreBom
    (r, { t with decoder := d })

/-- `decode`. -/
def decode [Codecs] (t : TextDecoder) (c : Call) : Except String (List Char) × TextDecoder :=
  match c.stream, c.input with
  | .error e, _ => (.error e, t)
  | .ok _, .invalid e => (.error e, t)
  | .ok stream, .undefined => t.decodeBytes [] (stream.getD false)
  | .ok stream, .bytes bs => t.decodeBytes bs (stream.getD false)

/-- The decoder after a list of calls. -/
def after [Codecs] (t : TextDecoder) (calls : List Call) : TextDecoder :=
  calls.foldl (fun t c => (t.decode c).2) t

/-- What each of a list of calls returns or throws. -/
def results [Codecs] (t : TextDecoder) : List Call → List (Except String (List Char))
  | [] => []
  | c :: calls => (t.decode c).1 :: results (t.decode c).2 calls

/-- The chunks with `{stream: true}`, then a last call without; a call that throws ends it. -/
def decodeChunks [Codecs] (t : TextDecoder) :
    List (List UInt8) → List UInt8 → Except String (List Char)
  | [], last => (t.decode ⟨.bytes last, .ok none⟩).1
  | chunk :: chunks, last =>
    match t.decode ⟨.bytes chunk, .ok (some true)⟩ with
    | (.error e, _) => .error e
    | (.ok output, t') => (t'.decodeChunks chunks last).map (output ++ ·)

end TextDecoder

/-- The bytes and the mode of a call whose arguments can be read. -/
def Call.args (c : Call) : Option (List UInt8 × Bool) :=
  match c.stream, c.input with
  | .error _, _ => none
  | .ok _, .invalid _ => none
  | .ok stream, .undefined => some ([], stream.getD false)
  | .ok stream, .bytes bs => some (bs, stream.getD false)

/-- A final call: its arguments can be read, and it is not streaming. -/
def Call.isFinal (c : Call) : Bool := c.args.any fun a => !a.2

namespace TextDecoder

variable {c : Call} {bs : List UInt8} {t : TextDecoder} {out : List Char}

theorem decode_of_args [Codecs] {stream : Bool} (h : c.args = some (bs, stream)) (t : TextDecoder) :
    t.decode c = t.decodeBytes bs stream := by
  unfold Call.args at h
  unfold decode
  split at h <;> simp_all

theorem decode_of_args_none [Codecs] (h : c.args = none) (t : TextDecoder) :
    (t.decode c).2 = t ∧ ∀ t' : TextDecoder, (t.decode c).1 = (t'.decode c).1 := by
  unfold Call.args at h
  unfold decode
  split at h <;> simp_all

theorem exists_args_of_isFinal (h : c.isFinal) : ∃ bs, c.args = some (bs, false) := by
  unfold Call.isFinal at h
  cases ha : c.args with
  | none => rw [ha] at h; simp at h
  | some a =>
    rw [ha] at h
    obtain ⟨bs, stream⟩ := a
    exact ⟨bs, by simpa using h⟩

/-! ### The three cases of `decode` -/

theorem decodeBytes_open [Codecs] (h : t.doNotFlush) (bs : List UInt8) :
    t.decodeBytes bs false =
      match t.decoder.decodeChunk t.encoder bs (!t.fatal) true t.ignoreBom with
      | (.error e, d) => (.error e, { t with decoder := d, doNotFlush := false })
      | (.ok output, d) =>
        ((d.flush t.encoder (!t.fatal) t.ignoreBom).1.map (output ++ ·),
          { t with
            decoder := (d.flush t.encoder (!t.fatal) t.ignoreBom).2
            doNotFlush := false }) := by
  simp [decodeBytes, h]

theorem decodeBytes_closed [Codecs] (h : t.doNotFlush = false) (bs : List UInt8) :
    t.decodeBytes bs false =
      ((IncrementalDecoder.new.decodeChunk t.encoder bs (!t.fatal) false t.ignoreBom).1,
        { t with
          decoder :=
            (IncrementalDecoder.new.decodeChunk t.encoder bs (!t.fatal) false
              t.ignoreBom).2 }) := by
  simp [decodeBytes, h]

/-- The decoder with everything forgotten but its options. -/
def forget (t : TextDecoder) : TextDecoder := fresh t.encoder t.fatal t.ignoreBom

theorem forget_decodeBytes [Codecs] (t : TextDecoder) (bs : List UInt8) (stream : Bool) :
    (t.decodeBytes bs stream).2.forget = t.forget := by
  cases stream with
  | true => rfl
  | false =>
    cases h : t.doNotFlush with
    | true => rw [decodeBytes_open h]; split <;> rfl
    | false => rw [decodeBytes_closed h]; rfl

theorem forget_decode [Codecs] (t : TextDecoder) (c : Call) : (t.decode c).2.forget = t.forget := by
  cases ha : c.args with
  | none => rw [(decode_of_args_none ha t).1]
  | some a => rw [decode_of_args ha, forget_decodeBytes]

theorem forget_after [Codecs] (t : TextDecoder) (calls : List Call) :
    (t.after calls).forget = t.forget := by
  induction calls generalizing t with
  | nil => rfl
  | cons c calls ih =>
    unfold after at ih ⊢
    rw [List.foldl_cons, ih, forget_decode]

/-! ### A final call -/

variable {d d' : IncrementalDecoder} {encoder : Encoder} {lossy ignoreBom : Bool}

theorem decodeChunk_of_ok [Codecs]
    (h : d.decodeChunk encoder bs lossy false ignoreBom = (.ok out, d')) :
    d' = .new := by
  unfold IncrementalDecoder.decodeChunk at h
  split at h <;> simp_all

theorem flush_of_ok [Codecs] (h : d.flush encoder lossy ignoreBom = (.ok out, d')) : d' = .new := by
  unfold IncrementalDecoder.flush at h
  split at h
  · simp at h
  · split at h
    · simp at h
    · split at h
      · simp at h
      · simp only [Prod.mk.injEq] at h
        exact h.2.symm

theorem doNotFlush_decodeBytes [Codecs] (t : TextDecoder) (bs : List UInt8) :
    (t.decodeBytes bs false).2.doNotFlush = false := by
  cases h : t.doNotFlush with
  | true => rw [decodeBytes_open h]; split <;> rfl
  | false => rw [decodeBytes_closed h]; exact h

theorem decoder_of_ok [Codecs] (h : (t.decodeBytes bs false).1 = .ok out) :
    (t.decodeBytes bs false).2.decoder = .new := by
  cases hf : t.doNotFlush with
  | false =>
    rw [decodeBytes_closed hf] at h ⊢
    exact decodeChunk_of_ok (Prod.ext h rfl)
  | true =>
    rw [decodeBytes_open hf] at h ⊢
    split at h
    · simp at h
    · rename_i out1 d hd
      cases hr : (d.flush t.encoder (!t.fatal) t.ignoreBom).1 with
      | error e => simp [hr, Except.map] at h
      | ok out2 => exact flush_of_ok (Prod.ext hr rfl)

/-- **A final call that returns leaves a fresh decoder.** -/
theorem decode_of_ok [Codecs] (hc : c.isFinal) (h : (t.decode c).1 = .ok out) :
    (t.decode c).2 = t.forget := by
  obtain ⟨bs, ha⟩ := exists_args_of_isFinal hc
  rw [decode_of_args ha] at h ⊢
  have hflush := doNotFlush_decodeBytes t bs
  have hd := decoder_of_ok h
  rw [← forget_decodeBytes t bs false]
  generalize (t.decodeBytes bs false).2 = t' at *
  unfold forget fresh
  rw [← hd, ← hflush]

/-- **When no stream is open, a final call does not see what the decoder holds.** -/
theorem decode_of_closed [Codecs] (hc : c.isFinal) (h : t.doNotFlush = false) :
    (t.decode c).1 = (t.forget.decode c).1 ∧
      (t.decode c).2 = (t.forget.decode c).2 := by
  obtain ⟨bs, ha⟩ := exists_args_of_isFinal hc
  rw [decode_of_args ha, decode_of_args ha, decodeBytes_closed h, decodeBytes_closed rfl]
  unfold forget fresh
  simp [h]

/-! ### Histories -/

/-- With no stream open, calls up to and with a final one are those of a fresh decoder. -/
theorem results_of_closed [Codecs] : ∀ (later : List Call) (t : TextDecoder), t.doNotFlush = false →
    (∀ d ∈ later.find? (·.args.isSome), d.isFinal) → t.results later = t.forget.results later
  | [], _, _, _ => rfl
  | d :: later, t, ht, hd => by
    unfold results
    cases ha : d.args with
    | none =>
      have hd' : ∀ e ∈ later.find? (·.args.isSome), e.isFinal := by
        rwa [List.find?_cons_of_neg (by simp [ha])] at hd
      rw [(decode_of_args_none ha t).1, (decode_of_args_none ha t.forget).1,
        (decode_of_args_none ha t).2 t.forget, results_of_closed later t ht hd']
    | some a =>
      have hf : d.isFinal := by
        rw [List.find?_cons_of_pos (by simp [ha])] at hd
        exact hd d rfl
      rw [(decode_of_closed hf ht).1, (decode_of_closed hf ht).2]

/-- **After a final call**: for every history of calls, the calls after a final one are those of a
fresh decoder with the same options, when it returned, or when the first of them to reach the
decoder is final. -/
theorem results_after_final [Codecs] (encoder : Encoder) (fatal ignoreBom : Bool)
    (history later : List Call) (c : Call) (hc : c.isFinal = true)
    (h : (((fresh encoder fatal ignoreBom).after history).decode c).1.isOk = true ∨
      ∀ d ∈ later.find? (·.args.isSome), d.isFinal = true) :
    ((fresh encoder fatal ignoreBom).after (history ++ [c])).results later =
      (fresh encoder fatal ignoreBom).results later := by
  have hopts : ((fresh encoder fatal ignoreBom).after history).forget =
      fresh encoder fatal ignoreBom := forget_after _ _
  have happ : (fresh encoder fatal ignoreBom).after (history ++ [c]) =
      (((fresh encoder fatal ignoreBom).after history).decode c).2 := by
    simp [after, List.foldl_append]
  rw [happ]
  generalize (fresh encoder fatal ignoreBom).after history = t at *
  rcases h with h | h
  · cases hr : (t.decode c).1 with
    | error e => rw [hr] at h; simp [Except.isOk, Except.toBool] at h
    | ok out => rw [decode_of_ok hc hr, hopts]
  · obtain ⟨bs, ha⟩ := exists_args_of_isFinal hc
    have hclosed : (t.decode c).2.doNotFlush = false := by
      rw [decode_of_args ha]; exact doNotFlush_decodeBytes t bs
    rw [results_of_closed later _ hclosed h, forget_decode, hopts]

/-- An open stream, a final call that throws, an unreadable call and another final call: a byte
order mark at the start of the last one is removed, as by a fresh decoder. -/
theorem results_after_final_throw :
    letI := standardCodecs
    ((fresh .utf8 true false).after ([⟨.bytes [0x41, 0xE2], .ok (some true)⟩] ++
        [⟨.bytes [0xFF], .ok none⟩])).results
      [⟨.invalid "not a buffer", .ok none⟩, ⟨.bytes [0xEF, 0xBB, 0xBF, 0x61], .ok none⟩] =
    (fresh .utf8 true false).results
      [⟨.invalid "not a buffer", .ok none⟩, ⟨.bytes [0xEF, 0xBB, 0xBF, 0x61], .ok none⟩] :=
  @results_after_final standardCodecs .utf8 true false _ _ _ (by decide) (.inr (by decide))

/-- A streaming call after a final call that threw: the byte order mark is kept, since the decoder
still counts the start of the stream as read. -/
theorem results_after_throw :
    letI := standardCodecs
    ((fresh .utf8 true false).after [⟨.bytes [0xFF], .ok none⟩]).results
        [⟨.bytes [0xEF, 0xBB, 0xBF, 0x61], .ok (some true)⟩] = [.ok ['\uFEFF', 'a']] ∧
      (fresh .utf8 true false).results [⟨.bytes [0xEF, 0xBB, 0xBF, 0x61], .ok (some true)⟩] =
        [.ok ['a']] ∧
      ((fresh .utf8 true false).decode ⟨.bytes [0xFF], .ok none⟩).1 =
        .error "invalid utf-8 sequence of 1 bytes from index 0" := by
  refine ⟨by rfl, by rfl, by rfl⟩

end TextDecoder

end RasterRuntime.Encoding
