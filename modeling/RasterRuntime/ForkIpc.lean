import RasterRuntime.CloneWire.Codec

/-! # Frames between a process and its children

`write_frame_sync` writes a payload as a frame: a tag, the body after its length, the number of
transfers and each of them after its length. The other end reads frames from a pipe that gives its
bytes in pieces of its own choosing (`Source`), through `read_exact`.

* `takes_readExact`: however the bytes are split, `read_exact` takes the number asked for, or fails.
* `readFrames_of_frames`: a sequence of frames is read back, by either reader; of a stream that is
  cut, the whole frames are read and the next read fails. -/

namespace RasterRuntime.ForkIpc

open Wire CloneWire

/-- A frame: its tag and its payload. -/
abbrev Frame := UInt8 × CloneWirePayload

def frameMessage : UInt8 := 3

def frameExit : UInt8 := 5

def writeU32 (v : UInt32) : List UInt8 := u32Bytes v

/-- The length of the bytes, cast to 32 bits, and the bytes. -/
def writeBytes (bs : List UInt8) : List UInt8 := writeU32 (UInt32.ofNat bs.length) ++ bs

/-- The bytes `write_frame_sync` writes: the tag, the body, the number of transfers, the
transfers. -/
def writeFrameSync (f : Frame) : List UInt8 :=
  [f.1] ++ (writeBytes f.2.body ++
    (writeU32 (UInt32.ofNat f.2.transfers.length) ++ f.2.transfers.flatMap writeBytes))

/-- `write_frame_async` writes the same bytes through a buffer. -/
def writeFrameAsync (f : Frame) : List UInt8 := writeFrameSync f

/-! ### Reading from a pipe -/

/-- What one call of `read` does: it is interrupted (a pending poll, for the asynchronous reader),
or it gives `k + 1` bytes, if so many were asked for and are left. -/
inductive Event where
  | again
  | give (k : ℕ)
deriving DecidableEq, Repr

/-- A pipe: the bytes up to its end, and what the next calls of `read` do. The calls after these
give all they can. -/
structure Source where
  bytes : List UInt8
  events : List Event
deriving DecidableEq, Repr

instance : Feed Source where
  left s := s.bytes
  After bs s s' := s.bytes = bs ++ s'.bytes
  left_of_after h h' := (List.append_cancel_left (h.symm.trans h')).symm
  after_nil _ := rfl
  after_append h h' := by rw [h, h', List.append_assoc]

/-- The first `m` bytes. -/
def Source.take (m : ℕ) (events : List Event) (s : Source) : Option (List UInt8) × Source :=
  (some (s.bytes.take m), ⟨s.bytes.drop m, events⟩)

/-- One call of `read` on a buffer of `n` bytes; `none` if it is to be made again. -/
def Source.read (n : ℕ) (s : Source) : Option (List UInt8) × Source :=
  match s.events with
  | [] => s.take n []
  | .again :: es => (none, ⟨s.bytes, es⟩)
  | .give k :: es => s.take (min n (k + 1)) es

variable {n : ℕ} {s s' : Source} {frames : List Frame}

theorem Source.read_none (h : s.read n = (none, s')) :
    s'.bytes = s.bytes ∧ s'.events.length < s.events.length := by
  unfold Source.read Source.take at h
  rcases he : s.events with _ | ⟨_ | k, es⟩ <;> rw [he] at h
  · cases h
  · cases h
    exact ⟨rfl, Nat.lt_succ_self _⟩
  · cases h

/-- A call that gives bytes: no more than asked for, and some if there are any. -/
theorem Source.read_some {got : List UInt8} (h : s.read n = (some got, s')) :
    s.bytes = got ++ s'.bytes ∧ got.length ≤ n ∧ (got = [] → n = 0 ∨ s.bytes = []) ∧
      s'.events.length ≤ s.events.length := by
  have htake : ∀ m es, m ≤ n → (m = 0 → n = 0) → es.length ≤ s.events.length →
      s.take m es = (some got, s') → s.bytes = got ++ s'.bytes ∧ got.length ≤ n ∧
        (got = [] → n = 0 ∨ s.bytes = []) ∧ s'.events.length ≤ s.events.length := by
    intro m es hm h0 hes ht
    cases ht
    refine ⟨(List.take_append_drop m s.bytes).symm, Nat.le_trans (List.length_take_le m _) hm, ?_,
      hes⟩
    intro hnil
    exact (List.take_eq_nil_iff.mp hnil).imp h0 id
  unfold Source.read at h
  rcases he : s.events with _ | ⟨_ | k, es⟩ <;> rw [he] at h
  · exact he ▸ htake n [] (Nat.le_refl n) id (Nat.zero_le _) h
  · cases h
  · exact he ▸ htake _ es (Nat.min_le_left n _) (by omega) (by rw [he]; exact Nat.le_succ _) h

/-- The only error of the pipe. -/
inductive IoError where
  | unexpectedEof (message : String)
deriving DecidableEq, Repr

/-- The loop of `read_exact`: it reads until `n` bytes are there, and fails at the end of the pipe.
The two implementations differ in the text of the error. -/
def readExact (eof : IoError) (n : ℕ) (s : Source) : Except IoError (List UInt8 × Source) :=
  if n = 0 then .ok ([], s)
  else match _h : s.read n with
    | (none, s') => readExact eof n s'
    | (some [], _) => .error eof
    | (some (b :: bs), s') => do
      let (rest, s'') ← readExact eof (n - (b :: bs).length) s'
      .ok (b :: bs ++ rest, s'')
termination_by s.events.length + n
decreasing_by
  · exact Nat.add_lt_add_right (Source.read_none _h).2 n
  · have hr := Source.read_some _h
    have hl : (b :: bs).length = bs.length + 1 := rfl
    omega

variable (eof : IoError)

theorem readExact_whole (n : ℕ) (s : Source) (bs rest : List UInt8) (hl : bs.length = n)
    (hs : s.bytes = bs ++ rest) :
    ∃ s', readExact eof n s = .ok (bs, s') ∧ s.bytes = bs ++ s'.bytes := by
  fun_induction readExact eof n s generalizing bs with
  | case1 s =>
    rw [List.length_eq_zero_iff.mp hl]
    exact ⟨s, rfl, rfl⟩
  | case2 n s hn s' h ih =>
    rw [← (Source.read_none h).1] at hs ⊢
    exact ih bs hl hs
  | case3 n s hn s' h =>
    rcases (Source.read_some h).2.2.1 rfl with h0 | h0
    · exact absurd h0 hn
    · rw [h0] at hs
      rw [(List.append_eq_nil_iff.mp hs.symm).1] at hl
      exact absurd hl.symm hn
  | case4 n s hn b got s' h ih =>
    obtain ⟨hgot, hle, -, -⟩ := Source.read_some h
    have hp : b :: got <+: s.bytes := ⟨s'.bytes, hgot.symm⟩
    have hp' : bs <+: s.bytes := ⟨rest, hs.symm⟩
    obtain ⟨bs', rfl⟩ : b :: got <+: bs :=
      List.prefix_of_prefix_length_le hp hp' (by rw [hl]; exact hle)
    have hs' : s'.bytes = bs' ++ rest := by
      rw [hgot, List.append_assoc] at hs
      exact List.append_cancel_left hs
    rw [List.length_append] at hl
    obtain ⟨s'', hr, h''⟩ := ih bs' (by omega) hs'
    refine ⟨s'', by rw [hr]; rfl, ?_⟩
    rw [hgot, h'', List.append_assoc]

theorem readExact_short (n : ℕ) (s : Source) : s.bytes.length < n →
    readExact eof n s = .error eof := by
  fun_induction readExact eof n s with
  | case1 s => exact fun hlt => absurd hlt (Nat.not_lt_zero _)
  | case2 n s hn s' h ih =>
    intro hlt
    rw [← (Source.read_none h).1] at hlt
    exact ih hlt
  | case3 n s hn s' h => exact fun _ => rfl
  | case4 n s hn b got s' h ih =>
    intro hlt
    rw [(Source.read_some h).1, List.length_append] at hlt
    rw [ih (by omega)]
    rfl

/-- **However the pipe splits its bytes, `read_exact` takes the number asked for or fails.** -/
theorem takes_readExact : Takes (readExact eof) := fun bs =>
  { whole := fun s rest hs => readExact_whole eof bs.length s bs rest rfl hs
    short := fun s hp hne => ⟨eof, readExact_short eof bs.length s
      (Nat.lt_of_le_of_ne hp.length_le fun h => hne (hp.eq_of_length h))⟩ }

/-! ### Frames -/

/-- The reader of 32-bit numbers. -/
def readU32 (eof : IoError) : Reader Source IoError UInt32 := u32 (readExact eof)

/-- Bytes after their length. -/
def readBytes (eof : IoError) : Reader Source IoError (List UInt8) := do
  let len ← readU32 eof
  readExact eof len.toNat

/-- The transfers after their number. -/
def readTransfers (eof : IoError) : Reader Source IoError (List (List UInt8)) := do
  let transferCount ← readU32 eof
  many (readBytes eof) transferCount.toNat

/-- The body that the two readers of frames share. -/
def readFrame (eof : IoError) : Reader Source IoError Frame := do
  let tag ← readExact eof 1
  let body ← readBytes eof
  let transfers ← readTransfers eof
  pure (tag.headD 0, ⟨body, transfers⟩)

/-- `read_frame_sync`, over the `read_exact` of the standard library. -/
def readFrameSync : Reader Source IoError Frame :=
  readFrame (.unexpectedEof "failed to fill whole buffer")

/-- `read_frame_async`, over the `read_exact` of the asynchronous runtime. -/
def readFrameAsync : Reader Source IoError Frame := readFrame (.unexpectedEof "early eof")

/-- All lengths and counts of the payload are below 2^32. -/
def payloadFits (p : CloneWirePayload) : Bool :=
  p.body.length < 2 ^ 32 && p.transfers.length < 2 ^ 32 &&
    p.transfers.all fun t => t.length < 2 ^ 32

theorem reads_bytes {bs : List UInt8} (h : bs.length < 2 ^ 32) :
    Reads (readBytes eof) (writeBytes bs) bs :=
  Reads.len (takes_readExact eof) h (k := readExact eof) (takes_readExact eof bs)

theorem reads_transfers {ts : List (List UInt8)} (hn : ts.length < 2 ^ 32)
    (h : ∀ t ∈ ts, t.length < 2 ^ 32) : Reads (readTransfers eof)
      (writeU32 (UInt32.ofNat ts.length) ++ ts.flatMap writeBytes) ts :=
  Reads.len (takes_readExact eof) hn (k := many (readBytes eof))
    (Reads.many ts fun t ht => reads_bytes eof (h t ht))

theorem reads_frame (f : Frame) (h : payloadFits f.2) :
    Reads (readFrame eof) (writeFrameSync f) f := by
  unfold payloadFits at h
  rw [Bool.and_eq_true, Bool.and_eq_true, List.all_eq_true] at h
  obtain ⟨⟨hb, hn⟩, ht⟩ := h
  refine (takes_readExact eof [f.1]).bind ((reads_bytes eof (of_decide_eq_true hb)).bind ?_)
  exact (reads_transfers eof (of_decide_eq_true hn) fun t hm =>
    of_decide_eq_true (ht t hm)).last (Reads.pure f)

/-- The stream that a sequence of frames makes. -/
def stream (frames : List Frame) : List UInt8 := frames.flatMap writeFrameSync

/-- `read` returns the frames from the pipe with their bytes, and then reports its end. -/
def ReadsAll (read : Reader Source IoError Frame) (frames : List Frame) : Prop :=
  ∀ events, ∃ s, many read frames.length ⟨stream frames, events⟩ = .ok (frames, s) ∧
    s.bytes = [] ∧ ∃ e, read s = .error e

/-- On a cut stream `read` returns the frames before the cut, and fails in the one it is in. -/
def ReadsCut (read : Reader Source IoError Frame) (frames : List Frame) : Prop :=
  ∀ events cut, cut <+: stream frames → cut ≠ stream frames →
    ∃ before f after rest s, frames = before ++ f :: after ∧ cut = stream before ++ rest ∧
      rest <+: writeFrameSync f ∧ rest ≠ writeFrameSync f ∧
      many read before.length ⟨cut, events⟩ = .ok (before, s) ∧ ∃ e, read s = .error e

theorem readsAll_readFrame (h : ∀ f ∈ frames, payloadFits f.2) :
    ReadsAll (readFrame eof) frames := by
  intro events
  obtain ⟨s, hs, hafter⟩ := (Reads.many frames fun f hf => reads_frame eof f (h f hf)).whole
    ⟨stream frames, events⟩ [] (List.append_nil _).symm
  have hnil : s.bytes = [] := List.append_right_eq_self.mp (Eq.symm hafter)
  refine ⟨s, hs, hnil, (reads_frame eof (0, ⟨[], []⟩) rfl).short s ?_ ?_⟩
  · rw [show Feed.left s = [] from hnil]
    exact List.nil_prefix
  · rw [show Feed.left s = [] from hnil]
    exact (List.cons_ne_nil _ _).symm

theorem readsCut_readFrame (h : ∀ f ∈ frames, payloadFits f.2) :
    ReadsCut (readFrame eof) frames := by
  intro events cut hp hne
  obtain ⟨before, f, after, rest, s, hf, hc, hr, hrne, hm, he⟩ :=
    Reads.many_cut frames ⟨cut, events⟩ (fun f hf => reads_frame eof f (h f hf)) hp hne
  exact ⟨before, f, after, rest, s, hf, hc, hr, hrne, hm, he⟩

/-- **Frames are read back in order, however the pipe splits them; a cut loses only the frame it
falls in.** -/
theorem readFrames_of_frames (frames : List Frame) (h : ∀ f ∈ frames, payloadFits f.2 = true) :
    (ReadsAll readFrameSync frames ∧ ReadsCut readFrameSync frames) ∧
    ReadsAll readFrameAsync frames ∧ ReadsCut readFrameAsync frames :=
  ⟨⟨readsAll_readFrame _ h, readsCut_readFrame _ h⟩, readsAll_readFrame _ h, readsCut_readFrame _ h⟩

/-- A message with an empty transfer, and an exit frame. -/
theorem readFrames_of_message_exit :
    let frames : List Frame := [(frameMessage, ⟨magic, [[1, 2, 3], []]⟩), (frameExit, ⟨[], []⟩)]
    (ReadsAll readFrameSync frames ∧ ReadsCut readFrameSync frames) ∧
    ReadsAll readFrameAsync frames ∧ ReadsCut readFrameAsync frames :=
  readFrames_of_frames _ (by decide)

end RasterRuntime.ForkIpc
