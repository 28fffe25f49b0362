import RasterRuntime.BodyStream.Model

/-! # Data that is decoded in pieces

The data of a body reaches the decoder in pieces that depend on the schedule of the frames and on
the way of reading. `Decodes d data plain` says that this does not matter: however the data is cut,
the decoder takes it without an error, and what it gives for the pieces and in the end is together
`plain`. It is what is asked of the decoders of the libraries; data that is only copied satisfies it
(`decodes_of_copy`).

* `Decodes.split`: what was given for the first pieces comes first, and the rest of the data decodes
  to the rest.
* `data_drainReady`, `found_pollData`: polls take the data off a body in order.
* `nativePull_finds`, `readBodyChunk_finds`: what the native pull and the tasks do with a body. The
  tasks take it for the end of the body if there are trailers before data or if data decodes to
  nothing, which `Fruitful` excludes. -/

namespace RasterRuntime.BodyStream

open ReadableStream.State
open List (append_assoc append_nil suffix_cons)

variable {δ : Type}

/-! ### Bodies -/

def Frame.bytes : Frame → Bytes
  | .data b => b
  | .trailers => []

namespace Incoming

/-- The frames that are to come. -/
def frames : Incoming → List Frame
  | [] => []
  | .frame f :: rest => f :: frames rest
  | _ :: rest => frames rest

/-- The data that is to come. -/
def data (body : Incoming) : Bytes := (frames body).flatMap Frame.bytes

/-- No poll gives an error. -/
def Clean (body : Incoming) : Prop := ∀ message, Polled.error message ∉ body

end Incoming

open Incoming

theorem data_data (b : Bytes) (rest : Incoming) :
    data (.frame (.data b) :: rest) = b ++ data rest := rfl

theorem Incoming.Clean.tail {x : Polled} {rest : Incoming} (h : Clean (x :: rest)) : Clean rest :=
  fun m hm => h m (List.mem_cons_of_mem x hm)

theorem Incoming.Clean.suffix {body rest : Incoming} (h : Clean body) (hs : rest <:+ body) :
    Clean rest :=
  fun m hm => h m (hs.subset hm)

theorem drainReady_suffix (body : Incoming) : (drainReady body).2 <:+ body := by
  fun_induction drainReady body with
  | case1 => exact List.suffix_rfl
  | case2 | case3 => exact suffix_cons _ _
  | case4 rest ih | case5 b rest ih => exact ih.trans (suffix_cons _ rest)

theorem data_drainReady (body : Incoming) :
    (drainReady body).1.flatten ++ data (drainReady body).2 = data body := by
  fun_induction drainReady body with
  | case1 | case2 | case3 => rfl
  | case4 rest ih => exact ih
  | case5 b rest ih => rw [List.flatten_cons, append_assoc, ih, data_data]

theorem pollData_suffix (body : Incoming) : (pollData body).2 <:+ body := by
  fun_induction pollData body with
  | case1 => exact List.suffix_rfl
  | case2 | case3 | case5 => exact suffix_cons _ _
  | case4 rest ih => exact ih.trans (suffix_cons _ rest)

/-- What a poll for data found was the first data of the body. -/
def Found (body rest : Incoming) : DataPoll → Prop
  | .pending => data body = data rest
  | .ended => data body = [] ∧ rest = []
  | .failed _ => False
  | .data first => data body = first ++ data rest

theorem found_pollData {body : Incoming} (hc : Clean body) :
    Found body (pollData body).2 (pollData body).1 := by
  fun_induction pollData body with
  | case1 => exact ⟨rfl, rfl⟩
  | case2 | case5 => rfl
  | case3 e => exact absurd (.head _) (hc e)
  | case4 body ih => exact ih hc.tail

/-! ### Pieces -/

variable [Codec δ]

namespace Decoding

theorem processAll_copy {d : Decoding δ} (h : d.hasDecoder = false ∨ d.decoder = none)
    (pieces : List Bytes) : d.processAll pieces = (.ok pieces.flatten, d) := by
  have hprocess : ∀ data, d.process data = (.ok data, d) := by
    intro data
    unfold process
    rcases h with h | h
    · rw [h]
    · rw [h]
      cases d.hasDecoder <;> rfl
  induction pieces with
  | nil => rfl
  | cons data rest ih =>
    unfold processAll
    rw [hprocess]
    dsimp only
    rw [ih]
    rfl

theorem finish_copy {d : Decoding δ} (h : d.hasDecoder = false ∨ d.decoder = none) :
    d.finish = .ok [] := by
  unfold finish
  cases hd : d.decoder with
  | none => rfl
  | some dec =>
    rcases h with h | h
    · rw [d.unused h dec hd]
      rfl
    · rw [hd] at h
      cases h

theorem processAll_singleton (d : Decoding δ) (data : Bytes) :
    d.processAll [data] = d.process data := by
  unfold processAll
  rcases d.process data with ⟨_ | out, d'⟩
  · rfl
  · show (Except.ok (out ++ []), d') = _
    rw [append_nil]

theorem processAll_append (d : Decoding δ) (pieces pieces' : List Bytes) :
    d.processAll (pieces ++ pieces') =
      match d.processAll pieces with
      | (.error e, d') => (.error e, d')
      | (.ok out, d') =>
        match d'.processAll pieces' with
        | (.error e, d'') => (.error e, d'')
        | (.ok out', d'') => (.ok (out ++ out'), d'') := by
  induction pieces generalizing d with
  | nil =>
    rw [List.nil_append, processAll]
    dsimp only
    rcases d.processAll pieces' with ⟨_ | out', d''⟩ <;> rfl
  | cons data rest ih =>
    rw [List.cons_append, processAll, processAll]
    rcases d.process data with ⟨_ | o, d₁⟩
    · rfl
    · dsimp only
      rw [ih]
      rcases d₁.processAll rest with ⟨_ | os, d₂⟩
      · rfl
      · dsimp only
        rcases d₂.processAll pieces' with ⟨_ | out', d''⟩
        · rfl
        · dsimp only
          rw [append_assoc]

end Decoding

open Decoding

/-- **Decoding in pieces**: however the data is cut, it is decoded without an error to `plain`. -/
def Decodes (d : Decoding δ) (data plain : Bytes) : Prop :=
  ∀ pieces : List Bytes, pieces.flatten = data →
    ∃ out d' remaining, d.processAll pieces = (.ok out, d') ∧ d'.finish = .ok remaining ∧
      out ++ remaining = plain

variable {d : Decoding δ} {plain : Bytes}

theorem decodes_of_copy (h : d.hasDecoder = false ∨ d.decoder = none) (data : Bytes) :
    Decodes d data data := by
  intro pieces hp
  exact ⟨_, d, [], processAll_copy h pieces, finish_copy h, by rw [hp, append_nil]⟩

/-- **The first pieces** give the first of what the data decodes to. -/
theorem Decodes.split {pieces : List Bytes} {data : Bytes}
    (h : Decodes d (pieces.flatten ++ data) plain) :
    ∃ out d' rest, d.processAll pieces = (.ok out, d') ∧ plain = out ++ rest ∧
      Decodes d' data rest := by
  -- what any cut of the rest says about the first pieces
  have hcut : ∀ pieces', pieces'.flatten = data → ∃ out d' out' d'' remaining,
      d.processAll pieces = (.ok out, d') ∧ d'.processAll pieces' = (.ok out', d'') ∧
        d''.finish = .ok remaining ∧ out ++ (out' ++ remaining) = plain := by
    intro pieces' hp
    obtain ⟨all, dAll, remaining, hall, hfin, hplain⟩ :=
      h (pieces ++ pieces') (by rw [List.flatten_append, hp])
    rw [processAll_append] at hall
    split at hall
    · cases hall
    · next out d' hfirst =>
      split at hall <;> cases hall
      next out' hr =>
      exact ⟨out, d', out', _, remaining, hfirst, hr, hfin, by rw [← hplain, append_assoc]⟩
  obtain ⟨out, d', out₁, d₁, rem₁, hfirst, -, -, hplain⟩ := hcut [data] (by simp)
  refine ⟨out, d', out₁ ++ rem₁, hfirst, hplain.symm, ?_⟩
  intro pieces' hp
  obtain ⟨o, e, out', d'', remaining, ho, hr, hfin, hsum⟩ := hcut pieces' hp
  rw [hfirst] at ho
  cases ho
  exact ⟨out', d'', remaining, hr, hfin, List.append_cancel_left (hsum.trans hplain.symm)⟩

theorem Decodes.process {piece data : Bytes} (h : Decodes d (piece ++ data) plain) :
    ∃ out d' rest, d.process piece = (.ok out, d') ∧ plain = out ++ rest ∧
      Decodes d' data rest := by
  have h' : Decodes d ([piece].flatten ++ data) plain := by simpa using h
  obtain ⟨out, d', rest, hout, hrest, hdec⟩ := h'.split
  rw [processAll_singleton] at hout
  exact ⟨out, d', rest, hout, hrest, hdec⟩

theorem Decodes.finish (h : Decodes d [] plain) :
    d.finish = .ok plain := by
  obtain ⟨out, d', remaining, hp, hfin, hplain⟩ := h [] rfl
  cases hp
  rw [hfin, ← hplain]
  rfl

/-! ### What the two ways of reading find -/

/-- What the native pull does with a body that is in the slot and decodes to `rest`. -/
inductive NativeFinds {F : Type} (s : State δ F) (rest : Bytes) :
    NativePullResult Value × State δ F → Prop
  | wait (body : Incoming) (hc : Clean body) (hd : Decodes s.decoding (data body) rest) :
      NativeFinds s rest (.pending, { s with body := body })
  | chunk (out rest' : Bytes) (body : Incoming) (d : Decoding δ) (hr : rest = out ++ rest')
      (hc : Clean body) (hd : Decodes d (data body) rest') :
      NativeFinds s rest (.ready (.bytes out), { s with body := body, decoding := d })
  | last (d : Decoding δ) :
      NativeFinds s rest
        (.ready (.bytes rest), { s with body := [], place := .dropped, decoding := d })
  | eof (d : Decoding δ) (hr : rest = []) :
      NativeFinds s rest (.eof, { s with body := [], place := .dropped, decoding := d })

theorem nativePull_finds {F : Type} {s : State δ F} {rest : Bytes} (hp : s.place = .slot)
    (hc : Clean s.body) (hd : Decodes s.decoding (data s.body) rest) :
    NativeFinds s rest s.nativePull := by
  have hfound := found_pollData hc
  have hclean := hc.suffix (pollData_suffix s.body)
  rcases hpoll : pollData s.body with ⟨p, body⟩
  rw [hpoll] at hfound hclean
  unfold State.nativePull
  rw [hp, hpoll]
  cases p with
  | failed e => exact hfound.elim
  | pending =>
    have hdata : data s.body = data body := hfound
    dsimp only
    rw [← hp]
    exact .wait body hclean (hdata ▸ hd)
  | data first =>
    have hdata : data s.body = first ++ data body := hfound
    rw [hdata, ← data_drainReady body, ← append_assoc] at hd
    obtain ⟨out, d, rest', hout, hr, hd'⟩ := hd.process
    dsimp only
    rw [hout, ← hp]
    exact .chunk out rest' _ d hr (hclean.suffix (drainReady_suffix body)) hd'
  | ended =>
    obtain ⟨hdata, rfl⟩ : data s.body = [] ∧ body = [] := hfound
    rw [hdata] at hd
    have hfinish := hd.finish
    split_ifs with hhas
    · rw [hfinish]
      cases rest with
      | nil => exact .eof _ rfl
      | cons b bs => exact .last _
    · rw [Decoding.finish_copy (.inl (by simpa using hhas))] at hfinish
      cases hfinish
      exact .eof s.decoding rfl

/-- A task that reads a chunk finds data first, if a frame is ready, and the data that is ready
decodes to something. -/
def Fruitful (d : Decoding δ) : Incoming → Prop
  | .frame .trailers :: _ => False
  | .frame (.data first) :: rest => (d.processAll (first :: (drainReady rest).1)).1 ≠ .ok []
  | _ => True

/-- What a task does that reads a chunk of a body which decodes to `rest`. -/
inductive ChunkFinds (d : Decoding δ) (rest : Bytes) : ReadPoll × Decoding δ × Incoming → Prop
  | wait (body : Incoming) (hc : Clean body) (hd : Decodes d (data body) rest) :
      ChunkFinds d rest (.pending, d, body)
  | chunk (out rest' : Bytes) (d' : Decoding δ) (body : Incoming) (hr : rest = out ++ rest')
      (hc : Clean body) (hd : Decodes d' (data body) rest') :
      ChunkFinds d rest (.ready (.ok (some out)), d', body)
  | eof (d' : Decoding δ) (hr : rest = []) : ChunkFinds d rest (.ready (.ok none), d', [])

theorem readBodyChunk_finds {body : Incoming} {rest : Bytes} (hc : Clean body)
    (hd : Decodes d (data body) rest) (hf : Fruitful d body) :
    ChunkFinds d rest (readBodyChunk d body) := by
  cases body with
  | nil =>
    unfold readBodyChunk
    rw [hd.finish]
    cases rest with
    | nil => exact .eof _ rfl
    | cons b bs =>
      exact .chunk (b :: bs) [] _ [] (append_nil _).symm hc (decodes_of_copy (.inr rfl) [])
  | cons x body =>
    cases x with
    | pending => exact .wait body hc.tail hd
    | error e => exact absurd (.head _) (hc e)
    | frame f =>
      cases f with
      | trailers => exact hf.elim
      | data first =>
        rw [data_data, ← data_drainReady body, ← append_assoc, ← List.flatten_cons] at hd
        obtain ⟨out, d', rest', hout, hr, hd'⟩ := hd.split
        have hne : (d.processAll (first :: (drainReady body).1)).1 ≠ .ok [] := hf
        unfold readBodyChunk
        dsimp only
        rw [hout] at hne ⊢
        cases out with
        | nil => exact absurd rfl hne
        | cons b bs =>
          exact .chunk (b :: bs) rest' d' _ hr (hc.tail.suffix (drainReady_suffix body)) hd'

end RasterRuntime.BodyStream
