import RasterRuntime.WritableStream.Flight

/-! # What the sink sees

The chunks that were accepted wait in the controller's queue and their requests in the stream's
list, and the close request waits as a value of the same queue. While the stream is writable the two
are aligned (`Aligned`): behind the chunk that is in flight stand the chunks that the sink has not
seen, one for each request, and behind them the sentinel if there is a close request.

* `Proper`: when a function of the sink may be called, by what was seen before.
* `Served.move`: every move keeps the queue aligned and the log proper, and none panics, as long as
  no chunk is the sentinel.
* `sink_served`: so does every run.
* `sentinel_write_panics`: a chunk that is the sentinel is taken for the close request. -/

namespace RasterRuntime.WritableStream

open Streams State
open List (mem_cons not_mem_nil)

variable {V F : Type}

/-! ### The log -/

/-- The chunk of a call of `write` that was accepted. -/
def Obs.accepted : Obs V → Option V
  | .written v => some v
  | _ => none

/-- The chunk that the sink is called with. -/
def Obs.passed : Obs V → Option V
  | .sinkWrite v => some v
  | _ => none

/-- Whether a write or the close of the sink begins. -/
def Obs.begins : Obs V → Bool
  | .sinkWrite _ => true
  | .sinkClose => true
  | _ => false

/-- Whether a write or the close of the sink ends. -/
def Obs.ends : Obs V → Bool
  | .sinkDone => true
  | .sinkFailed => true
  | _ => false

/-- The chunks that were written, in order. -/
def writes (log : List (Obs V)) : List V := log.filterMap Obs.accepted

/-- The chunks that the sink was called with, in order. -/
def sinkWrites (log : List (Obs V)) : List V := log.filterMap Obs.passed

/-- No write and no close of the sink is outstanding. -/
def Idle (log : List (Obs V)) : Prop := log.countP Obs.begins = log.countP Obs.ends

/-- When a function of the sink may be called: a write with the next chunk that was written, the
close after a call of `close` and after all chunks were written without failure, and neither of them
nor the abort while another write or the close is outstanding. -/
def Proper (before : List (Obs V)) : Obs V → Prop
  | .sinkWrite v => Idle before ∧ sinkWrites before ++ [v] <+: writes before
  | .sinkClose => Idle before ∧ .closeCalled ∈ before ∧ sinkWrites before = writes before ∧
      .sinkFailed ∉ before
  | .sinkAbort _ => Idle before
  | _ => True

/-- Every call of the sink was proper. -/
def Orderly (log : List (Obs V)) : Prop :=
  ∀ before o after, log = before ++ o :: after → Proper before o

theorem orderly_nil : Orderly ([] : List (Obs V)) := by
  intro before o after h
  simp at h

theorem Orderly.append {log : List (Obs V)} {o : Obs V} (h : Orderly log) (ho : Proper log o) :
    Orderly (log ++ [o]) := by
  intro before x after heq
  rcases List.eq_nil_or_concat after with rfl | ⟨rest, y, rfl⟩
  · obtain ⟨rfl, hx⟩ := List.append_inj' heq rfl
    cases hx
    exact ho
  · have heq' : log ++ [o] = (before ++ x :: rest) ++ [y] := by
      rw [heq]
      simp
    obtain ⟨hlog, -⟩ := List.append_inj' heq' rfl
    exact h before x rest hlog

theorem writes_append (log : List (Obs V)) (o : Obs V) :
    writes (log ++ [o]) = writes log ++ o.accepted.toList := by
  unfold writes
  rw [List.filterMap_append]
  cases o <;> rfl

theorem sinkWrites_append (log : List (Obs V)) (o : Obs V) :
    sinkWrites (log ++ [o]) = sinkWrites log ++ o.passed.toList := by
  unfold sinkWrites
  rw [List.filterMap_append]
  cases o <;> rfl

/-! ### The queue -/

/-- The sentinel, if there is a close request. -/
def closeMark (sentinel : V) (closing : Option ℕ) : List V :=
  if closing.isSome then [sentinel] else []

/-- The queue and the requests of a stream that is writable. -/
structure Aligned (sentinel : V) (queue : List (V × F)) (inFlight closing : Option ℕ)
    (requests : List ℕ) (log : List (Obs V)) (flying chunks : List V) : Prop where
  queue : queue.map Prod.fst = flying ++ chunks ++ closeMark sentinel closing
  flying : flying.length = if inFlight.isSome then 1 else 0
  fresh : sentinel ∉ chunks
  unseen : writes log = sinkWrites log ++ chunks
  requests : requests.length = chunks.length

def State.Aligned (sentinel : V) (s : State V F) : Prop :=
  ∃ flying chunks, WritableStream.Aligned sentinel s.container.queue s.inFlightWriteRequest
    s.closeRequest s.writeRequests s.log flying chunks

/-- How many writes or closes of the sink are outstanding. -/
def outstanding (s : State V F) : ℕ :=
  (if s.inFlightWriteRequest.isSome then 1 else 0) + if s.inFlightCloseRequest.isSome then 1 else 0

/-- **The sink is served** in the order of the writes. -/
structure Served (sentinel : V) (s : State V F) : Prop where
  alive : s.panicked = none
  orderly : Orderly s.log
  balance : s.log.countP Obs.begins = s.log.countP Obs.ends + outstanding s
  inOrder : sinkWrites s.log <+: writes s.log
  closing : s.closeRequest ≠ none → .closeCalled ∈ s.log
  sizing : ∀ x ∈ s.sizing, x.1 ≠ sentinel
  clean : s.phase = .writable → .sinkFailed ∉ s.log
  aligned : s.phase = .writable → s.Aligned sentinel

attribute [grind =] Obs.accepted Obs.passed Obs.begins Obs.ends Proper Idle outstanding
  writes_append
  sinkWrites_append List.countP_append List.countP_singleton

namespace Served

variable {sentinel : V} {s t : State V F} {n : F} {q : QueueWithSizes V F}

section

variable (h : Served sentinel s) (hp : s.phase = .writable)

include h hp

/-- Behind what is in flight, the queue has what the sink has not seen. -/
theorem idle_aligned (hq : Quiet s) :
    ∃ chunks, WritableStream.Aligned sentinel s.container.queue none s.closeRequest s.writeRequests
      s.log [] chunks := by
  obtain ⟨flying, chunks, ha⟩ := h.aligned hp
  rw [hq.noWrite] at ha
  obtain rfl : flying = [] := List.length_eq_zero_iff.mp ha.flying
  exact ⟨chunks, ha⟩

/-- The first value of the queue is the first chunk that the sink has not seen. -/
theorem chunk_first {v : V} {rest : List (V × F)} (hq : Quiet s) (hv : v ≠ sentinel)
    (hx : s.container.queue = (v, n) :: rest) :
    ∃ cs, WritableStream.Aligned sentinel s.container.queue none s.closeRequest s.writeRequests
      s.log [] (v :: cs) := by
  obtain ⟨chunks, ha⟩ := h.idle_aligned hp hq
  have hqueue := ha.queue
  rw [hx] at hqueue
  cases chunks with
  | nil => grind [closeMark]
  | cons c cs =>
    obtain rfl : v = c := (List.cons.inj hqueue).1
    exact ⟨cs, ha⟩

/-- The sentinel is first in the queue when the sink has seen all chunks. -/
theorem sentinel_first {rest : List (V × F)} (hq : Quiet s)
    (hx : s.container.queue = (sentinel, n) :: rest) :
    s.closeRequest ≠ none ∧ rest = [] ∧ writes s.log = sinkWrites s.log ∧ s.writeRequests = [] := by
  obtain ⟨chunks, ha⟩ := h.idle_aligned hp hq
  have hqueue := ha.queue
  rw [hx] at hqueue
  cases chunks with
  | nil => grind [Aligned, closeMark]
  | cons c cs => grind [Aligned]

end

/-! ### Moves at the sink -/

variable [Binary64 F]

/-- What a stream that stays writable has in its queue. -/
theorem aligned_move (ha : Aborts s) (h : Served sentinel s)
    (hm : Move sentinel ⟨(· ≠ sentinel), fun _ _ => True⟩ s t) (ht : t.phase = .writable) :
    t.Aligned sentinel := by
  cases hm with
  | accept v n q hv hp hr hc hq =>
    obtain ⟨flying, chunks, hal⟩ := h.aligned hp
    refine ⟨flying, chunks ++ [v], ?_⟩
    constructor <;> grind -linarith [Aligned, closeMark]
  | close writer q hp hr hc hq =>
    obtain ⟨flying, chunks, hal⟩ := h.aligned ht
    refine ⟨flying, chunks, ?_⟩
    constructor <;> grind -linarith [Aligned, closeMark]
  | processWrite v n rest hp hq hv hx =>
    obtain ⟨cs, hal⟩ := h.chunk_first hp hq hv hx
    have hcleared := ha.not_cleared hp hq
    refine ⟨[v], cs, ?_⟩
    constructor <;> grind -linarith [Aligned]
  | processClose writer n rest hp hq hx =>
    have hfirst := h.sentinel_first hp hq hx
    have hcleared := ha.not_cleared hp hq
    refine ⟨[], [], ?_⟩
    constructor <;> grind -linarith [Quiet, closeMark, QueueWithSizes.dequeueValue]
  | landWrite p x q hp hx =>
    obtain ⟨flying, chunks, hal⟩ := h.aligned ht
    have hflying := hal.flying
    rw [hp] at hflying
    obtain ⟨y, rfl⟩ := List.length_eq_one_iff.mp hflying
    refine ⟨[], chunks, ?_⟩
    constructor <;> grind -linarith [Aligned]
  | _ => grind -linarith [Served, State.Aligned]

theorem move (hf : Flight s) (ha : Aborts s) (h : Served sentinel s)
    (hm : Move sentinel ⟨(· ≠ sentinel), fun _ _ => True⟩ s t) : Served sentinel t := by
  have haligned := aligned_move ha h hm
  cases hm with
  | finishAborting e r hp hq hr hw =>
    have hcleared := ha.not_cleared_of_request hq hr hw
    constructor <;> grind -linarith [Served, Quiet, Orderly.append]
  | processWrite v n rest hp hq hv hx =>
    obtain ⟨cs, hal⟩ := h.chunk_first hp hq hv hx
    have hcleared := ha.not_cleared hp hq
    have hseen : sinkWrites s.log ++ [v] <+: writes s.log := ⟨cs, by grind [Aligned]⟩
    constructor <;> grind -linarith [Served, Quiet, Aligned, Orderly.append]
  | processClose writer n rest hp hq hx =>
    obtain ⟨hreq, -, hseen, -⟩ := h.sentinel_first hp hq hx
    have hcleared := ha.not_cleared hp hq
    obtain ⟨p, hr⟩ := Option.ne_none_iff_exists'.mp hreq
    simp only [State.processClose, QueueWithSizes.dequeueValue, hr, hx, hcleared] at haligned ⊢
    constructor <;> grind -linarith [Served, Quiet, Orderly.append]
  | landWrite p x q hp hx | failWrite p x e ready hp he =>
    have hc := (hf.of_write hp).1
    constructor <;> grind -linarith [Served, Orderly.append]
  | landClose writer p settled pending hp hpe hw | failClose p x e ready settled hp he =>
    have hwr := (hf.of_close hp).1
    constructor <;> grind -linarith [Served, Orderly.append]
  | _ => constructor <;> grind -linarith [Served, Orderly.append]

end Served

/-! ### Runs -/

section Runs

theorem fits_chunks {sentinel : V} {s : State V F} {e : Event V F}
    (hs : ∀ x ∈ s.sizing, x.1 ≠ sentinel)
    (he : ∀ w v, e = .write w v → v ≠ sentinel) :
    (⟨(· ≠ sentinel), fun _ _ => True⟩ : Allow V).Fits s e where
  refl _ := trivial
  chunk := he
  sizing := hs
  close _ _ _ _ := trivial
  size _ _ _ _ _ _ _ _ := trivial

variable [Binary64 F]

theorem served_init (sentinel : V) (strategyHwm : F) :
    Served sentinel (init (V := V) strategyHwm) where
  alive := rfl
  orderly := orderly_nil
  balance := rfl
  inOrder := List.prefix_rfl
  closing hne := absurd rfl hne
  sizing := nofun
  clean _ := not_mem_nil
  aligned _ := ⟨[], [], rfl, rfl, not_mem_nil, rfl, rfl⟩

variable [DecidableEq V] {sentinel : V} {s : State V F}

theorem Served.act {e : Event V F} (hf : Flight s) (ha : Aborts s) (h : Served sentinel s)
    (he : ∀ w v, e = .write w v → v ≠ sentinel) :
    Flight (act sentinel s e) ∧ Aborts (act sentinel s e) ∧ Served sentinel (act sentinel s e) := by
  have hm : Moves sentinel _ s (WritableStream.act sentinel s e) :=
    moves_act hf (fits_chunks h.sizing he)
  refine hm.invariant (P := fun t => Flight t ∧ Aborts t ∧ Served sentinel t) ?_ ⟨hf, ha, h⟩
  rintro t u ⟨hft, hat, hst⟩ hmove
  exact ⟨hft.move hmove, hat.move hmove, hst.move hft hat hmove⟩

theorem served_run (es : List (Event V F)) (h : ∀ w v, Event.write w v ∈ es → v ≠ sentinel) :
    ∀ s : State V F, Flight s → Aborts s → Served sentinel s →
      Served sentinel (es.foldl (step sentinel) s) := by
  induction es with
  | nil =>
    intro s _ _ hs
    exact hs
  | cons e es ih =>
    intro s hf ha hs
    have hstep : step sentinel s e = act sentinel s e := by
      unfold step
      rw [hs.alive]
      rfl
    obtain ⟨hf', ha', hs'⟩ :=
      Served.act (e := e) hf ha hs (fun w v he => h w v (he ▸ (.head _)))
    rw [List.foldl_cons, hstep]
    exact ih (fun w v hv => h w v (.tail _ hv)) _ hf' ha' hs'

/-- **The sink of a stream**: whatever is done with the stream, as long as no chunk that is written
is the sentinel, the sink is called with the chunks that were written in their order and with each
once at most, no write and no close of it begins while another is outstanding, it is closed only
after a call of `close` and when all chunks were written, and nothing panics. -/
theorem sink_served (sentinel : V) (strategyHwm : F) (es : List (Event V F))
    (h : ∀ w v, Event.write w v ∈ es → v ≠ sentinel) :
    (es.foldl (step sentinel) (init strategyHwm)).panicked = none ∧
      sinkWrites (es.foldl (step sentinel) (init strategyHwm)).log <+:
        writes (es.foldl (step sentinel) (init strategyHwm)).log ∧
      Orderly (es.foldl (step sentinel) (init strategyHwm)).log := by
  have hs := served_run es h (init strategyHwm) (flight_init strategyHwm) (aborts_init strategyHwm)
    (served_init sentinel strategyHwm)
  exact ⟨hs.alive, hs.inOrder, hs.orderly⟩

/-- Two chunks and a close: the run meets the condition. -/
theorem sink_served_two :
    (∀ w v, (Event.write w v : Event ℕ ℤ) ∈ [.getWriter, .startSettles (.ok ()), .write 0 7,
        .sizeReturns (.returned (some 1)), .write 0 8, .sizeReturns (.returned (some 1)),
        .close (some 0), .sinkWriteSettles (.ok ()), .sinkWriteSettles (.ok ())] → v ≠ 0) ∧
      Orderly ([Event.getWriter, .startSettles (.ok ()), .write 0 7,
        .sizeReturns (.returned (some 1)), .write 0 8, .sizeReturns (.returned (some 1)),
        .close (some 0), .sinkWriteSettles (.ok ()), .sinkWriteSettles (.ok ())].foldl (step 0)
          (init (V := ℕ) (F := ℤ) 1)).log := by
  refine ⟨?chunks, (sink_served 0 1 _ ?chunks).2.2⟩
  intro w v hv
  simp only [mem_cons, Event.write.injEq, reduceCtorEq, not_mem_nil, false_or, or_false] at hv
  omega

/-- A chunk that is the sentinel: the stream takes it for a close request that it does not have. -/
theorem sentinel_write_panics :
    ([Event.getWriter, .startSettles (.ok ()), .write 0 0, .sizeReturns (.returned (some 1))].foldl
      (step 0) (init (V := ℕ) (F := ℤ) 1)).panicked =
        some "writable_stream_mark_close_request_in_flight called without close request" := by
  decide

end Runs

end RasterRuntime.WritableStream
