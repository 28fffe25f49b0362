import RasterRuntime.WritableStream.Moves

/-! # What is in flight, and what waits for it

* `Flight.move`: every move keeps what is in flight and the promises of the sink together, whatever
  is written.
* `Aborts.move`: a request for an abort waits while the stream is erroring only, and the algorithms
  that the request or the queue will need were not cleared. -/

namespace RasterRuntime.WritableStream

open Streams State

variable {V F : Type}

section Facts

variable {s : State V F}

theorem ended_of_writable (h : s.phase = .writable) : s.phase.ended = false := by
  rw [h]
  rfl

theorem ended_of_erroring {e : Reason V} (h : s.phase = .erroring e) : s.phase.ended = false := by
  rw [h]
  rfl

end Facts

/-- What begins to fly finds nothing in flight, and what lands leaves nothing in flight. -/
theorem Flight.move [Binary64 F] {sentinel : V} {allow : Allow V} {s t : State V F} (h : Flight s)
    (hm : Move sentinel allow s t) : Flight t := by
  cases hm with
  | accept v n q hv hp hr hc hq | close writer q hp hr hc hq =>
    refine { h with queued := fun _ => ?_ }
    rw [hq]
    simp
  | start hs =>
    obtain ⟨hst, he⟩ := h.not_started hs
    have hno := h.started hst
    constructor <;> grind -linarith [Flight]
  | landWrite p x q hp hx | failWrite p x e ready hp he =>
    obtain ⟨hc, hended, hst, -⟩ := h.of_write hp
    have hno := h.noAbort hended
    constructor <;> grind -linarith [Flight]
  | landClose writer p settled pending hp ha hw | failClose p x e ready settled hp he =>
    obtain ⟨hwr, hended, hst⟩ := h.of_close hp
    have hno := h.noAbort hended
    constructor <;> grind -linarith [Flight]
  | _ => constructor <;> grind -linarith [Flight, Quiet]

/-! ### Requests for an abort -/

/-- A request for an abort waits while the stream is erroring, and the abort algorithm is there for
the request that is to call it unless the close is in flight. -/
structure Aborts (s : State V F) : Prop where
  erroring : s.pendingAbortRequest ≠ none → ∃ e, s.phase = .erroring e
  armed : ∀ r, s.pendingAbortRequest = some r → r.wasAlreadyErroring = false → s.cleared = true →
    s.inFlightCloseRequest ≠ none
  cleared : s.phase = .writable → s.cleared = true → s.inFlightCloseRequest ≠ none

namespace Aborts

variable {s : State V F}

theorem none_of_writable (h : Aborts s) (hp : s.phase = .writable) :
    s.pendingAbortRequest = none := by
  by_contra hne
  obtain ⟨e, he⟩ := h.erroring hne
  rw [hp] at he
  cases he

/-- The algorithms are there while nothing is in flight. -/
theorem not_cleared (h : Aborts s) (hp : s.phase = .writable) (hq : Quiet s) :
    s.cleared = false := by
  by_contra hc
  exact h.cleared hp (by simpa using hc) hq.noClose

theorem not_cleared_of_request {r : PendingAbortRequest V} (h : Aborts s) (hq : Quiet s)
    (hr : s.pendingAbortRequest = some r) (hw : r.wasAlreadyErroring = false) :
    s.cleared = false := by
  by_contra hc
  exact h.armed r hr hw (by simpa using hc) hq.noClose

theorem move [Binary64 F] {sentinel : V} {allow : Allow V} {t : State V F} (h : Aborts s)
    (hm : Move sentinel allow s t) : Aborts t := by
  cases hm with
  | landClose writer p settled pending hp ha hw =>
    -- a request that is left would be of a stream that is erroring
    have hnone : pending = none := by
      by_contra hne
      obtain ⟨heq, hno⟩ := ha hne
      obtain ⟨e, he⟩ := h.erroring (heq ▸ hne)
      exact hno e he
    constructor <;> grind -linarith
  | _ => constructor <;> grind -linarith [Aborts]

end Aborts

/-! ### A new stream -/

section Init

variable [Binary64 F]

theorem flight_init (strategyHwm : F) : Flight (init (V := V) strategyHwm) where
  write := rfl
  close := rfl
  exclusive := .inl rfl
  idle := nofun
  start := rfl
  started _ := ⟨rfl, rfl⟩
  queued hne := absurd rfl hne
  aborting hne := absurd rfl hne

theorem aborts_init (strategyHwm : F) : Aborts (init (V := V) strategyHwm) where
  erroring hne := absurd rfl hne
  armed := nofun
  cleared := nofun

/-- **Every run**, whatever is written: at most one thing is in flight, and a request for an abort
waits only while the stream is erroring. -/
theorem flight_run [DecidableEq V] (sentinel : V) (strategyHwm : F) (es : List (Event V F)) :
    Flight (es.foldl (step sentinel) (init strategyHwm)) ∧
      Aborts (es.foldl (step sentinel) (init strategyHwm)) := by
  refine List.foldlRecOn (motive := fun s => Flight s ∧ Aborts s) es _
    ⟨flight_init strategyHwm, aborts_init strategyHwm⟩ fun s h e _ => ?_
  unfold step
  split_ifs
  · exact h
  · have hm : Moves sentinel ⟨fun _ => True, fun _ _ => True⟩ s (act sentinel s e) :=
      moves_act h.1 (by constructor <;> simp)
    exact hm.invariant (fun _ _ (h : Flight _ ∧ _) hm => ⟨h.1.move hm, h.2.move hm⟩) h

end Init

end RasterRuntime.WritableStream
