import Mathlib.Logic.Relation
import RasterRuntime.WritableStream.Model

/-! # What an event is made of

An event is a chain of moves. After each move the stream is in order: a move that would leave it in
disorder is one with what follows it in the source (a write that fails and the start of the
erroring).

* `Flight`: the requests that are in flight are those whose sink promise is to settle, and there is
  one at most; a stream that is closed or errored has started and has nothing in flight.
* `Move`: the moves, with what holds when they are made.
* `moves_act`: every event is a chain of moves.

What else holds of a stream is proved move by move. -/

namespace RasterRuntime.WritableStream

open Streams State

variable {V F : Type}

/-- Whether the stream is closed or errored. -/
def Phase.ended : Phase V → Bool
  | .writable => false
  | .closed => true
  | .erroring _ => false
  | .errored _ => true

/-- The sink is busy with what is in flight. -/
structure Flight (s : State V F) : Prop where
  write : s.sinkWritePromise = s.inFlightWriteRequest.isSome
  close : s.sinkClosePromise.isSome = s.inFlightCloseRequest.isSome
  exclusive : s.inFlightWriteRequest = none ∨ s.inFlightCloseRequest = none
  idle : s.phase.ended = true →
    s.inFlightWriteRequest = none ∧ s.inFlightCloseRequest = none ∧ s.started = true
  start : s.startPromise = !s.started
  started : s.started = false → s.inFlightWriteRequest = none ∧ s.inFlightCloseRequest = none
  queued : s.inFlightWriteRequest ≠ none → s.container.queue ≠ []
  aborting : s.sinkAbortPromise ≠ none → ∃ e, s.phase = .errored e

/-- Nothing is in flight, and the stream has started. -/
structure Quiet (s : State V F) : Prop where
  noWrite : s.inFlightWriteRequest = none
  noClose : s.inFlightCloseRequest = none
  started : s.started = true

namespace Flight

variable {s : State V F}

theorem of_write {p : ℕ} (h : Flight s) (hp : s.inFlightWriteRequest = some p) :
    s.inFlightCloseRequest = none ∧ s.phase.ended = false ∧ s.started ∧
      s.container.queue ≠ [] := by
  have hne : s.inFlightWriteRequest ≠ none := by rw [hp]; simp
  exact ⟨h.exclusive.resolve_left hne, eq_false_of_ne_true fun he => hne (h.idle he).1,
    eq_true_of_ne_false fun hs => hne (h.started hs).1, h.queued hne⟩

theorem of_close {p : ℕ} (h : Flight s) (hp : s.inFlightCloseRequest = some p) :
    s.inFlightWriteRequest = none ∧ s.phase.ended = false ∧ s.started := by
  have hne : s.inFlightCloseRequest ≠ none := by rw [hp]; simp
  exact ⟨h.exclusive.resolve_right hne, eq_false_of_ne_true fun he => hne (h.idle he).2.1,
    eq_true_of_ne_false fun hs => hne (h.started hs).2⟩

theorem noAbort (h : Flight s) (he : s.phase.ended = false) : s.sinkAbortPromise = none := by
  by_contra hne
  obtain ⟨e, hp⟩ := h.aborting hne
  rw [hp] at he
  cases he

theorem not_started (h : Flight s) (hs : s.startPromise) :
    s.started = false ∧ s.phase.ended = false := by
  have hst : s.started = false := by
    have := h.start
    rw [hs] at this
    simpa using this.symm
  exact ⟨hst, eq_false_of_ne_true fun he => Bool.false_ne_true (hst.symm.trans (h.idle he).2.2)⟩

end Flight

/-! ### Moves -/

section Facts

variable {s : State V F}

theorem with_phase {ph : Phase V} (h : s.phase = ph) : { s with phase := ph } = s := by
  subst h
  rfl

/-- A request for an abort is not left when the stream was erroring. -/
theorem resolveAbortRequest_eq (s : State V F) :
    ∃ settled pending, s.resolveAbortRequest =
        { s with settled := settled, pendingAbortRequest := pending } ∧
      (pending ≠ none → pending = s.pendingAbortRequest ∧ ∀ e, s.phase ≠ .erroring e) := by
  unfold State.resolveAbortRequest
  split
  · exact ⟨_, _, rfl, fun hne => absurd rfl hne⟩
  · next hno => exact ⟨_, _, rfl, fun _ => ⟨rfl, hno⟩⟩

theorem quiet_of_idle (h : (!s.writableStreamHasOperationMarkedInFlight && s.started)) :
    Quiet s := by
  simp only [writableStreamHasOperationMarkedInFlight, Bool.and_eq_true, Bool.not_eq_true',
    Bool.or_eq_false_iff, Option.isSome_eq_false_iff, Option.isNone_iff_eq_none] at h
  exact ⟨h.1.1, h.1.2, h.2⟩

theorem idle_of_quiet (hq : Quiet s) :
    (!s.writableStreamHasOperationMarkedInFlight && s.started) := by
  simp [writableStreamHasOperationMarkedInFlight, hq.noWrite, hq.noClose, hq.started]

theorem not_closeQueuedOrInFlight (h : s.writableStreamCloseQueuedOrInFlight ≠ true) :
    s.closeRequest = none ∧ s.inFlightCloseRequest = none := by
  simpa [writableStreamCloseQueuedOrInFlight, Option.isSome_iff_ne_none] using h

end Facts

-- what the moves write, for the proofs that go through them
attribute [grind =] Phase.ended Phase.isWritable State.getWriter State.releaseLock addWriteRequest
  addCloseRequest addAbortRequest errorRequests abortSteps State.processWrite State.processClose
  State.landWrite State.landClose landAbort rejectCloseAndClosedPromise State.panic

/-- What a run is to be about: the chunks that are written, and the writers (the one attached to the
stream, and the one that a callback has) for which a stream is closed or errored. -/
structure Allow (V : Type) where
  chunk : V → Prop
  writer : Option ℕ → Option ℕ → Prop

variable [Binary64 F]

/-- **The moves** that events are made of. -/
inductive Move (sentinel : V) (allow : Allow V) (s : State V F) : State V F → Prop
  | frame (ready : ℕ → PromiseState V) (b : Bool) (xs : List (V × Option ℕ)) (ys : List (V × ℕ))
      (hy : ys ⊆ s.sizing) : Move sentinel allow s { s with
        readyPromise := ready, backpressure := b, signalling := xs, sizing := ys }
  | push (v : V) (w : ℕ) (hv : allow.chunk v) :
      Move sentinel allow s { s with sizing := (v, w) :: s.sizing }
  | getWriter (h : s.writer = none) : Move sentinel allow s s.getWriter
  | releaseLock (w : ℕ) : Move sentinel allow s (s.releaseLock w)
  | accept (v : V) (n : F) (q : QueueWithSizes V F) (hv : allow.chunk v)
      (hp : s.phase = .writable) (hr : s.closeRequest = none) (hc : s.inFlightCloseRequest = none)
      (hq : q.queue = s.container.queue ++ [(v, n)]) :
      Move sentinel allow s { s.addWriteRequest v with container := q }
  | refuse (v : V) (e : Reason V) (ready : ℕ → PromiseState V) (hp : s.phase = .writable) :
      Move sentinel allow s
        { s.addWriteRequest v with phase := .erroring e, cleared := true, readyPromise := ready }
  | close (writer : Option ℕ) (q : QueueWithSizes V F) (hp : s.phase.ended = false)
      (hr : s.closeRequest = none) (hc : s.inFlightCloseRequest = none)
      (hq : q.queue = s.container.queue ++ [(sentinel, Binary64.zero)]) :
      Move sentinel allow s { s.addCloseRequest writer with container := q }
  | startErroring (e : Reason V) (cleared : Bool) (ready : ℕ → PromiseState V)
      (hp : s.phase = .writable) :
      Move sentinel allow s
        { s with phase := .erroring e, cleared := cleared, readyPromise := ready }
  | startAborting (reason : V) (e : Reason V) (ready : ℕ → PromiseState V)
      (hp : s.phase = .writable) :
      Move sentinel allow s
        { s.addAbortRequest (some reason) false with phase := .erroring e, readyPromise := ready }
  | lateAbort (e : Reason V) (hp : s.phase = .erroring e) :
      Move sentinel allow s (s.addAbortRequest none true)
  | finish (writer : Option ℕ) (e : Reason V) (settled : List (ℕ × PromiseState V))
      (hp : s.phase = .erroring e) (hq : Quiet s) (hw : allow.writer s.writer writer) :
      Move sentinel allow s
        ({ s.errorRequests e with settled := settled }.rejectCloseAndClosedPromise writer e)
  | finishAborting (e : Reason V) (r : PendingAbortRequest V) (hp : s.phase = .erroring e)
      (hq : Quiet s) (hr : s.pendingAbortRequest = some r) (ha : r.wasAlreadyErroring = false) :
      Move sentinel allow s ((s.errorRequests e).abortSteps r)
  | processWrite (v : V) (n : F) (rest : List (V × F)) (hp : s.phase = .writable) (hq : Quiet s)
      (hv : v ≠ sentinel) (hx : s.container.queue = (v, n) :: rest) :
      Move sentinel allow s (s.processWrite v)
  | processClose (writer : Option ℕ) (n : F) (rest : List (V × F)) (hp : s.phase = .writable)
      (hq : Quiet s) (hx : s.container.queue = (sentinel, n) :: rest) :
      Move sentinel allow s (s.processClose writer)
  | start (hs : s.startPromise = true) :
      Move sentinel allow s { s with startPromise := false, started := true }
  | landWrite (p : ℕ) (x : V × F) (q : QueueWithSizes V F) (hp : s.inFlightWriteRequest = some p)
      (hx : s.container.queue = x :: q.queue) :
      Move sentinel allow s { s.landWrite p .resolved .sinkDone with container := q }
  | failWrite (p : ℕ) (x e : Reason V) (ready : ℕ → PromiseState V)
      (hp : s.inFlightWriteRequest = some p)
      (he : s.phase = .writable ∨ s.phase = .erroring e) :
      Move sentinel allow s
        { s.landWrite p (.rejected x) .sinkFailed with
          phase := .erroring e
          cleared := s.cleared || s.phase.isWritable
          readyPromise := ready }
  | landClose (writer : Option ℕ) (p : ℕ) (settled : List (ℕ × PromiseState V))
      (pending : Option (PendingAbortRequest V)) (hp : s.inFlightCloseRequest = some p)
      (ha : pending ≠ none → pending = s.pendingAbortRequest ∧ ∀ e, s.phase ≠ .erroring e)
      (hw : allow.writer s.writer writer) :
      Move sentinel allow s
        { s.landClose p .resolved .sinkDone with
          phase := .closed
          settled := settled
          pendingAbortRequest := pending
          closedPromise := settleAt s.closedPromise writer .resolved }
  | failClose (p : ℕ) (x e : Reason V) (ready : ℕ → PromiseState V)
      (settled : List (ℕ × PromiseState V)) (hp : s.inFlightCloseRequest = some p)
      (he : s.phase = .writable ∨ s.phase = .erroring e) :
      Move sentinel allow s
        { s.landClose p (.rejected x) .sinkFailed with
          phase := .erroring e
          settled := settled
          pendingAbortRequest := none
          readyPromise := ready }
  | abortDone (p : ℕ) (o : PromiseState V) (e : Reason V) (hp : s.phase = .errored e) :
      Move sentinel allow s ((s.landAbort p o).rejectCloseAndClosedPromise s.writer e)

/-- A chain of moves. -/
def Moves (sentinel : V) (allow : Allow V) : State V F → State V F → Prop :=
  Relation.ReflTransGen (Move sentinel allow)

theorem Moves.invariant {sentinel : V} {allow : Allow V} {P : State V F → Prop}
    (hmove : ∀ s t, P s → Move sentinel allow s t → P t) {s t : State V F}
    (h : Moves sentinel allow s t) (hs : P s) : P t := by
  induction h with
  | refl => exact hs
  | tail _ hm ih => exact hmove _ _ ih hm

/-! ### Events are chains of moves -/

section Chains

variable {sentinel : V} {allow : Allow V} {s : State V F}

theorem Moves.single {t : State V F} (h : Move sentinel allow s t) : Moves sentinel allow s t :=
  Relation.ReflTransGen.single h

theorem Moves.head {t u : State V F} (h : Move sentinel allow s t) (h' : Moves sentinel allow t u) :
    Moves sentinel allow s u :=
  Relation.ReflTransGen.head h h'

theorem Moves.refl : Moves sentinel allow s s := Relation.ReflTransGen.refl

variable {writer : Option ℕ} {e : Reason V} {res : Except V Unit}

theorem moves_finishErroring (hp : s.phase = .erroring e) (hq : Quiet s)
    (hw : allow.writer s.writer writer) :
    Moves sentinel allow s (s.writableStreamFinishErroring writer e) := by
  fun_cases writableStreamFinishErroring s writer e
  · exact .single (.finish writer e _ hp hq hw)
  · exact .single (.finish writer e _ hp hq hw)
  · next r hr ha => exact .single (.finishAborting e r hp hq hr (by simpa using ha))

theorem moves_finishErroringIfIdle (hp : s.phase = .erroring e)
    (hw : Quiet s → allow.writer s.writer writer) :
    Moves sentinel allow s (s.finishErroringIfIdle writer e) := by
  unfold finishErroringIfIdle
  split_ifs with hi
  · have hq := quiet_of_idle hi
    exact moves_finishErroring hp hq (hw hq)
  · exact .refl

/-- A rejection starts the erroring, or finishes it. -/
theorem dealWithRejection_eq (hq : Quiet s) (he : s.phase.ended = false) (writer : Option ℕ)
    (error : Reason V) :
    ∃ e ready, (s.phase = .writable ∨ s.phase = .erroring e) ∧
      s.writableStreamDealWithRejection writer error =
        ({ s with phase := .erroring e, readyPromise := ready }).finishErroringIfIdle writer e := by
  unfold writableStreamDealWithRejection
  cases hp : s.phase with
  | writable => exact ⟨error, _, Or.inl rfl, rfl⟩
  | erroring e =>
    refine ⟨e, s.readyPromise, .inr rfl, ?_⟩
    have hs : ({ s with phase := .erroring e, readyPromise := s.readyPromise } : State V F) = s :=
      with_phase hp
    rw [hs]
    unfold finishErroringIfIdle
    rw [if_pos (idle_of_quiet hq)]
  | closed | errored =>
    rw [hp] at he
    cases he

/-- An abort that finds the stream writable calls the abort algorithm, whatever the writer. -/
theorem moves_finishAborting {r : PendingAbortRequest V} (hp : s.phase = .erroring e)
    (hr : s.pendingAbortRequest = some r) (ha : r.wasAlreadyErroring = false) :
    Moves sentinel allow s (s.finishErroringIfIdle writer e) := by
  unfold finishErroringIfIdle
  split_ifs with hi
  · unfold writableStreamFinishErroring
    rw [hr]
    dsimp only
    rw [if_neg (by rw [ha]; simp)]
    exact .single (.finishAborting e r hp (quiet_of_idle hi) hr ha)
  · exact .refl

theorem moves_controllerError (hp : s.phase = .writable)
    (hw : Quiet s → allow.writer s.writer writer) :
    Moves sentinel allow s (s.defaultControllerError writer e) := by
  refine .head (.startErroring e true (ensureAt s.readyPromise writer (.rejected e)) hp) ?_
  exact moves_finishErroringIfIdle rfl (fun hq => hw ⟨hq.1, hq.2, hq.3⟩)

theorem moves_errorIfNeeded (hw : s.phase = .writable → Quiet s → allow.writer s.writer writer) :
    Moves sentinel allow s (s.defaultControllerErrorIfNeeded writer e) := by
  unfold defaultControllerErrorIfNeeded
  cases hp : s.phase with
  | writable => exact moves_controllerError hp (hw hp)
  | _ => exact .refl

theorem updateBackpressure_eq (s : State V F) (writer : Option ℕ) : ∃ ready b,
    s.updateBackpressureIfWritable writer =
      { s with readyPromise := ready, backpressure := b } := by
  fun_cases updateBackpressureIfWritable s writer
  all_goals exact ⟨_, _, rfl⟩

theorem moves_streamAbort {reason : V} :
    Moves sentinel allow s (s.writableStreamAbort writer reason) := by
  fun_cases writableStreamAbort s writer reason
  case case4 e hp _ => exact .single (.lateAbort e hp)
  case case6 hp _ =>
    refine .head (.startAborting reason (.value reason)
      (ensureAt s.readyPromise writer (.rejected (.value reason))) hp) ?_
    exact moves_finishAborting rfl rfl rfl
  all_goals exact .refl

theorem moves_sinkCloseSettles (h : Flight s)
    (hclose : ∀ c, s.sinkClosePromise = some c → allow.writer s.writer c) :
    Moves sentinel allow s (s.sinkCloseSettles res) := by
  unfold State.sinkCloseSettles
  cases hs : s.sinkClosePromise with
  | none => exact .refl
  | some writer =>
    have hsome := h.close
    rw [hs] at hsome
    obtain ⟨p, hp⟩ := Option.isSome_iff_exists.mp hsome.symm
    obtain ⟨hw, he, hst⟩ := h.of_close hp
    cases res with
    | ok u =>
      unfold writableStreamFinishInFlightClose
      rw [hp]
      dsimp only
      obtain ⟨settled, pending, heq, ha⟩ :=
        resolveAbortRequest_eq (s.landClose p .resolved .sinkDone)
      rw [heq]
      exact .single (.landClose writer p settled pending hp ha (hclose writer hs))
    | error e =>
      unfold writableStreamFinishInFlightCloseWithError
      rw [hp]
      dsimp only
      obtain ⟨x, ready, hx, heq⟩ := dealWithRejection_eq
        (s := (s.landClose p (.rejected (.value e)) .sinkFailed).settleAbortRequest
          (.rejected (.value e))) ⟨hw, rfl, hst⟩ he writer (.value e)
      rw [heq]
      exact .head (.failClose p (.value e) x ready _ hp hx)
        (moves_finishErroringIfIdle rfl (fun _ => hclose writer hs))

theorem moves_sinkAbortSettles (h : Flight s) :
    Moves sentinel allow s (s.sinkAbortSettles res) := by
  unfold State.sinkAbortSettles
  cases hs : s.sinkAbortPromise with
  | none => exact .refl
  | some p =>
    obtain ⟨e, he⟩ := h.aborting (by rw [hs]; simp)
    rw [he]
    exact .single (.abortDone p (abortOutcome res) e he)

variable [DecidableEq V]

theorem moves_processFront (hp : s.phase = .writable) (hq : Quiet s) :
    Moves sentinel allow s (s.processFront sentinel writer) := by
  unfold State.processFront
  cases hx : s.container.queue with
  | nil => exact .refl
  | cons x rest =>
    obtain ⟨v, n⟩ := x
    dsimp only
    split_ifs with hv
    · subst hv
      exact .single (.processClose writer n rest hp hq hx)
    · exact .single (.processWrite v n rest hp hq hv hx)

section

variable (hc : s.inFlightCloseRequest = none) (he : s.phase.ended = false)
  (hw : allow.writer s.writer writer)

include hc he hw

theorem moves_advance : Moves sentinel allow s (s.advanceQueueIfNeeded sentinel writer) := by
  unfold State.advanceQueueIfNeeded
  split_ifs with hgo
  · exact .refl
  · simp only [Bool.or_eq_true, Bool.not_eq_true', Option.isSome_iff_ne_none, not_or,
      Bool.not_eq_false, ne_eq, not_not] at hgo
    have hq : Quiet s := ⟨hgo.2, hc, hgo.1⟩
    cases hp : s.phase with
    | erroring e => exact moves_finishErroring hp hq hw
    | writable => exact moves_processFront hp hq
    | closed | errored =>
      rw [hp] at he
      cases he

theorem moves_updateAdvance : Moves sentinel allow s
      ((s.updateBackpressureIfWritable writer).advanceQueueIfNeeded sentinel writer) := by
  obtain ⟨ready, b, heq⟩ := updateBackpressure_eq s writer
  rw [heq]
  exact .head (.frame ready b s.signalling s.sizing (List.Subset.refl _)) (moves_advance hc he hw)

end

section

variable (h : Flight s) (hrefl : ∀ c, allow.writer c c)

include hrefl

theorem moves_writeChunk {w : ℕ} {v : V} {size : Option F}
    (hv : allow.chunk v) : Moves sentinel allow s (s.writeChunk sentinel w v size) := by
  fun_cases State.writeChunk sentinel s w v size
  case case2 hw hp hcq =>
    have hwriter : allow.writer s.writer (some w) := hw ▸ hrefl _
    obtain ⟨hr, hc⟩ := not_closeQueuedOrInFlight hcq
    unfold defaultControllerWrite
    have hcont : (s.addWriteRequest v).container = s.container := rfl
    rw [hcont]
    cases hq : s.container.enqueueValueWithSize (V := V) v size with
    | error e =>
      unfold defaultControllerErrorIfNeeded
      have hp' : (s.addWriteRequest v).phase = .writable := hp
      rw [hp']
      refine .head (.refuse v e (ensureAt s.readyPromise (some w) (.rejected e)) hp) ?_
      exact moves_finishErroringIfIdle rfl (fun _ => hwriter)
    | ok q =>
      obtain ⟨n, hn⟩ := QueueWithSizes.enqueueValueWithSize_queue hq
      refine .head (.accept v n q hv hp hr hc hn) (moves_updateAdvance hc ?_ hwriter)
      show s.phase.ended = false
      rw [hp]
      rfl
  all_goals exact .refl

theorem moves_sizeReturns {res : SizeResult V F} (hsizing : ∀ x ∈ s.sizing, allow.chunk x.1)
    (hsize : ∀ e v w rest, res = .threw e → s.sizing = (v, w) :: rest → s.phase = .writable →
      Quiet s → allow.writer s.writer (some w)) :
    Moves sentinel allow s (s.sizeReturns sentinel res) := by
  unfold State.sizeReturns
  cases hs : s.sizing with
  | nil => exact .refl
  | cons x rest =>
    obtain ⟨v, w⟩ := x
    have hv : allow.chunk v := hsizing (v, w) (by rw [hs]; exact .head _)
    refine .head (.frame s.readyPromise s.backpressure s.signalling rest
      (by rw [hs]; exact List.subset_cons_self _ _)) ?_
    cases res with
    | returned size => exact moves_writeChunk hrefl hv
    | threw e =>
      have herr : Moves sentinel allow { s with sizing := rest }
          ({ s with sizing := rest }.defaultControllerErrorIfNeeded (some w) (.value e)) :=
        moves_errorIfNeeded (fun hp hq => hsize e v w rest rfl hs hp ⟨hq.1, hq.2, hq.3⟩)
      exact herr.trans (moves_writeChunk hrefl hv)

theorem moves_close : Moves sentinel allow s (s.close sentinel writer) := by
  unfold State.close
  split_ifs with hw hcq
  · exact .refl
  · obtain ⟨hr, hc⟩ := not_closeQueuedOrInFlight hcq
    have hclose : s.phase.ended = false →
        Moves sentinel allow s
          ((s.addCloseRequest writer).defaultControllerClose sentinel writer) := by
      intro he
      unfold defaultControllerClose
      rw [QueueWithSizes.enqueueValueWithSize_zero]
      exact .head (.close writer _ he hr hc rfl) (moves_advance hc he (hw ▸ hrefl _))
    unfold writableStreamClose
    cases hp : s.phase with
    | closed | errored => exact .refl
    | writable | erroring => exact hclose (by rw [hp]; rfl)
  · exact .refl

include h

theorem moves_startSettles : Moves sentinel allow s (s.startSettles sentinel res) := by
  unfold State.startSettles
  split_ifs with hs
  · obtain ⟨hst, he⟩ := h.not_started hs
    obtain ⟨hw, hc⟩ := h.started hst
    refine .head (.start hs) ?_
    cases res with
    | ok u => exact moves_advance hc he (hrefl _)
    | error e =>
      dsimp only
      obtain ⟨x, ready, hx, heq⟩ := dealWithRejection_eq
        (s := { s with startPromise := false, started := true }) ⟨hw, hc, rfl⟩ he
          s.writer (.value e)
      rw [heq]
      refine .head ?_ (moves_finishErroringIfIdle rfl (fun _ => hrefl _))
      rcases hx with hx | hx
      · exact .startErroring x s.cleared ready hx
      · rw [← hx]
        exact .frame ready s.backpressure s.signalling s.sizing (List.Subset.refl _)
  · exact .refl

theorem moves_sinkWriteSettles : Moves sentinel allow s (s.sinkWriteSettles sentinel res) := by
  unfold State.sinkWriteSettles
  split_ifs with hs
  · have hsome := h.write
    rw [hs] at hsome
    obtain ⟨p, hp⟩ := Option.isSome_iff_exists.mp hsome.symm
    obtain ⟨hc, he, hst, hne⟩ := h.of_write hp
    cases res with
    | ok u =>
      obtain ⟨x, xs, hx⟩ := List.exists_cons_of_ne_nil hne
      unfold finishInFlightWrite QueueWithSizes.dequeueValue
      rw [hp, hx]
      exact .head (.landWrite p x _ hp hx) (moves_updateAdvance hc he (hrefl _))
    | error e =>
      unfold finishInFlightWriteWithError
      rw [hp]
      dsimp only
      obtain ⟨x, ready, hx, heq⟩ := dealWithRejection_eq
        (s := s.clearIfWritable.landWrite p (.rejected (.value e)) .sinkFailed) ⟨rfl, hc, hst⟩ he
        s.writer (.value e)
      rw [heq]
      exact .head (.failWrite p (.value e) x ready hp hx)
        (moves_finishErroringIfIdle rfl (fun _ => hrefl _))
  · exact .refl

end

/-- What an event has to be for its moves to be allowed. -/
structure Allow.Fits (allow : Allow V) (s : State V F) (e : Event V F) : Prop where
  refl : ∀ c, allow.writer c c
  chunk : ∀ w v, e = .write w v → allow.chunk v
  sizing : ∀ x ∈ s.sizing, allow.chunk x.1
  close : ∀ res c, e = .sinkCloseSettles res → s.sinkClosePromise = some c → allow.writer s.writer c
  size : ∀ x v w rest, e = .sizeReturns (.threw x) → s.sizing = (v, w) :: rest →
    s.phase = .writable → Quiet s → allow.writer s.writer (some w)

/-- **Events**: every event is a chain of moves. -/
theorem moves_act {e : Event V F} (h : Flight s) (hf : allow.Fits s e) :
    Moves sentinel allow s (act sentinel s e) := by
  cases e with
  | getWriter =>
    cases hw : s.writer with
    | none => exact .single (.getWriter hw)
    | some w =>
      show Moves sentinel allow s s.getWriter
      unfold State.getWriter
      rw [hw]
      exact .refl
  | releaseLock w => exact .single (.releaseLock w)
  | write w v =>
    show Moves sentinel allow s (s.write w v)
    unfold State.write
    split_ifs
    · exact .single (.push v w (hf.chunk w v rfl))
    · exact .refl
  | sizeReturns res =>
    exact moves_sizeReturns hf.refl hf.sizing
      (fun x v w rest hres => hf.size x v w rest (congrArg Event.sizeReturns hres))
  | close writer => exact moves_close hf.refl
  | abort writer reason =>
    show Moves sentinel allow s (s.abort writer reason)
    fun_cases State.abort s writer reason
    case case3 => exact .single (.frame _ _ _ _ (List.Subset.refl _))
    all_goals exact .refl
  | signalled threw =>
    show Moves sentinel allow s (s.signalled threw)
    fun_cases State.signalled s threw
    · exact .refl
    · exact .single (.frame _ _ _ _ (List.Subset.refl _))
    · exact .head (.frame _ _ _ _ (List.Subset.refl _)) moves_streamAbort
  | error e =>
    show Moves sentinel allow s (s.error e)
    unfold State.error
    split
    · exact moves_controllerError ‹_› (fun _ => hf.refl _)
    · exact .refl
  | startSettles res => exact moves_startSettles h hf.refl
  | sinkWriteSettles res => exact moves_sinkWriteSettles h hf.refl
  | sinkCloseSettles res => exact moves_sinkCloseSettles h (fun c => hf.close res c rfl)
  | sinkAbortSettles res => exact moves_sinkAbortSettles h

end Chains

end RasterRuntime.WritableStream
