import RasterRuntime.ReadableStream.Reads

/-! # Reads of one reader, in order

What the calls into a readable stream do while one reader reads from it and nothing fails: the
promises of the reads are settled in the order of the calls (`Lane.order`), a promise is pending
only while the queue is empty, and a stream that has ended is closed with nothing pending and
nothing queued.

There is one lemma for each call, which says that the lane stays in order and what was settled and
queued (`Gives`). Callbacks change flags of the controller only (`Quietly`). -/

namespace RasterRuntime.ReadableStream

open Streams
open Prod (fst snd)
open List (append_nil range)

variable {V F : Type}

/-- The promises of reads that are to be settled, in the order of the calls. -/
def pending (s : State V F) : List ℕ := s.stream.nativeReads ++ s.stream.requestsOf s.stream.reader

/-- What the promises of reads were settled with, in order. -/
def outcomes (s : State V F) : List (Outcome V) := s.stream.settled.map snd

/-- The chunks that wait in the queue. -/
def queued (s : State V F) : List V := s.controller.container.queue.map fst

/-- **The lane of a reader**: reads are settled in the order of the calls. -/
structure Lane (s : State V F) : Prop where
  others : ∀ r, s.stream.reader ≠ some r → s.stream.requests r = []
  sizing : s.controller.sizing = []
  flags : s.controller.pulling = s.controller.pullPromise
  order : s.stream.settled.map fst ++ pending s = range s.stream.nextPromise
  waiting : queued s ≠ [] → pending s = []
  closed : s.stream.phase ≠ .readable → s.stream.phase = .closed ∧ pending s = [] ∧ queued s = []

/-! ### Flags of the controller -/

/-- The same but for flags of the controller. -/
structure Quietly (s t : State V F) : Prop where
  stream : t.stream = s.stream
  container : t.controller.container = s.controller.container
  sizing : t.controller.sizing = s.controller.sizing
  closeRequested : t.controller.closeRequested = s.controller.closeRequested
  flags : t.controller.pulling = t.controller.pullPromise

namespace Quietly

variable {s t : State V F}

theorem pending_eq (h : Quietly s t) : pending t = pending s := by simp [pending, h.stream]

theorem outcomes_eq (h : Quietly s t) : outcomes t = outcomes s := by simp [outcomes, h.stream]

theorem queued_eq (h : Quietly s t) : queued t = queued s := by simp [queued, h.container]

theorem lane (h : Quietly s t) (hl : Lane s) : Lane t := by
  have hq := h.queued_eq
  obtain ⟨stream, controller⟩ := t
  obtain rfl : stream = s.stream := h.stream
  exact { hl with
    sizing := h.sizing.trans hl.sizing
    flags := h.flags
    waiting := hq ▸ hl.waiting
    closed := hq ▸ hl.closed }

end Quietly

/-! ### Promises -/

variable {s : State V F}

theorem outcomes_answer (s : State V F) (r : ℕ) (o : Outcome V) :
    outcomes { s with stream := s.stream.answer r o } = outcomes s ++ [o] := by
  simp [outcomes, Stream.answer, Stream.settle, Stream.issue]

theorem outcomes_close (s : State V F) (c : Option ℕ) :
    (s.stream.readableStreamClose c).settled.map snd =
      outcomes s ++ List.replicate (s.stream.requestsOf c).length .done := by
  simp [Stream.readableStreamClose, outcomes, shut_eq, Stream.settle, Function.comp_def,
    List.map_const']

theorem pending_eq_nil (hn : s.stream.nativeReads = [])
    (hreq : ∀ r, s.stream.reader = some r → s.stream.requests r = []) : pending s = [] := by
  unfold pending Stream.requestsOf
  rw [hn]
  cases hr : s.stream.reader with
  | none => rfl
  | some r => exact hreq r hr

namespace Lane

theorem answer (h : Lane s) (hp : pending s = []) (r : ℕ) (o : Outcome V) :
    Lane { s with stream := s.stream.answer r o } :=
  { h with
    order := by
      have horder := h.order
      rw [hp, append_nil] at horder
      show (s.stream.answer r o).settled.map fst ++ pending s = range (s.stream.nextPromise + 1)
      rw [hp, append_nil, List.range_succ, ← horder]
      exact settled_settle (s.stream.issue r) _ o }

variable {t : State V F} (h : Lane s)

include h

theorem order_wait {l : List ℕ} (hl : l = pending s ++ [s.stream.nextPromise]) :
    s.stream.settled.map fst ++ l = range (s.stream.nextPromise + 1) := by
  rw [hl, ← List.append_assoc, h.order, List.range_succ]

theorem addReadRequest {r : ℕ} (hr : s.stream.reader = some r) (hq : queued s = [])
    (hp : s.stream.phase = .readable) :
    Lane { s with stream := s.stream.readableStreamAddReadRequest r } := by
  refine { h with
    others := fun q hq => ?_
    order := h.order_wait ?_
    waiting := fun hne => absurd hq hne
    closed := fun hne => absurd hp hne }
  · have hne : q ≠ r := fun he => hq (he ▸ hr)
    exact (Function.update_of_ne hne _ _).trans (h.others q hq)
  · simp [pending, hr, Stream.readableStreamAddReadRequest, Stream.setRequests, Stream.requestsOf,
      Stream.issue]

theorem addNativeRead {r : ℕ} (hpend : pending s = []) (hq : queued s = [])
    (hp : s.stream.phase = .readable) :
    Lane { s with stream := { s.stream.issue r with
      nativeReads := s.stream.nativeReads ++ [s.stream.nextPromise] } } := by
  refine { h with
    order := h.order_wait ?_
    waiting := fun hne => absurd hq hne
    closed := fun hne => absurd hp hne }
  obtain ⟨hnil, hreq⟩ := List.append_eq_nil_iff.mp hpend
  show (s.stream.nativeReads ++ [s.stream.nextPromise]) ++ s.stream.requestsOf s.stream.reader = _
  rw [hpend, hnil, hreq]
  rfl

theorem order_settle {l k : List ℕ} (hl : pending s = l ++ k) (o : Outcome V) :
    (s.stream.settle l o).settled.map fst ++ k = range s.stream.nextPromise := by
  rw [settled_settle, List.append_assoc, ← hl, h.order]

theorem pending_getReader : pending { s with stream := s.stream.getReader } = pending s := by
  unfold Stream.getReader
  split
  · rfl
  · next hr => simp [pending, hr, Stream.requestsOf, h.others]

theorem getReader : Lane { s with stream := s.stream.getReader } := by
  have hpend := h.pending_getReader
  unfold Stream.getReader at *
  split at hpend
  · exact h
  · next hr =>
    refine { h with
      others := fun r _ => h.others r (by simp [hr])
      order := ?_
      waiting := ?_
      closed := ?_ }
    · rw [hpend]
      exact h.order
    · rw [hpend]
      exact h.waiting
    · rw [hpend]
      exact h.closed

theorem dequeue {q : QueueWithSizes V F} {v : V} (hq : queued s = v :: q.queue.map fst) :
    Lane { s with controller := { s.controller with container := q } } :=
  { h with
    waiting := fun _ => h.waiting (by rw [hq]; simp)
    closed := fun hne => absurd (h.closed hne).2.2 (by rw [hq]; simp) }

theorem close {c n : Bool} (hn : s.stream.nativeReads = []) (hq : queued s = []) :
    Lane ⟨s.stream.readableStreamClose s.stream.reader,
      { s.controller with closeRequested := c, nativePull := n }⟩ := by
  unfold Stream.readableStreamClose
  rw [shut_eq]
  refine { h with
    others := fun r hr => (if_neg hr).trans (h.others r hr)
    order := Eq.trans (congrArg (_ ++ ·) (pending_eq_nil ?_ ?_)) (h.order_settle (k := []) ?_ .done)
    waiting := fun hne => absurd hq hne
    closed := fun _ => ⟨rfl, pending_eq_nil hn fun r hr => if_pos hr, hq⟩ }
  · exact hn
  · exact fun r hr => if_pos hr
  · simp [pending, hn]

/-- The promises are settled in the order of the calls. -/
theorem settled_order : s.stream.settled.map fst = range s.stream.settled.length := by
  have htake := congrArg (List.take s.stream.settled.length) h.order
  have hlen := congrArg List.length h.order
  rw [List.length_append, List.length_map, List.length_range] at hlen
  rw [List.take_left' (List.length_map ..), List.take_range, Nat.min_eq_left (by omega)] at htake
  exact htake

theorem queue_nil (hp : pending s ≠ []) : queued s = [] := by
  by_contra hq
  exact hp (h.waiting hq)

theorem readable (hp : pending s ≠ []) : s.stream.phase = .readable := by
  by_contra hne
  exact hp (h.closed hne).2.1

end Lane

/-! ### What calls do -/

/-- What a call into the stream does: it settles reads with these outcomes, and leaves these chunks
in the queue and these native reads pending. -/
structure Gives (s t : State V F) (os : List (Outcome V)) (q : List V) (l : List ℕ) : Prop where
  lane : Lane t
  outcomes : outcomes t = outcomes s ++ os
  queued : queued t = q
  nativeReads : t.stream.nativeReads = l
  pullPromise : s.controller.pullPromise = true → t.controller.pullPromise = true

/-- The stream has ended, or will when the queue is empty. -/
def Ending (s : State V F) : Prop := s.controller.closeRequested = true ∨ s.stream.phase ≠ .readable

variable {t : State V F} {q : List V} {r : ℕ}

theorem Quietly.ending_iff (h : Quietly s t) : Ending t ↔ Ending s := by
  unfold Ending
  rw [h.closeRequested, h.stream]

theorem Gives.answer {l : List ℕ} (h : Gives s t [] q l) (hp : pending t = []) (r : ℕ)
    (o : Outcome V) :
    Gives s { t with stream := t.stream.answer r o } [o] q l := by
  refine ⟨h.lane.answer hp r o, ?_, h.queued, h.nativeReads, h.pullPromise⟩
  rw [outcomes_answer, h.outcomes, append_nil]

theorem Gives.drain (h : Gives s t [] q s.stream.nativeReads) (hr : t.stream.reader = some r)
    (hp : pending t = []) (hq : q = []) :
    Gives s { t.clearAlgorithms with stream := t.stream.readableStreamClose (some r) } [] q
        s.stream.nativeReads ∧
      pending { t.clearAlgorithms with stream := t.stream.readableStreamClose (some r) } = [] := by
  obtain ⟨hn, hreq⟩ := List.append_eq_nil_iff.mp hp
  have hl := h.lane.close (c := t.controller.closeRequested) (n := false) hn (h.queued.trans hq)
  rw [hr] at hl
  have hout := outcomes_close t (some r)
  rw [show t.stream.requestsOf (some r) = [] from hr ▸ hreq, h.outcomes] at hout
  refine ⟨⟨hl, hout.trans (by simp), h.queued, ?_, h.pullPromise⟩, (hl.closed ?_).2.1⟩
  · simpa [Stream.readableStreamClose, shut_eq] using h.nativeReads
  · simp [Stream.readableStreamClose, shut_eq]

theorem canCloseOrEnqueue_of_not_ending (he : ¬ Ending s) : s.canCloseOrEnqueue := by
  unfold Ending at he
  push Not at he
  unfold State.canCloseOrEnqueue
  simp [he.2, he.1]

theorem gives_fulfil {p : ℕ} {ps : List ℕ} (h : Lane s) (hn : s.stream.nativeReads = [])
    (hr : s.stream.reader = some r) (hreq : s.stream.requests r = p :: ps)
    (he : ¬ Ending s) (v : V) :
    Gives s { s with stream := s.stream.readableStreamFulfillReadRequest r v }
      [.chunk v] [] [] := by
  have hf : s.stream.readableStreamFulfillReadRequest r v =
      (s.stream.setRequests r ps).settle [p] (.chunk v) := by
    simp [Stream.readableStreamFulfillReadRequest, hreq]
  rw [hf]
  have hpend : pending s = [p] ++ ps := by simp [pending, hn, hr, Stream.requestsOf, hreq]
  have hpend' : pending ({ s with stream := (s.stream.setRequests r ps).settle [p] (.chunk v) } :
      State V F) = ps := by
    simp [pending, Stream.settle, Stream.setRequests, Stream.requestsOf, hn, hr]
  have hq := h.queue_nil (by simp [hpend])
  refine ⟨{ h with
    others := fun q hqr => ?_
    order := (congrArg (_ ++ ·) hpend').trans (h.order_settle hpend _)
    waiting := fun hne => absurd hq hne
    closed := fun hne => absurd (.inr hne) he }, ?_, hq, hn, id⟩
  · have hne : q ≠ r := fun heq => hqr (heq ▸ hr)
    exact (Function.update_of_ne hne _ _).trans (h.others q hqr)
  · simp [outcomes, Stream.settle, Stream.setRequests]

/-- What a read gets for a chunk, or for the end. -/
def Outcome.ofChunk : Option V → Outcome V
  | some v => .chunk v
  | none => .done

theorem nativeSettles_controller (s : State V F) (p : ℕ) (res : Except V (Option V)) :
    (s.nativeSettles p res).controller = s.controller := by
  unfold State.nativeSettles
  split_ifs <;> rfl

theorem gives_nativeSettles {p : ℕ} (h : Lane s) (hn : s.stream.nativeReads = [p])
    (c : Option V) :
    Gives s (s.nativeSettles p (.ok c)) [.ofChunk c] [] [] ∧
      (Ending (s.nativeSettles p (.ok c)) → Ending s) := by
  have hpend : pending s = [p] ++ s.stream.requestsOf s.stream.reader := by simp [pending, hn]
  have hne : pending s ≠ [] := by simp [hpend]
  have herase : s.stream.nativeReads.erase p = [] := by simp [hn]
  unfold State.nativeSettles
  rw [if_pos (by simp [hn])]
  refine ⟨⟨{ h with
    order := ?_
    waiting := fun hq => absurd (h.queue_nil hne) hq
    closed := fun hne' => absurd (h.readable hne) hne' }, ?_, h.queue_nil hne, herase, id⟩, id⟩
  · show _ ++ (s.stream.nativeReads.erase p ++ _) = _
    rw [herase]
    exact h.order_settle hpend _
  · cases c with
    | none | some => simp [outcomes, Stream.settle, Outcome.ofChunk]

theorem gives_close (h : Lane s) (hn : s.stream.nativeReads = []) (he : ¬ Ending s) :
    ∃ m, Gives s (s.defaultControllerClose s.stream.reader) (List.replicate m .done) (queued s) [] ∧
      (m ≠ 0 → queued s = []) := by
  unfold State.defaultControllerClose
  rw [if_pos (canCloseOrEnqueue_of_not_ending he)]
  dsimp only
  split_ifs with hq
  · have hq' : queued s = [] := by simp [queued, List.isEmpty_iff.mp hq]
    refine ⟨(s.stream.requestsOf s.stream.reader).length, ⟨h.close hn hq', outcomes_close s _, rfl,
      ?_, id⟩, fun _ => hq'⟩
    simpa [Stream.readableStreamClose, shut_eq] using hn
  · exact ⟨0, ⟨{ h with }, (append_nil _).symm, rfl, hn, id⟩, fun hne => absurd rfl hne⟩

/-! ### Calls -/

variable [Binary64 F]

theorem callPull_pullPromise (hp : s.controller.pullPromise) (c : Option ℕ) :
    (s.callPullIfNeeded c).controller.pullPromise := by
  unfold State.callPullIfNeeded
  split_ifs
  · exact hp
  · rfl
  · exact hp

theorem startSettles_pullPromise (hp : s.controller.pullPromise) :
    (s.startSettles (.ok ())).controller.pullPromise := by
  unfold State.startSettles
  split_ifs
  · exact callPull_pullPromise (s := { s with controller :=
      { s.controller with startPromise := false, started := true } }) hp s.stream.reader
  · exact hp

section

variable (hf : s.controller.pulling = s.controller.pullPromise)

include hf

theorem quietly_callPull (c : Option ℕ) : Quietly s (s.callPullIfNeeded c) := by
  unfold State.callPullIfNeeded
  split_ifs
  · exact ⟨rfl, rfl, rfl, rfl, hf⟩
  · exact ⟨rfl, rfl, rfl, rfl, rfl⟩
  · exact ⟨rfl, rfl, rfl, rfl, hf⟩

theorem quietly_startSettles : Quietly s (s.startSettles (.ok ())) := by
  unfold State.startSettles
  split_ifs
  · exact { quietly_callPull (s := { s with controller :=
      { s.controller with startPromise := false, started := true } }) hf s.stream.reader with }
  · exact ⟨rfl, rfl, rfl, rfl, hf⟩

theorem quietly_pullSettles : Quietly s (s.pullSettles (.ok ())) := by
  unfold State.pullSettles
  split_ifs
  · dsimp only
    split_ifs
    · exact { quietly_callPull (s := { s with controller :=
        { s.controller with pullPromise := false, pulling := false, pullAgain := false } }) rfl
        s.stream.reader with }
    · exact ⟨rfl, rfl, rfl, rfl, rfl⟩
  · exact ⟨rfl, rfl, rfl, rfl, hf⟩

theorem ending_callPull {c : Option ℕ} : Ending (s.callPullIfNeeded c) ↔ Ending s :=
  (quietly_callPull hf c).ending_iff

end

theorem Gives.callPull {os : List (Outcome V)} {l : List ℕ} (h : Gives s t os q l) (c : Option ℕ) :
    Gives s (t.callPullIfNeeded c) os q l := by
  have hq := quietly_callPull h.lane.flags c
  exact ⟨hq.lane h.lane, hq.outcomes_eq.trans h.outcomes, hq.queued_eq.trans h.queued,
    hq.stream ▸ h.nativeReads, fun hp => callPull_pullPromise (h.pullPromise hp) c⟩

theorem gives_pullSteps (h : Lane s) (hr : s.stream.reader = some r)
    (hp : s.stream.phase = .readable) :
    ∃ os q, Gives s (s.pullSteps r) os q s.stream.nativeReads ∧
      (Ending (s.pullSteps r) → Ending s) ∧
      ((∃ v, queued s = v :: q ∧ os = [.chunk v]) ∨ (os = [] ∧ q = queued s)) := by
  unfold State.pullSteps QueueWithSizes.dequeueValue
  cases hq : s.controller.container.queue with
  | nil =>
    have hl := h.addReadRequest hr (by simp [queued, hq]) hp
    have hg : Gives s { s with stream := s.stream.readableStreamAddReadRequest r } []
        (queued s) s.stream.nativeReads := ⟨hl, (append_nil _).symm, rfl, rfl, id⟩
    exact ⟨[], queued s, hg.callPull _, fun he => (ending_callPull hl.flags).mp he,
      .inr ⟨rfl, rfl⟩⟩
  | cons x rest =>
    obtain ⟨v, n⟩ := x
    dsimp only
    generalize QueueWithSizes.totalWithout s.controller.container.queueTotalSize n = total
    have hqueue : queued s = v :: rest.map fst := by simp [queued, hq]
    have hpend : pending s = [] := h.waiting (by simp [hqueue])
    have hl := h.dequeue (q := ⟨rest, total⟩) hqueue
    have hg : Gives s { s with controller := { s.controller with container := ⟨rest, total⟩ } } []
        (rest.map fst) s.stream.nativeReads := ⟨hl, (append_nil _).symm, rfl, rfl, id⟩
    refine ⟨[.chunk v], rest.map fst, ?_, ?_, Or.inl ⟨v, hqueue, rfl⟩⟩
    · split_ifs with hclose
      · simp only [Bool.and_eq_true, List.isEmpty_iff] at hclose
        -- the chunk was the last one of a stream that is to be closed
        obtain ⟨hg', hpend'⟩ := hg.drain hr hpend (by simp [hclose.2])
        exact hg'.answer hpend' r _
      · have hpend' := (quietly_callPull hl.flags (some r)).pending_eq
        exact (hg.callPull (some r)).answer (hpend'.trans hpend) r _
    · split_ifs with hclose
      · simp only [Bool.and_eq_true] at hclose
        exact fun _ => Or.inl hclose.1
      · exact fun he => (ending_callPull (c := some r) hl.flags).mp he

theorem gives_readDefault (h : Lane s) (hr : s.stream.reader = some r) :
    ∃ os q, Gives s (s.readDefault r) os q s.stream.nativeReads ∧
      (Ending (s.readDefault r) → Ending s) ∧
      ((os = [.done] ∧ q = queued s ∧ s.stream.phase ≠ .readable) ∨
        (∃ v, queued s = v :: q ∧ os = [.chunk v]) ∨ (os = [] ∧ q = queued s)) := by
  unfold State.readDefault
  cases hp : s.stream.phase with
  | errored e => simpa [hp] using (h.closed (by simp [hp])).1
  | closed =>
    have hpend := (h.closed (by simp [hp])).2.1
    exact ⟨[.done], queued s, ⟨h.answer hpend r .done, outcomes_answer s r .done, rfl, rfl, id⟩,
      fun he => he, .inl ⟨rfl, rfl, by simp⟩⟩
  | readable =>
    obtain ⟨os, q, hg, he, hcase⟩ := gives_pullSteps h hr hp
    exact ⟨os, q, hg, he, .inr hcase⟩

theorem gives_queue [UnitSize F] (h : Lane s) (hn : s.stream.nativeReads = [])
    (hp : pending s = []) (he : ¬ Ending s) (v : V) (c : Option ℕ) :
    Gives s (({ s with controller := { s.controller with
        sizing := (v, c) :: s.controller.sizing } } : State V F).sizeReturns
          (.returned (some Binary64.one))) [] (queued s ++ [v]) [] ∧
      ¬ Ending (({ s with controller := { s.controller with
        sizing := (v, c) :: s.controller.sizing } } : State V F).sizeReturns
          (.returned (some Binary64.one))) := by
  unfold State.sizeReturns State.SizeResult.queued
  dsimp only
  rw [QueueWithSizes.enqueueValueWithSize_one]
  generalize hq : (⟨s.controller.container.queue ++ [(v, Binary64.one)],
    Binary64.add s.controller.container.queueTotalSize Binary64.one⟩ : QueueWithSizes V F) = q
  have hqueue : q.queue.map fst = queued s ++ [v] := by
    rw [← hq]
    exact List.map_append
  have hl : Lane { s with controller := { s.controller with container := q } } :=
    { h with
      waiting := fun _ => hp
      closed := fun hne => absurd (.inr hne) he }
  have hg : Gives s { s with controller := { s.controller with container := q } } []
      (queued s ++ [v]) [] := ⟨hl, (append_nil _).symm, hqueue, hn, id⟩
  exact ⟨hg.callPull c, fun hend => he ((ending_callPull hl.flags).mp hend)⟩

/-- A chunk of size one is enqueued: it goes to the first read that waits, or to the queue. -/
theorem gives_enqueue [UnitSize F] (h : Lane s) (hn : s.stream.nativeReads = []) (he : ¬ Ending s)
    (v : V) :
    ∃ os q, Gives s
      ((s.defaultControllerEnqueue v).sizeReturns (.returned (some Binary64.one))) os q
        [] ∧
      ¬ Ending ((s.defaultControllerEnqueue v).sizeReturns (.returned (some Binary64.one))) ∧
      ((os = [.chunk v] ∧ q = [] ∧ queued s = []) ∨ (os = [] ∧ q = queued s ++ [v])) := by
  unfold State.defaultControllerEnqueue
  rw [if_pos (canCloseOrEnqueue_of_not_ending he)]
  have hpending : pending s = s.stream.requestsOf s.stream.reader := by simp [pending, hn]
  cases hr : s.stream.reader with
  | none =>
    obtain ⟨hg, hend⟩ := gives_queue h hn (by rw [hpending, hr]; rfl) he v none
    exact ⟨[], _, hg, hend, Or.inr ⟨rfl, rfl⟩⟩
  | some r =>
    rw [hr] at hpending
    dsimp only
    cases hreq : s.stream.requests r with
    | nil =>
      obtain ⟨hg, hend⟩ := gives_queue h hn (hpending.trans hreq) he v (some r)
      rw [if_pos rfl]
      exact ⟨[], _, hg, hend, Or.inr ⟨rfl, rfl⟩⟩
    | cons p ps =>
      rw [if_neg (List.cons_ne_nil p ps)]
      have hg := gives_fulfil h hn hr hreq he v
      have hg' := hg.callPull (some r)
      -- nothing waits for its size
      have hsize : ∀ t : State V F, Lane t →
          t.sizeReturns (.returned (some Binary64.one)) = t := by
        intro t ht
        simp [State.sizeReturns, ht.sizing]
      rw [hsize _ hg'.lane]
      refine ⟨[.chunk v], [], hg', fun hend => he ?_, Or.inl ⟨rfl, rfl, h.queue_nil ?_⟩⟩
      · have hend' := (ending_callPull (c := some r) hg.lane.flags).mp hend
        unfold Ending at hend' ⊢
        unfold Stream.readableStreamFulfillReadRequest at hend'
        rw [hreq] at hend'
        exact hend'
      · rw [hpending]
        show s.stream.requests r ≠ []
        simp [hreq]

end RasterRuntime.ReadableStream
