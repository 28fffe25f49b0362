import RasterRuntime.WritableStream.Flight

/-! # The closed promise of a writer

When a stream is closed or errored the closed promise of the writer that is attached to it is
settled, unless the abort algorithm is still running. The functions that end a stream settle the
promise of the writer that they are given, so it matters which one that is.

* `Watched.move`: every move keeps the promise as it should be, if the ones that end the stream are
  given the writer that is attached.
* `closed_settled_iff`: the promise is settled in exactly the runs in which they are. There are two
  ways for them not to be: the sink comes to the end of its close after the writer was replaced,
  since the callback keeps the writer of the time when the close began; and a `size` function throws
  after it has replaced the writer of its `write`. -/

namespace RasterRuntime.WritableStream

open Streams Transition State

variable {V F : Type}

/-- The closed promise of the writer that is attached is resolved when the stream is closed, and
rejected with the stored error when it is errored and no abort algorithm is running. -/
def ClosedSettled (s : State V F) : Prop :=
  ∀ w, s.writer = some w →
    (s.phase = .closed → s.closedPromise w = .resolved) ∧
      ∀ e, s.phase = .errored e → s.sinkAbortPromise = none → s.closedPromise w = .rejected e

/-- The closed promise of the writer follows the state of the stream. -/
structure Watched (s : State V F) : Prop where
  waiting : ∀ w, s.writer = some w → s.phase.ended = false → s.closedPromise w = .pending
  closed : ∀ w, s.writer = some w → s.phase = .closed → s.closedPromise w = .resolved
  errored : ∀ w e, s.writer = some w → s.phase = .errored e →
    s.closedPromise w = .rejected e ∨ s.sinkAbortPromise ≠ none ∧ s.closedPromise w = .pending

variable {s : State V F} {w : ℕ} {writer : Option ℕ}

theorem Watched.closedSettled (h : Watched s) : ClosedSettled s := by
  intro w hw
  refine ⟨h.closed w hw, ?_⟩
  intro e he ha
  rcases h.errored w e hw he with hr | ⟨hne, -⟩
  · exact hr
  · exact absurd ha hne

/-- No writer is attached, or it is the given one. -/
def attached (current given : Option ℕ) : Prop := current = none ∨ current = given

/-! ### Settling -/

theorem settleAt_self (f : ℕ → PromiseState V) (w : ℕ) (o : PromiseState V) :
    settleAt f (some w) o w = (f w).settle o := Function.update_self ..

theorem settleAt_of_ne (f : ℕ → PromiseState V) (o : PromiseState V) (h : writer ≠ some w) :
    settleAt f writer o w = f w := by
  cases writer with
  | none => rfl
  | some w' =>
    have hne : w ≠ w' := fun he => h (by rw [he])
    exact Function.update_of_ne hne _ _

/-- The promise of the writer that is attached is settled if it is the given one. -/
theorem settleAt_attached {o : PromiseState V} (h : Watched s) (hw : s.writer = some w)
    (he : s.phase.ended = false) (ha : attached s.writer writer) :
    settleAt s.closedPromise writer o w = o := by
  rcases ha with ha | ha
  · rw [hw] at ha
    cases ha
  · rw [← ha, hw, settleAt_self, h.waiting w hw he]
    rfl

namespace Watched

variable {t : State V F}

theorem getWriter (hw : s.writer = none) : Watched s.getWriter := by
  unfold State.getWriter
  rw [hw]
  have hclosed : ∀ w, some s.nextWriter = some w →
      Function.update s.closedPromise s.nextWriter s.initialClosed w = s.initialClosed := by
    intro w h
    rw [← Option.some_inj.mp h]
    exact Function.update_self ..
  refine ⟨fun w h he => (hclosed w h).trans ?_, fun w h hp => (hclosed w h).trans ?_,
    fun w e h hp => .inl ((hclosed w h).trans ?_)⟩
  all_goals unfold State.initialClosed
  · have he' : s.phase.ended = false := he
    cases hp : s.phase with
    | writable | erroring => rfl
    | closed | errored =>
      rw [hp] at he'
      cases he'
  · rw [show s.phase = .closed from hp]
  · rw [show s.phase = .errored e from hp]

theorem reject {e : Reason V} (hp : t.phase = .errored e)
    (hc : ∀ w, t.writer = some w → t.closedPromise w = .rejected e) : Watched t := by
  constructor <;> grind -linarith

variable [Binary64 F]

/-- **Moves**: the promise of the writer is kept, if the writer is the one that is attached. -/
theorem move {sentinel : V} (hf : Flight s) (ha : Aborts s) (h : Watched s)
    (hm : Move sentinel ⟨fun _ => True, attached⟩ s t) : Watched t := by
  cases hm with
  | getWriter hw => exact getWriter hw
  | finish writer e settled hp hq hw =>
    refine reject rfl (fun w hww => ?_)
    exact settleAt_attached (s := s) h hww (ended_of_erroring hp) hw
  | finishAborting e r hp hq hr hw =>
    -- the abort algorithm is there, so it is called, and the promise waits for it
    have hcleared := ha.not_cleared_of_request hq hr hw
    have hwait := h.waiting
    constructor <;> grind -linarith
  | landClose writer p settled pending hp hpe hw =>
    have hset (w : ℕ) (hww : s.writer = some w) :
        settleAt s.closedPromise writer .resolved w = .resolved :=
      settleAt_attached h hww (hf.of_close hp).2.1 hw
    constructor <;> grind -linarith
  | failWrite p x e ready hp he =>
    have hended := (hf.of_write hp).2.1
    constructor <;> grind -linarith [Watched]
  | failClose p x e ready settled hp he =>
    have hended := (hf.of_close hp).2.1
    constructor <;> grind -linarith [Watched]
  | abortDone p o e hp =>
    refine reject hp (fun w hww => ?_)
    have hw : s.writer = some w := hww
    show settleAt s.closedPromise s.writer (.rejected e) w = .rejected e
    rw [hw, settleAt_self]
    rcases h.errored w e hw hp with hc | ⟨-, hc⟩
    all_goals
      rw [hc]
      rfl
  | _ => constructor <;> grind -linarith [Watched]

end Watched

/-! ### Events that act for a writer that was replaced -/

section Stale

variable [Binary64 F]

/-- A stream that is errored for another writer than the one that is attached. -/
theorem finishErroringIfIdle_stale {e : Reason V} (hq : Quiet s) (hr : s.pendingAbortRequest = none)
    (hw : s.writer = some w) (hne : writer ≠ some w) (hc : s.closedPromise w = .pending)
    (hn : s.sinkAbortPromise = none) : ¬ ClosedSettled (s.finishErroringIfIdle writer e) := by
  unfold finishErroringIfIdle writableStreamFinishErroring
  rw [if_pos (idle_of_quiet hq), hr]
  intro h
  have hrej : settleAt s.closedPromise writer (.rejected e) w = .rejected e := (h w hw).2 e rfl hn
  rw [settleAt_of_ne _ _ hne, hc] at hrej
  cases hrej

theorem sinkCloseSettles_stale {res : Except V Unit} (hf : Flight s) (h : Watched s)
    (hs : s.sinkClosePromise = some writer) (hw : s.writer = some w) (hne : writer ≠ some w) :
    ¬ ClosedSettled (s.sinkCloseSettles res) := by
  have hsome := hf.close
  rw [hs] at hsome
  obtain ⟨p, hp⟩ := Option.isSome_iff_exists.mp hsome.symm
  obtain ⟨hwr, he, hst⟩ := hf.of_close hp
  have hc := h.waiting w hw he
  unfold State.sinkCloseSettles
  rw [hs]
  cases res with
  | ok u =>
    unfold writableStreamFinishInFlightClose
    rw [hp]
    dsimp only
    obtain ⟨settled, pending, heq, -⟩ := resolveAbortRequest_eq (s.landClose p .resolved .sinkDone)
    rw [heq]
    intro hcs
    have hres : settleAt s.closedPromise writer .resolved w = .resolved := (hcs w hw).1 rfl
    rw [settleAt_of_ne _ _ hne, hc] at hres
    cases hres
  | error x =>
    unfold writableStreamFinishInFlightCloseWithError
    rw [hp]
    dsimp only
    obtain ⟨e, ready, -, heq⟩ := dealWithRejection_eq
      (s := (s.landClose p (.rejected (.value x)) .sinkFailed).settleAbortRequest
        (.rejected (.value x))) ⟨hwr, rfl, hst⟩ he writer (.value x)
    rw [heq]
    exact finishErroringIfIdle_stale ⟨hwr, rfl, hst⟩ rfl hw hne hc (hf.noAbort he)

theorem finishErroringIfIdle_writer (s : State V F) (writer : Option ℕ) (e : Reason V) :
    (s.finishErroringIfIdle writer e).writer = s.writer := by
  unfold finishErroringIfIdle writableStreamFinishErroring abortSteps
  split
  · split
    · rfl
    · split
      · rfl
      · split <;> rfl
  · rfl

variable [DecidableEq V] {sentinel : V}

theorem sizeReturns_stale {x v : V} {w' : ℕ} {rest : List (V × ℕ)} (hf : Flight s) (ha : Aborts s)
    (h : Watched s) (hs : s.sizing = (v, w') :: rest) (hp : s.phase = .writable) (hq : Quiet s)
    (hw : s.writer = some w) (hne : some w' ≠ some w) :
    ¬ ClosedSettled (s.sizeReturns sentinel (.threw x)) := by
  have he := ended_of_writable hp
  unfold State.sizeReturns getChunkSize defaultControllerErrorIfNeeded
  rw [hs]
  dsimp only
  rw [hp]
  -- the rest of the call finds another writer and leaves the stream as it is
  unfold State.writeChunk
  rw [if_neg]
  · exact finishErroringIfIdle_stale ⟨hq.1, hq.2, hq.3⟩ (ha.none_of_writable hp) hw hne
      (h.waiting w hw he) (hf.noAbort he)
  · intro hsome
    have hkeep := finishErroringIfIdle_writer
      { s with
        sizing := rest
        cleared := true
        phase := .erroring (.value x)
        readyPromise := ensureAt s.readyPromise (some w') (.rejected (.value x)) }
      (some w') (.value x)
    exact hne ((hsome.symm.trans hkeep).trans hw)

end Stale

/-! ### Runs -/

section Runs

/-- An event that ends the stream acts for the writer that is attached, if one is: the sink comes to
the end of its close, or a `size` function throws while nothing is in flight. -/
def Current (s : State V F) (e : Event V F) : Prop :=
  s.panicked = none →
    (∀ res c, e = .sinkCloseSettles res → s.sinkClosePromise = some c → attached s.writer c) ∧
      ∀ x v w rest, e = .sizeReturns (.threw x) → s.sizing = (v, w) :: rest →
        s.phase = .writable → Quiet s → attached s.writer (some w)

theorem exists_of_not_attached {current given : Option ℕ} (h : ¬ attached current given) :
    ∃ w, current = some w ∧ given ≠ some w := by
  cases current with
  | none => exact absurd (.inl rfl) h
  | some w => exact ⟨w, rfl, fun hw => h (.inr hw.symm)⟩

variable [Binary64 F]

theorem watched_init (strategyHwm : F) : Watched (init (V := V) strategyHwm) :=
  ⟨nofun, nofun, nofun⟩

variable [DecidableEq V] {sentinel : V} {e : Event V F}

/-- What is known of a stream along a run. -/
def Tracked (s : State V F) : Prop := Flight s ∧ Aborts s ∧ Watched s

theorem Tracked.step (h : Tracked s) (hc : Current s e) : Tracked (step sentinel s e) := by
  unfold WritableStream.step
  split_ifs with hpanic
  · exact h
  · obtain ⟨hclose, hsize⟩ := hc (by simpa using hpanic)
    have hm : Moves sentinel ⟨fun _ => True, attached⟩ s (act sentinel s e) :=
      moves_act h.1
        { refl := fun _ => .inr rfl
          chunk := fun _ _ _ => trivial
          sizing := fun _ _ => trivial
          close := hclose
          size := hsize }
    refine hm.invariant ?_ h
    rintro t u ⟨hf, ha, hw⟩ hmove
    exact ⟨hf.move hmove, ha.move hmove, hw.move hf ha hmove⟩

theorem Tracked.lost (h : Tracked s) (hc : ¬ Current s e) :
    ¬ ClosedSettled (WritableStream.step sentinel s e) := by
  obtain ⟨hf, ha, hw⟩ := h
  unfold Current at hc
  push Not at hc
  obtain ⟨hpanic, hc⟩ := hc
  have hact : WritableStream.step sentinel s e = act sentinel s e := by
    unfold WritableStream.step
    rw [hpanic]
    rfl
  rw [hact]
  by_cases hclose : ∀ res c, e = .sinkCloseSettles res → s.sinkClosePromise = some c →
      attached s.writer c
  · obtain ⟨x, v, w', rest, rfl, hs, hp, hq, hno⟩ := hc hclose
    obtain ⟨w, hwr, hne⟩ := exists_of_not_attached hno
    exact sizeReturns_stale hf ha hw hs hp hq hwr hne
  · push Not at hclose
    obtain ⟨res, c, rfl, hs, hno⟩ := hclose
    obtain ⟨w, hwr, hne⟩ := exists_of_not_attached hno
    exact sinkCloseSettles_stale hf hw hs hwr hne

/-- **Closed promises**: the closed promise of the writer that is attached is as it should be in
every state of exactly the runs in which the events that end the stream act for that writer. -/
theorem closed_settled_iff (sentinel : V) (strategyHwm : F) (es : List (Event V F)) :
    Throughout (step sentinel) ClosedSettled (init strategyHwm) es ↔
      Each (step sentinel) Current (init strategyHwm) es := by
  have himp : ∀ s : State V F, Tracked s → ClosedSettled s := fun _ h => h.2.2.closedSettled
  exact throughout_iff_each himp (fun _ _ h hc => h.step hc) (fun _ _ h hc => h.lost hc) es
    ⟨flight_init strategyHwm, aborts_init strategyHwm, watched_init strategyHwm⟩

/-- The writer is replaced while the sink closes: the stream is closed, and the promise of its
writer is pending for ever. -/
theorem replaced_writer_pending :
    let s := [Event.getWriter, .startSettles (.ok ()), .close (some 0), .releaseLock 0, .getWriter,
      .sinkCloseSettles (.ok ())].foldl (step 0) (init (V := ℕ) (F := ℤ) 1)
    s.phase = .closed ∧ s.writer = some 1 ∧ s.closedPromise 1 = .pending :=
  ⟨rfl, rfl, rfl⟩

end Runs

end RasterRuntime.WritableStream
