import RasterRuntime.BodyStream.Model
import RasterRuntime.ReadableStream.Lane

/-! # Who has the body

The tasks that were spawned for a body stream, as long as a read by the native pull is made only
when no other read is pending and tasks are polled for the first time in the order in which they
were spawned: there is one task for the pull that is running, and at most one for a read, which is
polled before the tasks of later pulls and so finds the body in its slot (`Crew`). -/

namespace RasterRuntime.BodyStream

open ReadableStream (Lane pending)

variable {δ F : Type}

/-- The reads by the native pull that are pending, with their tasks: there is none, or one that was
not polled yet and will be the next, or one that has the body. -/
inductive Natives : List ℕ → Place → List Task → Prop
  | idle {place : Place} {spawned : List Task} (hs : ∀ p, .native p ∉ spawned)
      (hp : ∀ p, place ≠ .taken (.native p)) : Natives [] place spawned
  | waiting (p : ℕ) {rest : List Task} (hs : ∀ q, .native q ∉ rest) :
      Natives [p] .slot (.native p :: rest)
  | reading (p : ℕ) {spawned : List Task} (hs : ∀ q, .native q ∉ spawned) :
      Natives [p] (.taken (.native p)) spawned

variable {spawned : List Task}

theorem native_notMem_append (h : ∀ p, .native p ∉ spawned) (p : ℕ) :
    .native p ∉ spawned ++ [.pull] := by
  simp [h p]

theorem Natives.append_pull {l : List ℕ} {place : Place} (h : Natives l place spawned) :
    Natives l place (spawned ++ [.pull]) := by
  cases h with
  | idle hs hp => exact .idle (native_notMem_append hs) hp
  | waiting p hs => exact .waiting p (native_notMem_append hs)
  | reading p hs => exact .reading p (native_notMem_append hs)

/-- How many tasks of pulls there are, the one whose promise is resolved included. -/
def pullTasks (s : State δ F) : ℕ :=
  s.spawned.count .pull + (if s.place = .taken .pull then 1 else 0) +
    if s.pullResolved then 1 else 0

/-- **The crew**: there is one task for the pull that is running, and at most one for a read. -/
structure Crew (s : State δ F) : Prop where
  lane : Lane s.readable
  pulls : pullTasks s = if s.readable.controller.pullPromise then 1 else 0
  natives : Natives s.readable.stream.nativeReads s.place s.spawned

namespace Crew

variable {s : State δ F} {readable : ReadableStream.State Value F}

theorem withReadable (h : Crew s) (hl : Lane readable)
    (hn : readable.stream.nativeReads = s.readable.stream.nativeReads)
    (hp : s.readable.controller.pullPromise → readable.controller.pullPromise) :
    Crew (s.withReadable readable) := by
  have hpulls := h.pulls
  have hnat := h.natives
  unfold pullTasks at hpulls
  rw [← hn] at hnat
  unfold State.withReadable
  split_ifs with hs
  · simp only [Bool.and_eq_true, Bool.not_eq_true'] at hs
    refine ⟨hl, ?_, hnat.append_pull⟩
    simp only [hs.1, Bool.false_eq_true, if_false] at hpulls
    simp only [pullTasks, List.count_append, List.count_singleton_self, hs.2, if_true]
    omega
  · refine ⟨hl, hpulls.trans ?_, hnat⟩
    cases hr : s.readable.controller.pullPromise with
    | true => rw [hp hr]
    | false =>
      rw [hr] at hs
      simpa using hs

theorem free (h : Crew s) (hp : pending s.readable = [])
    (hpull : s.readable.controller.pulling = false) :
    s.spawned = [] ∧ ∀ t, s.place ≠ .taken t := by
  have hpulls := h.pulls
  rw [← h.lane.flags, hpull] at hpulls
  unfold pullTasks at hpulls
  simp only [Bool.false_eq_true, if_false, Nat.add_eq_zero_iff, List.count_eq_zero] at hpulls
  obtain ⟨⟨hcount, hplace⟩, -⟩ := hpulls
  have hn : s.readable.stream.nativeReads = [] := (List.append_eq_nil_iff.mp hp).1
  have hnat := h.natives
  rw [hn] at hnat
  cases hnat with
  | idle hs ht =>
    refine ⟨List.eq_nil_iff_forall_not_mem.mpr ?_, ?_⟩
    · rintro (_ | p)
      · exact hcount
      · exact hs p
    · rintro (_ | p)
      · intro he
        rw [if_pos he] at hplace
        cases hplace
      · exact ht p

end Crew

variable {s : State δ F} {t : Task}

theorem spawned_withReadable {readable : ReadableStream.State Value F}
    (hp : s.readable.controller.pullPromise) :
    (s.withReadable readable).spawned = s.spawned := by
  unfold State.withReadable
  rw [hp]
  rfl

/-- The reads that a task settles. -/
def Task.promises : Task → List ℕ
  | .pull => []
  | .native p => [p]

/-- A task is polled that has the body, or takes it. -/
structure Holding (s : State δ F) (t : Task) : Prop where
  lane : Lane s.readable
  pulls : s.spawned.count .pull + (if t = .pull then 1 else 0) + (if s.pullResolved then 1 else 0) =
    if s.readable.controller.pullPromise then 1 else 0
  natives : s.readable.stream.nativeReads = t.promises
  others : ∀ p, .native p ∉ s.spawned

/-- The first task that was spawned takes the body. -/
theorem Crew.holding {ts : List Task} (h : Crew s) (hs : s.spawned = t :: ts)
    (hp : s.place = .slot) :
    Holding { s with spawned := ts } t := by
  have hnat := h.natives
  have hpulls := h.pulls
  unfold pullTasks at hpulls
  rw [hp, hs] at hnat
  rw [hp, hs, if_neg (by simp)] at hpulls
  generalize hl : s.readable.stream.nativeReads = l at hnat
  cases hnat with
  | idle hno hplace =>
    cases t with
    | native p => exact absurd (.head _) (hno p)
    | pull =>
      rw [List.count_cons_self] at hpulls
      exact ⟨h.lane, hpulls, hl, fun p hm => hno p (.tail _ hm)⟩
  | waiting p hno =>
    rw [List.count_cons_of_ne (by simp)] at hpulls
    exact ⟨h.lane, hpulls, hl, hno⟩

theorem Crew.holding_taken (h : Crew s) (hp : s.place = .taken t) :
    Holding s t := by
  have hnat := h.natives
  have hpulls := h.pulls
  unfold pullTasks at hpulls
  rw [hp] at hnat hpulls
  generalize hl : s.readable.stream.nativeReads = l at hnat
  cases hnat with
  | idle hno hplace =>
    cases t with
    | native p => exact absurd rfl (hplace p)
    | pull => exact ⟨h.lane, hpulls, hl, hno⟩
  | reading p hno => exact ⟨h.lane, hpulls, hl, hno⟩

namespace Holding

theorem crew (h : Holding s t) (hp : s.place = .taken t) : Crew s where
  lane := h.lane
  pulls := by
    have hpulls := h.pulls
    unfold pullTasks
    rw [hp]
    cases t with
    | pull | native => exact hpulls
  natives := by
    rw [h.natives, hp]
    cases t with
    | pull => exact .idle h.others (by simp)
    | native p => exact .reading p h.others

variable {s' : State δ F}

/-- The task is done, and has given the body away. -/
theorem leave (h : Holding s t) (hl : Lane s'.readable) (hn : s'.readable.stream.nativeReads = [])
    (hp : ∀ t, s'.place ≠ .taken t) (hs : s'.spawned = s.spawned)
    (hpulls : s.spawned.count .pull + (if s'.pullResolved then 1 else 0) =
      if s'.readable.controller.pullPromise then 1 else 0) : Crew s' where
  lane := hl
  pulls := by
    unfold pullTasks
    rw [if_neg (hp .pull), hs]
    exact hpulls
  natives := by
    rw [hn, hs]
    exact .idle h.others (fun q => hp (.native q))

theorem crew_native {p : ℕ} (h : Holding s (.native p)) (hl : Lane s'.readable)
    (hn : s'.readable.stream.nativeReads = []) (hp : ∀ t, s'.place ≠ .taken t)
    (hs : s'.spawned = s.spawned) (hr : s'.pullResolved = s.pullResolved)
    (hpp : s'.readable.controller = s.readable.controller) : Crew s' := by
  refine h.leave hl hn hp hs ?_
  rw [hr, hpp]
  exact h.pulls

theorem pullPromise (h : Holding s .pull) : s.readable.controller.pullPromise := by
  have hpulls := h.pulls
  rw [if_pos rfl] at hpulls
  by_contra hne
  rw [if_neg hne] at hpulls
  omega

theorem crew_pull (h : Holding s .pull) (hl : Lane s'.readable)
    (hn : s'.readable.stream.nativeReads = []) (hp : ∀ t, s'.place ≠ .taken t)
    (hs : s'.spawned = s.spawned) (hr : s'.pullResolved)
    (hpp : s.readable.controller.pullPromise → s'.readable.controller.pullPromise) :
    Crew s' := by
  refine h.leave hl hn hp hs ?_
  have hpulls := h.pulls
  rw [if_pos rfl, if_pos h.pullPromise] at hpulls
  rw [hr, hpp h.pullPromise, if_pos rfl]
  omega

theorem queue_nil {p : ℕ} (h : Holding s (.native p)) : ReadableStream.queued s.readable = [] := by
  refine h.lane.queue_nil ?_
  unfold pending
  rw [h.natives]
  simp [Task.promises]

end Holding

end RasterRuntime.BodyStream
