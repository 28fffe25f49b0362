import RasterRuntime.Timers.LoopSteps

/-! # The timer loop wakes up in time

A poll sets the sleep of its task, and the recorded deadline, to the first deadline of the list; a
timer that is set while the mark `running` is there notifies the task if its deadline is before the
recorded one. So the task wakes up in time as long as it was armed in time when it was spawned. But
a task is spawned for the deadline of the new timer, or for the recorded one, whatever else is in
the list. Unless a notification happens to be pending, of the timers or of the drivers, it sleeps
until then.

* `Awake`: some task is notified, or its sleep ends before every deadline and the recorded one.
* `Timely`: the events that do not arm a task too late.
* `not_overslept`: no timer is overslept in the runs of timely events. -/

namespace RasterRuntime.Timers

open Transition

namespace RuntimeTimerState

/-- The sleep of the task ends before the deadlines of the list and before the recorded one, up to
the shortest sleep. -/
structure Armed (s : RuntimeTimerState) (l : Sleeper) : Prop where
  deadline : l.sleep ≤ s.deadline + minSleep
  clock : l.sleep ≤ s.clock + farFuture + minSleep
  timers : ∀ t ∈ s.base.timers, l.sleep ≤ t.deadline + minSleep

/-- A notification is pending that a task waits for. -/
def signalled (s : RuntimeTimerState) : Bool := s.notified || s.driverWake

/-- Some task is notified or armed. -/
def Awake (s : RuntimeTimerState) : Prop := ∃ l ∈ s.loops, s.signalled = true ∨ s.Armed l

/-- If a task is marked as running, there is one that wakes up at once or no later than the deadline
of any pending timer, up to the shortest sleep. -/
def NotOverslept (s : RuntimeTimerState) : Prop :=
  s.running = true → ∃ l ∈ s.loops, s.signalled = true ∨
    ∀ t ∈ s.base.timers, t.callback.isSome → l.sleep ≤ t.deadline + minSleep

instance (s : RuntimeTimerState) : Decidable s.NotOverslept :=
  inferInstanceAs (Decidable (s.running = true → ∃ l ∈ s.loops, s.signalled = true ∨
    ∀ t ∈ s.base.timers, t.callback.isSome → l.sleep ≤ t.deadline + minSleep))

/-- A task that is spawned now with this sleep is notified or armed. -/
def StartsInTime (s : RuntimeTimerState) (sleep now : ℤ) : Prop :=
  s.signalled = true ∨ sleep ≤ s.deadline + minSleep ∧ sleep ≤ now + farFuture ∧
    ∀ t ∈ s.base.timers, sleep ≤ t.deadline + minSleep

/-- The event does not leave the mark without a task that wakes up in time: a task is spawned in
time, a poll that puts the mark there finds one, and no error ends the task. -/
def Timely (sort : UnstableSort) (s : RuntimeTimerState) : Event → Prop
  | .set provider delay referenced now =>
    s.running = false → (s.push provider delay referenced now).shouldKeepTimerLoop = true →
      s.StartsInTime (deadlineOf provider delay now) now
  | .resume => s.running = false → s.shouldKeepTimerLoop = true → s.StartsInTime s.deadline s.clock
  | .poll v now => s.running = false → (s.step sort (.poll v now)).any running = true → s.Awake
  | .done => s.running = false → (s.step sort .done).any running = true → s.Awake
  | .throw => s.running = true → s.innermost.all (!isLoop ·) = true
  | .hookThrow => s.running = true → s.innermost.all (!isLoop ·) = true
  | _ => True

/-! ### The first deadline -/

theorem minSleep_pos : 0 < minSleep := by decide

theorem minSleep_le_farFuture : minSleep ≤ farFuture := by decide

theorem foldl_lowest (ts : List Timeout) : ∀ m : ℤ,
    let lowest := ts.foldl (fun lowest t => if t.deadline < lowest then t.deadline else lowest) m
    lowest ≤ m ∧ (∀ t ∈ ts, lowest ≤ t.deadline) ∧
      (lowest = m ∨ ∃ t ∈ ts, lowest = t.deadline) := by
  induction ts with
  | nil => exact fun m => ⟨Int.le_refl m, nofun, .inl rfl⟩
  | cons t ts ih =>
    intro m
    obtain ⟨hm, hts, heq⟩ := ih (if t.deadline < m then t.deadline else m)
    dsimp only [List.foldl_cons] at *
    have hle : (if t.deadline < m then t.deadline else m) ≤ m := by split_ifs <;> omega
    have hle' : (if t.deadline < m then t.deadline else m) ≤ t.deadline := by split_ifs <;> omega
    refine ⟨hm.trans hle, List.forall_mem_cons.mpr ⟨hm.trans hle', hts⟩, ?_⟩
    rcases heq with heq | ⟨u, hu, heq⟩
    · split_ifs at heq
      · exact .inr ⟨t, List.mem_cons_self, by rw [if_pos (by assumption), heq]⟩
      · exact .inl (by rw [if_neg (by assumption), heq])
    · exact .inr ⟨u, .tail _ hu, heq⟩

variable {now : ℤ} {ts : List Timeout}

/-- The sleep of a poll ends in time for what it leaves in the list. -/
theorem sleepUntil_le (h : ∀ t ∈ ts, now ≤ t.deadline) :
    sleepUntil now ts ≤ now + farFuture ∧ ∀ t ∈ ts, sleepUntil now ts ≤ t.deadline + minSleep := by
  obtain ⟨hm, hts, -⟩ := foldl_lowest ts (now + farFuture)
  have hpos := minSleep_pos
  have hfar := minSleep_le_farFuture
  unfold sleepUntil lowest
  split_ifs with hlt
  · refine ⟨by omega, fun t ht => ?_⟩
    have := h t ht
    omega
  · refine ⟨hm, fun t ht => ?_⟩
    have := hts t ht
    omega

/-- What ends in time for the list ends in time for the deadline that a poll records. -/
theorem le_sleepUntil {x : ℤ} (hnow : x ≤ now + farFuture + minSleep)
    (h : ∀ t ∈ ts, x ≤ t.deadline + minSleep) : x ≤ sleepUntil now ts + minSleep := by
  obtain ⟨-, -, heq⟩ := foldl_lowest ts (now + farFuture)
  have hx : x ≤ lowest now ts + minSleep := by
    unfold lowest
    rcases heq with heq | ⟨t, ht, heq⟩
    · omega
    · have := h t ht
      omega
  unfold sleepUntil
  split_ifs with hlt
  · omega
  · exact hx

/-! ### Polls -/

theorem remaining_deadline {t t' : Timeout} (h : t.remaining now = some t') :
    t.deadline ≤ t'.deadline ∧ now ≤ t'.deadline := by
  revert h
  fun_cases Timeout.remaining now t <;> rintro ⟨⟩
  · dsimp only
    unfold millis
    omega
  · omega

section Record

variable {sort : UnstableSort} {s : RuntimeTimerState} {v : ℕ}

theorem Aside.signalled {s s' : RuntimeTimerState} (ha : s.Aside s') (h : s.signalled) :
    s'.signalled := by
  unfold RuntimeTimerState.signalled at *
  rw [Bool.or_eq_true] at *
  exact h.imp ha.notified ha.driverWake

theorem signalled_record (h : s.signalled) (base : State) : (s.record v now base).signalled :=
  (aside_foldl s _).signalled h

theorem mem_collect {t : Timeout} (ht : t ∈ (s.base.collect sort v now).timers) :
    now ≤ t.deadline ∧ ∃ u ∈ s.base.timers, u.deadline ≤ t.deadline := by
  obtain ⟨u, hu, hr⟩ := List.mem_filterMap.mp ht
  obtain ⟨hle, hnow⟩ := remaining_deadline hr
  exact ⟨hnow, u, hu, hle⟩

/-- A task whose poll goes through a list that is not empty is armed. -/
theorem armed_sleepUntil (hne : s.base.timers ≠ []) (task : ℕ) :
    (s.record v now (s.base.collect sort v now)).Armed
      ⟨task, sleepUntil now (s.base.collect sort v now).timers⟩ := by
  have hpos := minSleep_pos
  have hmem : ∀ t ∈ (s.base.collect sort v now).timers, now ≤ t.deadline :=
    fun t ht => (mem_collect ht).1
  obtain ⟨hfar, hts⟩ := sleepUntil_le hmem
  constructor
  · show _ ≤ (if s.base.timers = [] then _ else _) + minSleep
    rw [if_neg hne]
    dsimp only
    omega
  · show _ ≤ now + farFuture + minSleep
    dsimp only
    omega
  · exact hts

theorem awake_of_mem (hv : v ∈ s.loops.map Sleeper.vec) (hne : s.base.timers ≠ []) :
    (s.record v now (s.base.collect sort v now)).Awake := by
  obtain ⟨l, hl, rfl⟩ := List.mem_map.mp hv
  refine ⟨⟨l.task, _⟩, ?_, .inr (armed_sleepUntil hne l.task)⟩
  show _ ∈ if s.base.timers = [] then _ else _
  rw [if_neg hne]
  refine List.mem_map.mpr ⟨l, hl, ?_⟩
  rw [resetSleep, if_pos rfl]

theorem Armed.record {l : Sleeper} (h : s.Armed l) (hnow : s.clock ≤ now) :
    (s.record v now (s.base.collect sort v now)).Armed l := by
  have hts : ∀ t ∈ (s.base.collect sort v now).timers, l.sleep ≤ t.deadline + minSleep := by
    intro t ht
    obtain ⟨-, u, hu, hle⟩ := mem_collect ht
    have := h.timers u hu
    omega
  have hclock : l.sleep ≤ now + farFuture + minSleep := by
    have := h.clock
    omega
  constructor
  · show _ ≤ (if s.base.timers = [] then _ else _) + minSleep
    split_ifs
    · exact h.deadline
    · exact le_sleepUntil hclock hts
  · exact hclock
  · exact hts

theorem Awake.record (h : s.Awake) (hnow : s.clock ≤ now) :
    (s.record v now (s.base.collect sort v now)).Awake := by
  obtain ⟨l, hl, h⟩ := h
  by_cases hne : s.base.timers = []
  · refine ⟨l, ?_, h.imp (signalled_record · _) fun h => h.record hnow⟩
    show _ ∈ if s.base.timers = [] then _ else _
    rw [if_pos hne]
    exact hl
  · by_cases hv : l.vec = v
    · exact awake_of_mem (hv ▸ List.mem_map_of_mem hl) hne
    · refine ⟨l, ?_, h.imp (signalled_record · _) fun h => h.record hnow⟩
      show _ ∈ if s.base.timers = [] then _ else _
      rw [if_neg hne]
      refine List.mem_map.mpr ⟨l, hl, ?_⟩
      rw [resetSleep, if_neg hv]

end Record

/-! ### Every event -/

section Keep

variable {sort : UnstableSort} {s s' : RuntimeTimerState}

theorem Armed.mono {l : Sleeper} (h : s.Armed l) (hd : s'.deadline = s.deadline)
    (hc : s.clock ≤ s'.clock) (ht : s'.base.timers ⊆ s.base.timers) : s'.Armed l where
  deadline := hd ▸ h.deadline
  clock := by
    have := h.clock
    omega
  timers := fun t h' => h.timers t (ht h')

theorem Awake.mono (h : s.Awake) (hl : s'.loops = s.loops) (hn : s.signalled → s'.signalled)
    (hd : s'.deadline = s.deadline) (hc : s.clock ≤ s'.clock)
    (ht : s'.base.timers ⊆ s.base.timers) : s'.Awake := by
  obtain ⟨l, hmem, h⟩ := h
  exact ⟨l, hl ▸ hmem, h.imp hn fun h => h.mono hd hc ht⟩

theorem Awake.of_notified (h : s.Awake) (hl : s'.loops = s.loops) (hn : s'.notified) :
    s'.Awake := by
  obtain ⟨l, hmem, -⟩ := h
  refine ⟨l, hl ▸ hmem, .inl ?_⟩
  rw [signalled, hn, Bool.true_or]

theorem Awake.aside (h : s.Awake) (ha : s.Aside s') : s'.Awake :=
  h.mono ha.loops ha.signalled ha.deadline (Int.le_of_eq ha.clock.symm)
    (ha.base ▸ List.Subset.refl _)

/-- If a task is marked as running, one is notified or armed. -/
def Watched (s : RuntimeTimerState) : Prop := s.running = true → s.Awake

theorem StartsInTime.awake {sleep : ℤ} (h : s.StartsInTime sleep now)
    (hn : s'.signalled = s.signalled) (hd : s'.deadline = s.deadline) (hc : s'.clock = now)
    (ht : ∀ t ∈ s'.base.timers, t ∈ s.base.timers ∨ t.deadline = sleep) :
    (s'.createSpawnLoop sleep).Awake := by
  have hpos := minSleep_pos
  refine ⟨⟨s'.nextLoop, sleep⟩, List.mem_append_right _ List.mem_cons_self, ?_⟩
  rcases h with h | ⟨hdl, hfar, hts⟩
  · exact .inl (hn.trans h)
  · right
    constructor
    · show sleep ≤ s'.deadline + minSleep
      rw [hd]
      exact hdl
    · show sleep ≤ s'.clock + farFuture + minSleep
      omega
    · intro t htm
      show sleep ≤ t.deadline + minSleep
      rcases ht t htm with h | h
      · exact hts t h
      · omega

variable {id v : ℕ}

theorem Watched.set {provider : ProviderType} {delay : ℕ} {referenced : Bool} (h : s.Watched)
    (hnow : s.clock ≤ now) (ht : s.Timely sort (.set provider delay referenced now)) :
    (s.setTimeoutInterval provider delay referenced now).Watched := by
  have hts : ∀ t ∈ (s.push provider delay referenced now).base.timers,
      t ∈ s.base.timers ∨ t.deadline = deadlineOf provider delay now := by
    intro t ht
    rcases List.mem_append.mp ht with ht | ht
    · exact .inl ht
    · rw [List.mem_singleton.mp ht]
      exact .inr rfl
  unfold setTimeoutInterval
  dsimp only
  split_ifs with hr hd hk
  · exact fun _ => Awake.of_notified (h hr) rfl rfl
  · -- the deadline is not before the recorded one
    intro _
    have hd : ¬ deadlineOf provider delay now < s.deadline := hd
    obtain ⟨l, hl, h⟩ := h hr
    refine ⟨l, hl, h.imp_right fun h => ⟨h.deadline, ?_, fun t ht => ?_⟩⟩
    · show l.sleep ≤ now + farFuture + minSleep
      have := h.clock
      omega
    · rcases hts t ht with ht | ht
      · exact h.timers t ht
      · have := h.deadline
        omega
  · exact fun _ => (ht (Bool.eq_false_iff.mpr hr) hk).awake rfl rfl rfl hts
  · exact fun hr' => absurd hr' hr

theorem Watched.resume (h : s.Watched) (ht : s.Timely sort .resume) :
    s.resumeTimerLoopIfIdle.Watched := by
  unfold resumeTimerLoopIfIdle
  split_ifs with hr hk
  · exact h
  · exact fun _ => (ht (Bool.eq_false_iff.mpr hr) hk).awake rfl rfl rfl fun _ h => .inl h
  · exact h

theorem updateFirst_of_not_any {f : Timeout → Timeout}
    (h : ¬ ts.any (·.id = id)) : updateFirst id f ts = ts := by
  induction ts with
  | nil => rfl
  | cons t ts ih =>
    rw [List.any_cons, Bool.or_eq_true, not_or, decide_eq_true_eq] at h
    rw [updateFirst, if_neg h.1, ih h.2]

theorem Watched.clear (h : s.Watched) (hnow : s.clock ≤ now) :
    (s.clearTimeoutInterval id now).Watched := by
  unfold clearTimeoutInterval
  dsimp only
  split_ifs with hid
  · have ha :=
      aside_unreference { s with base := s.base.clearTimeoutInterval id now, clock := now } id
    intro hr
    exact Awake.of_notified (h (ha.running.symm.trans hr)) ha.loops rfl
  · intro hr
    refine Awake.mono (h hr) rfl (fun h => h) rfl hnow ?_
    show updateFirst id _ s.base.timers ⊆ _
    rw [updateFirst_of_not_any hid]
    exact fun _ h => h

theorem settle_running {has : Bool} (h : (s.settle v has).running) :
    s.settle v has = { s with running := true } := by
  unfold settle at h ⊢
  split_ifs at h ⊢
  rfl

theorem Awake.finish (h : s.Awake) (hf : s.finish sort v = some s') (hr : s'.running) :
    s'.Awake := by
  obtain ⟨has, rest, base, hd, rfl⟩ := finish_cases hf
  rw [settle_running hr]
  exact Awake.mono h rfl (fun h => h) rfl (Int.le_refl _) (timers_subset rfl hd)

theorem Watched.awake (h : s.Watched) (hc : s.running = false → s.Awake) : s.Awake := by
  cases hr : s.running with
  | true => exact h hr
  | false => exact hc hr

theorem Watched.code (h : s.Watched) (hnow : s.clock ≤ now)
    (hc : s.running = false → s'.running → s.Awake) (hp : s.pollTimers sort v now = some s') :
    s'.Watched := by
  intro hr'
  have hrec : (s.record v now (s.base.collect sort v now)).Awake :=
    (h.awake fun hr => hc hr hr').record hnow
  obtain ⟨-, -, ⟨-, rfl⟩ | ⟨-, hf⟩⟩ := pollTimers_cases hp
  · exact hrec
  · exact hrec.finish hf hr'

theorem finish_of_empty (h : s.base.timers = []) (hf : s.finish sort v = some s') :
    s'.running = false := by
  obtain ⟨has, rest, base, hd, rfl⟩ := finish_cases hf
  have hbase : base.timers = [] := List.subset_nil.mp (h ▸ timers_subset rfl hd)
  unfold settle shouldKeepTimerLoop
  rw [hbase]
  rfl

/-- A poll of a task: it arms the task, or there is nothing in the list and the task ends. -/
theorem watched_wake (hvac : Vacant s.base) (hv : v ∈ s.loops.map Sleeper.vec)
    (hp : s.pollTimers sort v now = some s') : s'.Watched := by
  intro hr'
  have hodd : isLoop v := by
    obtain ⟨l, -, rfl⟩ := List.mem_map.mp hv
    exact isLoop_vec l
  obtain ⟨-, hframes, hp⟩ := pollTimers_cases hp
  by_cases hne : s.base.timers = []
  · have hempty : (s.base.collect sort v now).timers = [] := by
      show s.base.timers.filterMap _ = []
      rw [hne]
      rfl
    have hvec : (s.base.collect sort v now).callVec v = [] := by
      show setVec s.base.callVec v _ v = []
      rw [setVec_self, hvac v hodd hframes, hne]
      exact (sort.perm []).eq_nil
    rcases hp with ⟨h, -⟩ | ⟨-, hf⟩
    · exact absurd hvec h
    · rw [finish_of_empty hempty hf] at hr'
      cases hr'
  · have hrec : (s.record v now (s.base.collect sort v now)).Awake := awake_of_mem hv hne
    rcases hp with ⟨-, rfl⟩ | ⟨-, hf⟩
    · exact hrec
    · exact hrec.finish hf hr'

theorem Awake.of_timers {base : State} (h : s.Awake) (ht : base.timers ⊆ s.base.timers) :
    Awake { s with base := base } := Awake.mono h rfl (fun h => h) rfl (Int.le_refl _) ht

theorem Watched.leave {e : Bool → Timers.Event} (he : ∀ k, (e k).quiet) (h : s.Watched)
    (ht : s.running → s.innermost.all (!isLoop ·)) (hl : s.leave sort e = some s') :
    s'.Watched := by
  obtain ⟨f, hf, base, hd, rfl⟩ := leave_cases hl
  have hbase := timers_subset (he _) hd
  split_ifs with hloop
  · intro hr
    have hall := ht hr
    rw [innermost, hf, Option.map_some, Option.all_some, hloop] at hall
    cases hall
  · exact fun hr => Awake.mono (h hr) rfl (fun h => h) rfl (Int.le_refl _) hbase

/-- **Every event**: a timely event leaves no mark without a task that is notified or armed. -/
theorem Watched.keep {e : Event} (h : s.Watched) (hvac : Vacant s.base) (ht : s.Timely sort e)
    (hs : s.step sort e = some s') : s'.Watched := by
  cases step_cases hs with
  | set hnow => exact h.set hnow ht
  | clear hnow => exact h.clear hnow
  | aside _ ha => exact fun hr => (h (ha.running.symm.trans hr)).aside ha
  | take hb | fire hb | ret hb | drop _ hb =>
    exact fun hr => (h hr).of_timers (timers_subset rfl hb)
  | resume => exact h.resume ht
  | @wake v cause now s' hnow hv hp => exact watched_wake (s := s.consume cause) hvac hv hp
  | poll hnow hv hp =>
    refine h.code hnow (fun hr hr' => ht hr ?_) hp
    rw [hs, Option.any_some, hr']
  | throw hl | hookThrow hl => exact h.leave (fun _ => rfl) ht hl
  | done hv hf =>
    intro hr'
    exact (h.awake fun hr => ht hr (by rw [hs, Option.any_some, hr'])).finish hf hr'

end Keep

/-- **No timer is overslept**: at the end of every run of timely events, if a task is marked as
running, there is one that wakes up at once or no later than the deadline of any pending timer, up
to the shortest sleep. -/
theorem not_overslept (sort : UnstableSort) (now : ℤ) {es : List Event} {s : RuntimeTimerState}
    (hr : run (step sort) (new now) es = some s)
    (ht : RunEach (step sort) (Timely sort) (new now) es) :
    s.NotOverslept := by
  have hinit : (new now).Watched ∧ Vacant (new now).base :=
    ⟨nofun, fun _ _ _ => rfl⟩
  have hkeep : ∀ s e s', Watched s ∧ Vacant s.base → Timely sort s e → step sort s e = some s' →
      Watched s' ∧ Vacant s'.base :=
    fun s e s' h ht hs => ⟨h.1.keep h.2 ht hs, vacant_step h.2 hs⟩
  intro hrun
  obtain ⟨l, hl, h⟩ := (ht.invariant hkeep hinit hr).1 hrun
  exact ⟨l, hl, h.imp_right fun h t ht _ => h.timers t ht⟩

/-- A timeout is set and the task sleeps until its deadline. -/
theorem not_overslept_timeout :
    (run (step insertionSort) (new 0) [.set .timeout 5 true 0]).all (·.running) = true ∧
    ∀ s, run (step insertionSort) (new 0) [.set .timeout 5 true 0] = some s → s.NotOverslept := by
  refine ⟨by decide, fun s hs => not_overslept insertionSort 0 hs ⟨?_, fun _ _ => trivial⟩⟩
  exact fun _ _ => .inr (by decide)

/-- A timeout of 100 ms is set and unreferenced while another handle holds the event loop. When that
is released, the drivers are woken, and the task polls and ends. A timeout of 10 s is set, and the
task that is spawned sleeps for 10 s. -/
theorem parked_timer_overslept :
    ∃ held released s,
      run (step insertionSort) (new 0) [.hold, .set .timeout 100 true 0, .unref 0] = some held ∧
      held.notified = true ∧ held.driverWake = false ∧
      run (step insertionSort) held [.wake 1 .notice 0, .release] = some released ∧
      released.driverWake = true ∧
      run (step insertionSort) released [.wake 1 .drivers (millis 1),
        .set .timeout 10000 true (millis 2)] = some s ∧
      s.base.timers.map Timeout.deadline = [millis 100, millis 10002] ∧
      s.loops.map Sleeper.sleep = [millis 10002] ∧ ¬ s.NotOverslept := by
  refine ⟨_, _, _, rfl, ?_, ?_, rfl, ?_, rfl, ?_, ?_, ?_⟩ <;> decide

end RuntimeTimerState

end RasterRuntime.Timers
