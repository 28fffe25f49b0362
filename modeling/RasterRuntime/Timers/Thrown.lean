import RasterRuntime.Timers.LoopSteps

/-! # Callbacks that throw

A callback that throws ends its poll. What the poll had still to run is in its vector: the pump of a
server finds it there at its next poll, if there is one before its request is answered, and a timer
loop or `require` drops it. The mark `running` stays as it was, also when the task that polled has
ended.

* `taken_perm`: what comes into a vector is invoked, dropped, or still there.
* `throw_survived_iff`: everything that was due is invoked exactly when nothing of the vector is
  dropped; intervals stay; and the mark is there only with a task exactly when it was not there or
  another task is alive. -/

namespace RasterRuntime.Timers

open Transition

/-- A vector after an error has left the poll of `u`. -/
theorem State.leave_eq (s : State) (u : ℕ) (keep : Bool) (v : ℕ) :
    s.leave u keep v = if u = v ∧ keep = false then [] else s.callVec v := by
  unfold State.leave
  cases keep with
  | true => simp
  | false =>
    by_cases huv : u = v
    · subst huv
      simp [setVec_self]
    · simp [setVec_of_ne _ (Ne.symm huv), huv]

namespace RuntimeTimerState

/-! ### What becomes of a vector -/

/-- The callbacks that wait in the vector. -/
def waiting (v : ℕ) (s : RuntimeTimerState) : List ℕ :=
  (s.base.callVec v).map ExecutingTimer.callback

/-- The callback that the event takes from the vector and invokes. -/
def taken (v : ℕ) (s : RuntimeTimerState) : Event → List ℕ
  | .fire => if s.innermost = some v then (s.waiting v).take 1 else []
  | _ => []

/-- What comes into the vector at a poll: the callbacks of the list that are due. -/
def dueAt (v : ℕ) (s : RuntimeTimerState) (u : ℕ) (now : ℤ) : List ℕ :=
  if u = v then (s.base.timers.filterMap (Timeout.due now)).map ExecutingTimer.callback else []

/-- The callbacks that come into the vector. -/
def collected (v : ℕ) (s : RuntimeTimerState) : Event → List ℕ
  | .wake u _ now => s.dueAt v u now
  | .poll u now => s.dueAt v u now
  | _ => []

/-- The callbacks that leave the vector and are not invoked. A hook that throws drops the callback
that it comes before. -/
def discarded (v : ℕ) (s : RuntimeTimerState) : Event → List ℕ
  | .throw => if s.innermost = some v ∧ isPump v = false then s.waiting v else []
  | .hookThrow =>
    if s.innermost = some v then if isPump v then (s.waiting v).take 1 else s.waiting v else []
  | .drop u => if u = v then s.waiting v else []
  | _ => []

variable {sort : UnstableSort} {s s' : RuntimeTimerState} {v : ℕ} {e : Event}

theorem waiting_of_callVec (h : s'.base.callVec v = s.base.callVec v) :
    s'.waiting v = s.waiting v := congrArg (List.map ExecutingTimer.callback) h

theorem callVec_finish {u : ℕ} (h : s.finish sort u = some s') :
    s'.base.callVec = s.base.callVec := by
  obtain ⟨has, rest, base, hd, rfl⟩ := finish_cases h
  rw [base_settle]
  cases Timers.step_cases hd with
  | done => rfl

theorem callVec_pollTimers {u : ℕ} {now : ℤ} (h : s.pollTimers sort u now = some s') :
    s'.base.callVec = (s.base.collect sort u now).callVec := by
  obtain ⟨-, -, ⟨-, rfl⟩ | ⟨-, hf⟩⟩ := pollTimers_cases h
  · rfl
  · exact callVec_finish hf

theorem waiting_pollTimers {u : ℕ} {now : ℤ} (h : s.pollTimers sort u now = some s') :
    (s'.waiting v).Perm (s.waiting v ++ s.dueAt v u now) := by
  unfold dueAt waiting
  rw [callVec_pollTimers h]
  show ((setVec s.base.callVec u _ v).map _).Perm _
  by_cases huv : u = v
  · subst huv
    rw [setVec_self, if_pos rfl, ← List.map_append]
    exact (sort.perm _).map _
  · rw [setVec_of_ne _ (Ne.symm huv), if_neg huv, List.append_nil]

theorem innermost_eq {f : Frame} {frames : List Frame} (hf : s.base.frames = f :: frames) :
    s.innermost = some f.vec := by
  rw [innermost, hf]
  rfl

theorem waiting_cons {x : ExecutingTimer} {xs : List ExecutingTimer}
    (h : s.base.callVec v = x :: xs) :
    s.waiting v = x.callback :: xs.map ExecutingTimer.callback := by
  rw [waiting, h, List.map_cons]

/-- The vectors after an error has left the poll of `u`. -/
theorem callVec_leave {error : Bool → Timers.Event} (h : s.leave sort error = some s') :
    ∃ u, s.innermost = some u ∧ Timers.step sort s.base (error (isPump u)) = some s'.base := by
  obtain ⟨f, hf, base, hd, rfl⟩ := leave_cases h
  refine ⟨f.vec, by rw [innermost, hf, Option.map_some], ?_⟩
  split_ifs
  · exact hd
  · exact hd

theorem fire_perm {base : State} (h : Timers.step sort s.base .fire = some base) :
    taken v s .fire ++ (base.callVec v).map ExecutingTimer.callback = s.waiting v := by
  cases Timers.step_cases h with
  | @fire u frames x xs hf hx =>
    unfold taken
    rw [innermost_eq hf]
    show (if some u = some v then _ else _) ++ (setVec s.base.callVec u xs v).map _ = _
    by_cases huv : u = v
    · subst huv
      rw [if_pos rfl, setVec_self, waiting_cons hx]
      rfl
    · rw [if_neg fun h => huv (Option.some_inj.mp h), setVec_of_ne _ (Ne.symm huv)]
      rfl

theorem throw_perm (h : s.leave sort .throw = some s') :
    discarded v s .throw ++ s'.waiting v = s.waiting v := by
  obtain ⟨u, hu, hd⟩ := callVec_leave h
  have hvec : s'.base.callVec v = if u = v ∧ isPump u = false then [] else s.base.callVec v := by
    cases hb : s'.base
    rw [hb] at hd
    cases Timers.step_cases hd with
    | @throw _ w hookId frames hf =>
      obtain rfl : w = u := Option.some_inj.mp ((innermost_eq hf).symm.trans hu)
      exact s.base.leave_eq w (isPump w) v
  unfold discarded waiting
  rw [hu, hvec]
  by_cases huv : u = v
  · subst huv
    cases isPump u <;> simp
  · simp [huv]

theorem hookThrow_perm (h : s.leave sort .hookThrow = some s') :
    discarded v s .hookThrow ++ s'.waiting v = s.waiting v := by
  obtain ⟨u, hu, hd⟩ := callVec_leave h
  cases hb : s'.base
  rw [hb] at hd
  cases Timers.step_cases hd with
  | @hookThrow _ w frames x xs hf hx =>
    obtain rfl : w = u := Option.some_inj.mp ((innermost_eq hf).symm.trans hu)
    have hvec := State.leave_eq { s.base with callVec := setVec s.base.callVec w xs } w (isPump w) v
    unfold discarded waiting
    rw [hu, hb]
    show _ ++ (State.leave _ w (isPump w) v).map _ = _
    rw [hvec]
    by_cases huv : w = v
    · subst huv
      rw [hx]
      cases isPump w <;> simp [setVec_self]
    · simp [huv, setVec_of_ne _ (Ne.symm huv)]

theorem drop_perm {u : ℕ} {base : State} (h : Timers.step sort s.base (.drop u) = some base) :
    discarded v s (.drop u) ++ (base.callVec v).map ExecutingTimer.callback = s.waiting v := by
  cases Timers.step_cases h with
  | drop hu =>
    unfold discarded waiting
    show (if u = v then _ else _) ++ (setVec s.base.callVec u [] v).map _ = _
    by_cases huv : u = v
    · subst huv
      rw [if_pos rfl, setVec_self, List.map_nil, List.append_nil]
    · rw [if_neg huv, setVec_of_ne _ (Ne.symm huv), List.nil_append]

/-- **A vector**: what comes into it is invoked, dropped, or still there. -/
theorem taken_perm_step (h : s.step sort e = some s') :
    (taken v s e ++ discarded v s e ++ s'.waiting v).Perm (s.waiting v ++ collected v s e) := by
  have hrest {discarded rest : List ℕ} (h : discarded ++ rest = s.waiting v) :
      ([] ++ discarded ++ rest).Perm (s.waiting v ++ []) := by
    rw [List.nil_append, List.append_nil, h]
  have hsame (he : taken v s e = [] ∧ discarded v s e = [] ∧ collected v s e = [])
      (hvec : s'.base.callVec = s.base.callVec) :
      (taken v s e ++ discarded v s e ++ s'.waiting v).Perm (s.waiting v ++ collected v s e) := by
    rw [he.1, he.2.1, he.2.2]
    exact hrest (waiting_of_callVec (congrFun hvec v))
  cases step_cases h with
  | set => exact hsame ⟨rfl, rfl, rfl⟩ (by rw [base_setTimeoutInterval]; rfl)
  | clear => exact hsame ⟨rfl, rfl, rfl⟩ (by rw [base_clearTimeoutInterval]; rfl)
  | resume => exact hsame ⟨rfl, rfl, rfl⟩ (by rw [base_resumeTimerLoopIfIdle])
  | aside he ha =>
    refine hsame ?_ (by rw [ha.base])
    cases e <;> first | exact ⟨rfl, rfl, rfl⟩ | cases he
  | take hb =>
    refine hsame ⟨rfl, rfl, rfl⟩ ?_
    cases Timers.step_cases hb with
    | take => rfl
  | ret hb =>
    refine hsame ⟨rfl, rfl, rfl⟩ ?_
    cases Timers.step_cases hb with
    | ret => rfl
  | done _ hf => exact hsame ⟨rfl, rfl, rfl⟩ (callVec_finish hf)
  | @wake u cause now _ _ _ hp => exact waiting_pollTimers (s := s.consume cause) hp
  | poll _ _ hp => exact waiting_pollTimers hp
  | fire hb =>
    show (taken v s .fire ++ [] ++ _).Perm (s.waiting v ++ [])
    rw [List.append_nil, List.append_nil]
    exact .of_eq (fire_perm hb)
  | throw hl => exact hrest (throw_perm hl)
  | hookThrow hl => exact hrest (hookThrow_perm hl)
  | drop _ hb => exact hrest (drop_perm hb)

/-! ### Runs -/

/-- What an observation gives along a run. -/
def along (sort : UnstableSort) (f : RuntimeTimerState → Event → List ℕ) :
    RuntimeTimerState → List Event → List ℕ
  | _, [] => []
  | s, e :: es => f s e ++ (s.step sort e).elim [] fun s' => along sort f s' es

/-- **Vectors along runs**: what comes into a vector is invoked, dropped, or still there. -/
theorem taken_perm {es : List Event} (h : run (step sort) s es = some s') :
    (along sort (taken v) s es ++ along sort (discarded v) s es ++ s'.waiting v).Perm
      (s.waiting v ++ along sort (collected v) s es) := by
  induction es generalizing s with
  | nil =>
    cases h
    rw [along, along, along, List.append_nil, List.append_nil, List.nil_append]
  | cons e es ih =>
    obtain ⟨t, ht, hr⟩ := Option.bind_eq_some_iff.mp h
    have hstep := List.perm_iff_count.mp (taken_perm_step (v := v) ht)
    have hrest := List.perm_iff_count.mp (ih hr)
    simp only [along, ht, Option.elim_some]
    refine List.perm_iff_count.mpr fun id => ?_
    have hstep := hstep id
    have hrest := hrest id
    simp only [List.count_append] at *
    omega

theorem along_discarded_eq_nil {es : List Event} (h : run (step sort) s es = some s') :
    along sort (discarded v) s es = [] ↔
      RunEach (step sort) (fun s e => discarded v s e = []) s es := by
  induction es generalizing s with
  | nil => exact iff_of_true rfl trivial
  | cons e es ih =>
    obtain ⟨t, ht, hr⟩ := Option.bind_eq_some_iff.mp h
    simp only [along, ht, Option.elim_some, List.append_eq_nil_iff, ih hr, RunEach,
      Option.some_inj, forall_eq']

/-! ### Errors -/

theorem throw_cases (hin : s.innermost = some v) (h : s.step sort .throw = some s') :
    s'.base.timers = s.base.timers ∧ s'.running = s.running ∧
      s'.loops = if isLoop v = true then s.loops.filter (·.vec ≠ v) else s.loops := by
  obtain ⟨f, hf, base, hd, rfl⟩ := leave_cases h
  obtain rfl : f.vec = v := by
    rw [innermost, hf, Option.map_some] at hin
    exact Option.some_inj.mp hin
  cases Timers.step_cases hd with
  | throw =>
    split_ifs
    · exact ⟨rfl, rfl, rfl⟩
    · exact ⟨rfl, rfl, rfl⟩

theorem loops_throw (hin : s.innermost = some v) (h : s.step sort .throw = some s') :
    s'.loops ≠ [] ↔ ∃ l ∈ s.loops, isLoop v = true → l.vec ≠ v := by
  rw [(throw_cases hin h).2.2, Ne, List.eq_nil_iff_forall_not_mem]
  split_ifs with hl
  all_goals simp [hl]

/-- **Callbacks that throw.** From any state to the time when nothing waits in a vector any more,
each callback of the vector, and each that comes into it at later polls, is invoked once exactly
when no event drops any of them. When a callback throws, intervals stay in the list, and there is a
task if one is marked as running exactly when another one is alive or none was marked. -/
theorem throw_survived_iff (sort : UnstableSort) (v : ℕ) :
    (∀ (s s' : RuntimeTimerState) (es : List Event), run (step sort) s es = some s' →
      s'.waiting v = [] →
      ((along sort (taken v) s es).Perm (s.waiting v ++ along sort (collected v) s es) ↔
        RunEach (step sort) (fun s e => discarded v s e = []) s es)) ∧
    ∀ s s' : RuntimeTimerState, s.innermost = some v → s.step sort .throw = some s' →
      (∀ t ∈ s.base.timers, t.repeating = true → t ∈ s'.base.timers) ∧
      ((s'.running = true → s'.loops ≠ []) ↔
        (s.running = true → ∃ l ∈ s.loops, isLoop v = true → l.vec ≠ v)) := by
  constructor
  · intro s s' es hr hempty
    have hperm := taken_perm (v := v) hr
    rw [hempty, List.append_nil] at hperm
    rw [← along_discarded_eq_nil hr]
    constructor
    · intro htaken
      have hlength := hperm.length_eq.trans htaken.length_eq.symm
      rw [List.length_append] at hlength
      exact List.eq_nil_of_length_eq_zero (by omega)
    · intro hnone
      rwa [hnone, List.append_nil] at hperm
  · intro s s' hin h
    obtain ⟨htimers, hrunning, -⟩ := throw_cases hin h
    refine ⟨fun t ht _ => htimers ▸ ht, ?_⟩
    rw [hrunning, loops_throw hin h]

/-- The first of two timeouts runs while a server polls. -/
def pumping : RuntimeTimerState :=
  (run (step insertionSort) (new 0) [.set .timeout 1 true 0, .set .timeout 2 true 0,
    .poll 0 (millis 3), .fire]).getD (new 0)

/-- It throws, and the pump polls once more before the response. -/
theorem throw_survived_pump :
    (∃ s, run (step insertionSort) pumping [.throw, .poll 0 (millis 4), .fire, .ret,
      .done, .drop 0] =
        some s ∧
      (along insertionSort (taken 0) pumping
        [.throw, .poll 0 (millis 4), .fire, .ret, .done, .drop 0]).Perm [1]) ∧
    ∃ s, pumping.step insertionSort .throw = some s ∧ (s.running = true → s.loops ≠ []) := by
  constructor
  · exact ⟨_, rfl, ((throw_survived_iff insertionSort 0).1 pumping _ _ rfl (by decide)).mpr
      (by decide)⟩
  · refine ⟨_, rfl, ((throw_survived_iff insertionSort 0).2 pumping _ rfl rfl).2.mpr fun _ => ?_⟩
    exact ⟨⟨0, millis 1⟩, by decide, by decide⟩

/-- Two timeouts are due and the callback of the first throws. While `require` polls, the second is
lost. While the timer loop polls, the second is lost, the task ends, and the mark stays. While a
server polls and the callback has ended the response, the second is lost with the pump. -/
theorem throw_loses_timer :
    (∃ s, run (step insertionSort) (new 0) [.set .timeout 1 true 0, .set .timeout 2 true 0,
        .poll 2 (millis 3), .fire, .throw] = some s ∧
      s.base.log = [.invoked 0] ∧ s.base.timers = [] ∧ s.base.callVec 2 = []) ∧
    (∃ s, run (step insertionSort) (new 0) [.set .timeout 1 true 0, .set .timeout 2 true 0,
        .wake 1 .sleep (millis 3), .fire, .throw] = some s ∧
      s.base.log = [.invoked 0] ∧ s.base.timers = [] ∧ s.base.callVec 1 = [] ∧
      s.running = true ∧ s.loops = []) ∧
    ∃ s, run (step insertionSort) (new 0) [.set .timeout 1 true 0, .set .timeout 2 true 0,
        .poll 0 (millis 3), .fire, .throw, .drop 0] = some s ∧
      s.base.log = [.invoked 0] ∧ s.base.timers = [] ∧ s.base.callVec 0 = [] := by
  refine ⟨⟨_, rfl, ?_, ?_, ?_⟩, ⟨_, rfl, ?_, ?_, ?_, ?_, ?_⟩, _, rfl, ?_, ?_, ?_⟩ <;> decide

end RuntimeTimerState

end RasterRuntime.Timers
