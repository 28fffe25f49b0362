import RasterRuntime.Timers.Cleared
import RasterRuntime.Timers.Loop

/-! # What an event does to timers and tasks

* `Steps`: what one event does.
* `step_base`: to the list of timers and the vectors, an event is a run of the events of
  `Timers.Model`.
* `vacant_step`: the vector of a timer loop is empty between its polls. -/

namespace RasterRuntime.Timers

open Transition
open Option (bind_eq_some_iff map_eq_some_iff some_inj)

namespace RuntimeTimerState

variable {sort : UnstableSort}

/-! ### References -/

/-- Only references and notifications change, and no notification is taken back. -/
structure Aside (s s' : RuntimeTimerState) : Prop where
  base : s'.base = s.base
  clock : s'.clock = s.clock
  running : s'.running = s.running
  deadline : s'.deadline = s.deadline
  loops : s'.loops = s.loops
  notified : s.notified = true → s'.notified = true
  driverWake : s.driverWake = true → s'.driverWake = true

theorem Aside.refl (s : RuntimeTimerState) : s.Aside s := ⟨rfl, rfl, rfl, rfl, rfl, id, id⟩

theorem Aside.trans {s t u : RuntimeTimerState} (h : s.Aside t) (h' : t.Aside u) : s.Aside u where
  base := h'.base.trans h.base
  clock := h'.clock.trans h.clock
  running := h'.running.trans h.running
  deadline := h'.deadline.trans h.deadline
  loops := h'.loops.trans h.loops
  notified := h'.notified ∘ h.notified
  driverWake := h'.driverWake ∘ h.driverWake

theorem aside_counts (s : RuntimeTimerState) (referenced : ℕ → Bool) (handles refs inflight : ℕ)
    (registered : Bool) : s.Aside { s with
      referenced := referenced
      handles := handles
      refs := refs
      httpInflight := inflight
      registered := registered } :=
  ⟨rfl, rfl, rfl, rfl, rfl, id, id⟩

theorem aside_wakeNativeDrivers (s : RuntimeTimerState) : s.Aside s.wakeNativeDrivers :=
  ⟨rfl, rfl, rfl, rfl, rfl, id, fun h => by rw [wakeNativeDrivers, h, Bool.true_or]⟩

theorem aside_decrementRef (s : RuntimeTimerState) : s.Aside s.decrementRef := by
  unfold decrementRef
  dsimp only
  split_ifs
  · exact (aside_counts s _ _ _ _ _).trans (aside_wakeNativeDrivers _)
  · exact aside_counts s _ _ _ _ _

theorem aside_reference (s : RuntimeTimerState) (id : ℕ) : s.Aside (s.reference id) := by
  unfold reference
  split_ifs
  · exact .refl s
  · exact aside_counts s _ _ _ _ _

theorem aside_unreference (s : RuntimeTimerState) (id : ℕ) : s.Aside (s.unreference id) := by
  unfold unreference
  split_ifs
  · exact (aside_counts s _ _ _ _ _).trans (aside_decrementRef _)
  · exact .refl s

theorem aside_foldl (s : RuntimeTimerState) (ids : List ℕ) : s.Aside (ids.foldl unreference s) := by
  induction ids generalizing s with
  | nil => exact .refl s
  | cons id ids ih => exact (aside_unreference s id).trans (ih _)

theorem aside_setTimerReferenced (s : RuntimeTimerState) (id : ℕ) (referenced : Bool) :
    s.Aside (s.setTimerReferenced id referenced) := by
  unfold setTimerReferenced
  split_ifs
  · exact ⟨rfl, rfl, rfl, rfl, rfl, fun h => by rw [h, Bool.true_or], fun h => h⟩
  · exact .refl s

/-- The event is about references and the drivers. -/
def Event.isAside : Event → Bool
  | .ref _ | .unref _ | .collect _ | .hold | .release | .http _ | .register | .signal => true
  | _ => false

/-! ### Events -/

/-- What one event does. -/
inductive Steps (sort : UnstableSort) (s : RuntimeTimerState) : Event → RuntimeTimerState → Prop
  | set {provider : ProviderType} {delay : ℕ} {referenced : Bool} {now : ℤ} (hnow : s.clock ≤ now) :
      Steps sort s (.set provider delay referenced now)
        (s.setTimeoutInterval provider delay referenced now)
  | clear {id : ℕ} {now : ℤ} (hnow : s.clock ≤ now) :
      Steps sort s (.clear id now) (s.clearTimeoutInterval id now)
  | take {ids hooks : ℕ} {base : State}
      (hb : Timers.step sort s.base (.take ids hooks) = some base) :
      Steps sort s (.take ids hooks) { s with base := base }
  | resume : Steps sort s .resume s.resumeTimerLoopIfIdle
  | wake {v : ℕ} {cause : Cause} {now : ℤ} {s' : RuntimeTimerState} (hnow : s.clock ≤ now)
      (hv : v ∈ s.loops.map Sleeper.vec) (hp : (s.consume cause).pollTimers sort v now = some s') :
      Steps sort s (.wake v cause now) s'
  | poll {v : ℕ} {now : ℤ} {s' : RuntimeTimerState} (hnow : s.clock ≤ now)
      (hv : isLoop v = false) (hp : s.pollTimers sort v now = some s') :
      Steps sort s (.poll v now) s'
  | fire {base : State} (hb : Timers.step sort s.base .fire = some base) :
      Steps sort s .fire { s with base := base }
  | ret {base : State} (hb : Timers.step sort s.base .ret = some base) :
      Steps sort s .ret { s with base := base }
  | throw {s' : RuntimeTimerState} (hl : s.leave sort .throw = some s') : Steps sort s .throw s'
  | hookThrow {s' : RuntimeTimerState} (hl : s.leave sort .hookThrow = some s') :
      Steps sort s .hookThrow s'
  | done {v : ℕ} {s' : RuntimeTimerState} (hv : s.innermost = some v)
      (hf : s.finish sort v = some s') : Steps sort s .done s'
  | drop {v : ℕ} {base : State} (hv : isPump v = true)
      (hb : Timers.step sort s.base (.drop v) = some base) :
      Steps sort s (.drop v) { s with base := base }
  | aside {e : Event} {s' : RuntimeTimerState} (he : e.isAside = true) (ha : s.Aside s') :
      Steps sort s e s'

variable {s s' : RuntimeTimerState} {v : ℕ}

theorem aside_of_step {e : Event} (he : e.isAside) (h : s.step sort e = some s') : s.Aside s' := by
  cases e with
  | ref id =>
    obtain ⟨-, rfl⟩ := by simpa [step] using h
    exact (aside_reference s id).trans (aside_setTimerReferenced _ id true)
  | unref id =>
    obtain ⟨-, rfl⟩ := by simpa [step] using h
    exact (aside_unreference s id).trans (aside_setTimerReferenced _ id false)
  | collect id =>
    cases h
    unfold collectHandle
    split_ifs
    · exact .refl s
    · exact aside_unreference s id
  | hold | register =>
    cases h
    exact aside_counts s _ _ _ _ _
  | release =>
    obtain ⟨-, rfl⟩ := by simpa [step] using h
    exact (aside_counts s _ _ _ _ _).trans (aside_decrementRef _)
  | http begins =>
    cases begins with
    | true =>
      cases h
      exact (aside_counts s _ _ _ _ _).trans (aside_wakeNativeDrivers _)
    | false =>
      obtain ⟨-, rfl⟩ := by simpa [step] using h
      exact (aside_counts s _ _ _ _ _).trans (aside_wakeNativeDrivers _)
  | signal =>
    cases h
    exact aside_wakeNativeDrivers s
  | _ => cases he

theorem step_cases {e : Event} (h : s.step sort e = some s') : Steps sort s e s' := by
  cases e with
  | set | clear =>
    unfold step at h
    dsimp only at h
    split_ifs at h with hnow
    rw [← some_inj.mp h]
    constructor
    exact Int.not_lt.mp hnow
  | resume =>
    rw [← some_inj.mp h]
    constructor
  | ref | unref | collect | hold | release | http | register | signal =>
    exact .aside rfl (aside_of_step rfl h)
  | take | fire | ret =>
    unfold step at h
    obtain ⟨base, hb, rfl⟩ := map_eq_some_iff.mp h
    constructor
    exact hb
  | wake v cause now =>
    unfold step at h
    dsimp only at h
    split_ifs at h with hg
    obtain ⟨hnow, hv⟩ := not_or.mp hg
    exact .wake (Int.not_lt.mp hnow) (not_not.mp hv) h
  | poll v now =>
    unfold step at h
    dsimp only at h
    split_ifs at h with hg
    obtain ⟨hnow, hv⟩ := not_or.mp hg
    exact .poll (Int.not_lt.mp hnow) (Bool.eq_false_iff.mpr hv) h
  | throw => exact .throw h
  | hookThrow => exact .hookThrow h
  | done =>
    unfold step at h
    obtain ⟨v, hv, hf⟩ := bind_eq_some_iff.mp h
    exact .done hv hf
  | drop v =>
    unfold step at h
    dsimp only at h
    split_ifs at h with hv
    obtain ⟨base, hb, rfl⟩ := map_eq_some_iff.mp h
    exact .drop hv hb

@[simp] theorem base_setTimeoutInterval (s : RuntimeTimerState) (provider : ProviderType)
    (delay : ℕ) (referenced : Bool) (now : ℤ) :
    (s.setTimeoutInterval provider delay referenced now).base =
      s.base.setTimeoutInterval provider delay now := by
  unfold setTimeoutInterval
  dsimp only
  split_ifs <;> rfl

@[simp] theorem base_clearTimeoutInterval (s : RuntimeTimerState) (id : ℕ) (now : ℤ) :
    (s.clearTimeoutInterval id now).base = s.base.clearTimeoutInterval id now := by
  unfold clearTimeoutInterval
  dsimp only
  split_ifs
  · exact (aside_unreference _ id).base
  · rfl

@[simp] theorem base_resumeTimerLoopIfIdle (s : RuntimeTimerState) :
    s.resumeTimerLoopIfIdle.base = s.base := by
  unfold resumeTimerLoopIfIdle
  split_ifs <;> rfl

@[simp] theorem base_settle (s : RuntimeTimerState) (v : ℕ) (has : Bool) :
    (s.settle v has).base = s.base := by
  unfold settle
  split_ifs <;> rfl

theorem finish_cases (h : s.finish sort v = some s') :
    ∃ has rest base, Timers.step sort s.base .done = some base ∧
      s' = settle { s with base := base, hasItems := rest } v has := by
  unfold finish at h
  split at h
  next has rest _ =>
    obtain ⟨base, hd, rfl⟩ := map_eq_some_iff.mp h
    exact ⟨has, rest, base, hd, rfl⟩
  · cases h

theorem pollTimers_cases {now : ℤ} (h : s.pollTimers sort v now = some s') :
    Timers.step sort s.base (.poll v now) = some (s.base.collect sort v now) ∧
      v ∉ s.base.frames.map Frame.vec ∧
      ((s.base.collect sort v now).callVec v ≠ [] ∧
          s' = s.record v now (s.base.collect sort v now) ∨
        (s.base.collect sort v now).callVec v = [] ∧
          (s.record v now (s.base.collect sort v now)).finish sort v = some s') := by
  obtain ⟨base, hp, h⟩ := bind_eq_some_iff.mp h
  cases Timers.step_cases hp with
  | poll now hv =>
    refine ⟨hp, hv, ?_⟩
    split_ifs at h with hvec
    · exact .inr ⟨hvec, h⟩
    · exact .inl ⟨hvec, (some_inj.mp h).symm⟩

theorem leave_cases {error : Bool → Timers.Event} (h : s.leave sort error = some s') :
    ∃ f ∈ s.base.frames.head?, ∃ base,
      Timers.step sort s.base (error (isPump f.vec)) = some base ∧
      s' = if isLoop f.vec then endLoop { s with base := base, hasItems := s.hasItems.tail } f.vec
        else { s with base := base, hasItems := s.hasItems.tail } := by
  obtain ⟨v, hv, h⟩ := bind_eq_some_iff.mp h
  obtain ⟨f, hf, rfl⟩ := map_eq_some_iff.mp hv
  obtain ⟨base, hd, rfl⟩ := map_eq_some_iff.mp h
  exact ⟨f, hf, base, hd, rfl⟩

/-- A timer loop does not keep the vector of a poll that an error leaves. -/
def Disowned (s : State) : Timers.Event → Prop
  | .throw keep => keep = true → ∀ f ∈ s.frames.head?, isLoop f.vec = false
  | .hookThrow keep => keep = true → ∀ f ∈ s.frames.head?, isLoop f.vec = false
  | _ => True

/-- The events of the list of timers that lead from one state to the other. -/
def BaseRun (sort : UnstableSort) (s s' : State) : Prop :=
  ∃ es, run (Timers.step sort) s es = some s' ∧ RunEach (Timers.step sort) Disowned s es

theorem BaseRun.refl (s : State) : BaseRun sort s s := ⟨[], rfl, trivial⟩

theorem BaseRun.cons {s t u : State} {e : Timers.Event} (h : Timers.step sort s e = some t)
    (hd : Disowned s e) (hr : BaseRun sort t u) : BaseRun sort s u := by
  obtain ⟨es, hes, heach⟩ := hr
  refine ⟨e :: es, by rw [run_cons _ h, hes], hd, fun t' ht' => ?_⟩
  rw [← some_inj.mp (h.symm.trans ht')]
  exact heach

theorem BaseRun.single {s t : State} {e : Timers.Event} (h : Timers.step sort s e = some t)
    (hd : Disowned s e) : BaseRun sort s t := .cons h hd (.refl t)

theorem BaseRun.finish (h : s.finish sort v = some s') : BaseRun sort s.base s'.base := by
  obtain ⟨has, rest, base, hd, rfl⟩ := finish_cases h
  rw [base_settle]
  exact .single hd trivial

theorem BaseRun.pollTimers {now : ℤ}
    (h : s.pollTimers sort v now = some s') : BaseRun sort s.base s'.base := by
  obtain ⟨hp, -, ⟨-, rfl⟩ | ⟨-, hf⟩⟩ := pollTimers_cases h
  · exact .single hp trivial
  · exact .cons hp trivial (BaseRun.finish hf)

theorem BaseRun.leave {e : Bool → Timers.Event}
    (hdis : ∀ k, (k = true → ∀ f ∈ s.base.frames.head?, isLoop f.vec = false) →
      Disowned s.base (e k)) (h : s.leave sort e = some s') :
    BaseRun sort s.base s'.base := by
  obtain ⟨f, hf, base, hd, rfl⟩ := leave_cases h
  have hr : BaseRun sort s.base base := by
    refine .single hd (hdis _ fun hk g hg => ?_)
    rw [Option.mem_unique hg hf]
    exact isLoop_of_isPump hk
  split_ifs
  · exact hr
  · exact hr

/-- **Refinement**: an event is a run of the events of the list of timers. -/
theorem step_base {e : Event} (h : s.step sort e = some s') : BaseRun sort s.base s'.base := by
  cases step_cases h with
  | @set provider delay referenced now _ =>
    rw [base_setTimeoutInterval]
    exact .single (e := .set provider delay now) rfl trivial
  | @clear id now _ =>
    rw [base_clearTimeoutInterval]
    exact .single (e := .clear id now) rfl trivial
  | aside _ ha =>
    rw [ha.base]
    exact .refl _
  | resume =>
    rw [base_resumeTimerLoopIfIdle]
    exact .refl _
  | take hb | fire hb | ret hb | drop _ hb => exact .single hb trivial
  | @wake v cause now _ _ _ hp => exact BaseRun.pollTimers (s := s.consume cause) hp
  | poll _ _ hp => exact BaseRun.pollTimers hp
  | throw hl => exact BaseRun.leave (e := .throw) (fun _ h => h) hl
  | hookThrow hl => exact BaseRun.leave (e := .hookThrow) (fun _ h => h) hl
  | done _ hf => exact BaseRun.finish hf

/-- The vector of a timer loop is empty between its polls. -/
def Vacant (s : State) : Prop :=
  ∀ v, isLoop v = true → v ∉ s.frames.map Frame.vec → s.callVec v = []

theorem leave_of_disowned {s : State} {keep : Bool} (hloop : isLoop v)
    (hd : keep → isLoop v = false) : s.leave v keep v = [] := by
  cases keep with
  | false => exact setVec_self s.callVec v []
  | true => cases hloop.symm.trans (hd rfl)

theorem Vacant.rest {s : State} {f : Frame} {frames : List Frame} (h : Vacant s)
    (hf : s.frames = f :: frames) (hloop : isLoop v) (hne : v ≠ f.vec)
    (hv : v ∉ frames.map Frame.vec) : s.callVec v = [] := by
  refine h v hloop ?_
  rw [hf]
  exact List.not_mem_cons_of_ne_of_not_mem hne hv

theorem Vacant.keep (s : State) (e : Timers.Event) (s' : State) (h : Vacant s) (hd : Disowned s e)
    (hs : Timers.step sort s e = some s') : Vacant s' := by
  intro u hloop hu
  cases Timers.step_cases hs with
  | set | clear | take => exact h u hloop hu
  | @poll v now hv =>
    obtain ⟨hne, hu⟩ := List.ne_and_not_mem_of_not_mem_cons hu
    exact (setVec_of_ne s.callVec hne _).trans (h u hloop hu)
  | @fire v frames e es hf hv =>
    obtain ⟨hne, hu⟩ := List.ne_and_not_mem_of_not_mem_cons hu
    exact (setVec_of_ne s.callVec hne es).trans (h.rest hf hloop hne hu)
  | ret hf =>
    refine h u hloop ?_
    rw [hf]
    exact hu
  | @throw keep v hookId frames hf =>
    show s.leave v keep u = []
    by_cases hne : u = v
    · subst hne
      exact leave_of_disowned hloop fun hk => hd hk _ (by rw [hf]; rfl)
    · exact (s.leave_of_ne hne keep).trans (h.rest hf hloop hne hu)
  | @hookThrow keep v frames e es hf hv =>
    show State.leave _ v keep u = []
    by_cases hne : u = v
    · subst hne
      exact leave_of_disowned hloop fun hk => hd hk _ (by rw [hf]; rfl)
    · rw [State.leave_of_ne _ hne]
      exact (setVec_of_ne s.callVec hne es).trans (h.rest hf hloop hne hu)
  | @done v frames hf hv =>
    by_cases hne : u = v
    · rw [hne]
      exact hv
    · exact h.rest hf hloop hne hu
  | @drop v hv =>
    by_cases hne : u = v
    · rw [hne]
      exact setVec_self s.callVec v []
    · exact (setVec_of_ne s.callVec hne []).trans (h u hloop hu)

theorem vacant_step {e : Event} (h : Vacant s.base)
    (hs : s.step sort e = some s') : Vacant s'.base := by
  obtain ⟨es, hr, heach⟩ := step_base hs
  exact heach.invariant Vacant.keep h hr

end RuntimeTimerState

end RasterRuntime.Timers
