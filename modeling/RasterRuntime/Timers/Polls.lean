import RasterRuntime.Timers.Model

/-! # The course of a poll

A vector is touched only by the poll that it belongs to: whatever the callbacks do, the callbacks
that a poll has invoked and those that still wait in its vector are together what it began with. -/

namespace RasterRuntime.Timers

open Transition
open Option (some_inj)

theorem setVec_self (callVec : ℕ → List ExecutingTimer) (v : ℕ) (es : List ExecutingTimer) :
    setVec callVec v es v = es := if_pos rfl

theorem setVec_of_ne (callVec : ℕ → List ExecutingTimer) {u v : ℕ} (h : u ≠ v)
    (es : List ExecutingTimer) : setVec callVec v es u = callVec u := if_neg h

theorem State.leave_of_ne (s : State) {u v : ℕ} (h : u ≠ v) (keep : Bool) :
    s.leave v keep u = s.callVec u := by
  unfold State.leave
  split_ifs
  · rfl
  · exact setVec_of_ne s.callVec h []

/-- What one event does. -/
inductive Steps (sort : UnstableSort) (s : State) : Event → State → Prop
  | set (provider : ProviderType) (delay : ℕ) (now : ℤ) :
      Steps sort s (.set provider delay now) (s.setTimeoutInterval provider delay now)
  | clear (id : ℕ) (now : ℤ) : Steps sort s (.clear id now) (s.clearTimeoutInterval id now)
  | take (ids hooks : ℕ) :
      Steps sort s (.take ids hooks)
        { s with nextId := s.nextId + ids, nextHook := s.nextHook + hooks }
  | poll {v : ℕ} (now : ℤ) (hv : v ∉ s.frames.map Frame.vec) :
      Steps sort s (.poll v now) (s.collect sort v now)
  | fire {v : ℕ} {frames : List Frame} {e : ExecutingTimer} {es : List ExecutingTimer}
      (hf : s.frames = ⟨v, none⟩ :: frames) (hv : s.callVec v = e :: es) :
      Steps sort s .fire { s with
        callVec := setVec s.callVec v es
        executingHookId := e.hookId
        frames := ⟨v, some e.hookId⟩ :: frames
        log := s.log ++ [.invoked e.callback] }
  | ret {v hookId : ℕ} {frames : List Frame} (hf : s.frames = ⟨v, some hookId⟩ :: frames) :
      Steps sort s .ret { s with
        timers := destroy hookId s.timers
        executingHookId := 0
        frames := ⟨v, none⟩ :: frames }
  | throw (keep : Bool) {v hookId : ℕ} {frames : List Frame}
      (hf : s.frames = ⟨v, some hookId⟩ :: frames) :
      Steps sort s (.throw keep)
        { s with callVec := s.leave v keep, executingHookId := 0, frames := frames }
  | hookThrow (keep : Bool) {v : ℕ} {frames : List Frame} {e : ExecutingTimer}
      {es : List ExecutingTimer} (hf : s.frames = ⟨v, none⟩ :: frames)
      (hv : s.callVec v = e :: es) :
      Steps sort s (.hookThrow keep) { s with
        callVec := State.leave { s with callVec := setVec s.callVec v es } v keep
        executingHookId := 0
        frames := frames }
  | done {v : ℕ} {frames : List Frame} (hf : s.frames = ⟨v, none⟩ :: frames)
      (hv : s.callVec v = []) : Steps sort s .done { s with frames := frames }
  | drop {v : ℕ} (hv : v ∉ s.frames.map Frame.vec) :
      Steps sort s (.drop v) { s with callVec := setVec s.callVec v [] }

variable {v : ℕ} {sort : UnstableSort} {s s' : State} {e : Event}

theorem step_cases (h : step sort s e = some s') :
    Steps sort s e s' := by
  revert h
  fun_cases step sort s e
  all_goals rintro ⟨⟩
  all_goals constructor
  all_goals assumption

theorem destroy_sublist (hookId : ℕ) (ts : List Timeout) : (destroy hookId ts).Sublist ts := by
  unfold destroy
  split_ifs
  · exact List.filter_sublist
  · exact List.Sublist.refl _

/-- The event sets and clears no timer and starts no poll. -/
def Event.quiet : Event → Bool
  | .set .. => false
  | .clear .. => false
  | .poll .. => false
  | _ => true

theorem timers_subset (he : e.quiet) (h : step sort s e = some s') :
    s'.timers ⊆ s.timers := by
  cases step_cases h with
  | set | clear | poll => cases he
  | ret hf => exact (destroy_sublist _ _).subset
  | take | fire | throw | hookThrow | done | drop => exact fun _ h => h

/-! ### Open polls -/

/-- No vector has two open polls. -/
def State.Separate (s : State) : Prop := (s.frames.map Frame.vec).Nodup

theorem State.Separate.keep (s : State) (e : Event) (s' : State) (h : s.Separate)
    (hs : step sort s e = some s') : s'.Separate := by
  unfold State.Separate at h ⊢
  cases step_cases hs with
  | set | clear | take | drop => exact h
  | poll now hv => exact List.nodup_cons.mpr ⟨hv, h⟩
  | fire hf hv | ret hf =>
    rw [hf] at h
    exact h
  | throw keep hf | hookThrow keep hf hv | done hf hv =>
    rw [hf] at h
    exact (List.nodup_cons.mp h).2

theorem Reachable.separate (h : Reachable sort s) : s.Separate :=
  Reaches.invariant State.Separate.keep h List.nodup_nil

/-- An event that does not end the poll of the vector. -/
def stepWithin (sort : UnstableSort) (v : ℕ) (s : State) (e : Event) : Option State :=
  (step sort s e).filter fun s' => v ∈ s'.frames.map Frame.vec

theorem stepWithin_eq :
    stepWithin sort v s e = some s' ↔ step sort s e = some s' ∧ v ∈ s'.frames.map Frame.vec := by
  unfold stepWithin
  rw [Option.filter_eq_some_iff, decide_eq_true_iff]

/-- The callback that the event takes from the vector. -/
def firing (v : ℕ) (s : State) : Event → List ℕ
  | .fire => if (s.frames.map Frame.vec).head? = some v then
      ((s.callVec v).take 1).map ExecutingTimer.callback else []
  | _ => []

/-- The callbacks that a run takes from the vector. -/
def invokedFrom (sort : UnstableSort) (v : ℕ) : State → List Event → List ℕ
  | _, [] => []
  | s, e :: es => firing v s e ++ (step sort s e).elim [] fun s' => invokedFrom sort v s' es

theorem ne_of_mem_tail {f : Frame} {frames : List Frame} (hs : s.Separate)
    (hf : s.frames = f :: frames) (hv : v ∈ frames.map Frame.vec) : v ≠ f.vec := by
  unfold State.Separate at hs
  rw [hf] at hs
  rintro rfl
  exact (List.nodup_cons.mp hs).1 hv

theorem firing_append (hs : s.Separate) (hv : v ∈ s.frames.map Frame.vec)
    (h : stepWithin sort v s e = some s') :
    firing v s e ++ (s'.callVec v).map ExecutingTimer.callback =
      (s.callVec v).map ExecutingTimer.callback := by
  obtain ⟨h, hv'⟩ := stepWithin_eq.mp h
  cases step_cases h with
  | set | clear | take | ret hf | done hf hu => rfl
  | @poll u now hu =>
    have hne : v ≠ u := fun h => hu (h ▸ hv)
    show (setVec s.callVec u _ v).map _ = _
    rw [setVec_of_ne s.callVec hne]
  | @drop u hu =>
    have hne : v ≠ u := fun h => hu (h ▸ hv)
    show (setVec s.callVec u _ v).map _ = _
    rw [setVec_of_ne s.callVec hne]
  | @fire u frames e es hf hu =>
    unfold firing
    rw [hf]
    show (if some u = some v then _ else _) ++ (setVec s.callVec u es v).map _ = _
    by_cases hvu : v = u
    · subst hvu
      rw [if_pos rfl, setVec_self, hu]
      rfl
    · rw [if_neg fun h => hvu (some_inj.mp h).symm, setVec_of_ne s.callVec hvu]
      rfl
  | throw keep hf =>
    show (s.leave _ keep v).map _ = _
    rw [s.leave_of_ne (ne_of_mem_tail hs hf hv')]
  | hookThrow keep hf hu =>
    have hne := ne_of_mem_tail hs hf hv'
    show (State.leave _ _ keep v).map _ = _
    rw [State.leave_of_ne _ hne]
    show (setVec s.callVec _ _ v).map _ = _
    rw [setVec_of_ne s.callVec hne]

/-- **The course of a poll**: what it has invoked and what waits is what it began with. -/
theorem invokedFrom_append {es : List Event} (hs : s.Separate) (hv : v ∈ s.frames.map Frame.vec)
    (hr : run (stepWithin sort v) s es = some s') :
    invokedFrom sort v s es ++ (s'.callVec v).map ExecutingTimer.callback =
      (s.callVec v).map ExecutingTimer.callback := by
  induction es generalizing s with
  | nil =>
    cases hr
    rfl
  | cons e es ih =>
    obtain ⟨t, ht, hr⟩ := Option.bind_eq_some_iff.mp hr
    obtain ⟨hstep, hv'⟩ := stepWithin_eq.mp ht
    unfold invokedFrom
    rw [hstep, Option.elim_some, List.append_assoc, ih (hs.keep s e t hstep) hv' hr]
    exact firing_append hs hv ht

/-! ### A vector can always be gone through -/

/-- What a poll that goes through its vector leaves. -/
structure Drained (s s' : State) (v : ℕ) (frames : List Frame) : Prop where
  frames_eq : s'.frames = ⟨v, none⟩ :: frames
  empty : s'.callVec v = []
  others : ∀ u, u ≠ v → s'.callVec u = s.callVec u
  log_eq : s'.log = s.log ++ (s.callVec v).map fun e => .invoked e.callback

theorem drain (sort : UnstableSort) {frames : List Frame} :
    ∀ {es : List ExecutingTimer} {s : State}, s.frames = ⟨v, none⟩ :: frames → s.callVec v = es →
      ∃ s', Reaches (stepWithin sort v) s s' ∧ Drained s s' v frames
  | [], s, hf, hv => by
    refine ⟨s, Reaches.refl _ s, hf, hv, fun _ _ => rfl, ?_⟩
    rw [hv]
    exact (List.append_nil _).symm
  | e :: es, s, hf, hv => by
    -- the first entry is invoked and returns
    let s1 : State := { s with
      callVec := setVec s.callVec v es
      executingHookId := e.hookId
      frames := ⟨v, some e.hookId⟩ :: frames
      log := s.log ++ [.invoked e.callback] }
    let s2 : State := { s1 with
      timers := destroy e.hookId s1.timers
      executingHookId := 0
      frames := ⟨v, none⟩ :: frames }
    have h1 : stepWithin sort v s .fire = some s1 := by
      refine stepWithin_eq.mpr ⟨?_, .head _⟩
      unfold step
      dsimp only
      rw [hf]
      dsimp only
      rw [hv]
    have h2 : stepWithin sort v s1 .ret = some s2 := stepWithin_eq.mpr ⟨rfl, .head _⟩
    obtain ⟨s', hr, hd⟩ := drain sort (s := s2) rfl (setVec_self s.callVec v es)
    refine ⟨s', (Reaches.single h1).trans ((Reaches.single h2).trans hr), hd.frames_eq, hd.empty,
      fun u hu => ?_, ?_⟩
    · rw [hd.others u hu]
      exact setVec_of_ne s.callVec hu es
    · have hlog := hd.log_eq
      rw [show s2.callVec v = es from setVec_self s.callVec v es] at hlog
      rw [hlog, hv, List.map_cons]
      exact List.append_assoc _ _ _

theorem reaches_of_within (h : Reaches (stepWithin sort v) s s') : Reaches (step sort) s s' :=
  h.mono fun _ _ _ h => (stepWithin_eq.mp h).1

end RasterRuntime.Timers
