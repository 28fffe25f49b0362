import RasterRuntime.Timers.Polls

/-! # Cleared timers

After a timer is cleared, the list of timers has no callback of it any more, and none comes back.
But clearing does not look at the vectors of polls: a callback that is due and already in a vector
is invoked all the same. -/

namespace RasterRuntime.Timers

open Transition
open List (map_cons mem_append mem_cons mem_filterMap mem_singleton not_mem_nil)

/-- A callback of the timer is due and waits in a vector. -/
def State.Pending (s : State) (id : ℕ) : Prop := ∃ v, ∃ e ∈ s.callVec v, e.callback = id

/-- Ids are unique and not yet to come, and an entry has its own callback or none. -/
structure Ids (s : State) : Prop where
  nodup : (s.timers.map Timeout.id).Nodup
  lt : ∀ t ∈ s.timers, t.id < s.nextId
  own : ∀ t ∈ s.timers, ∀ cb, t.callback = some cb → cb = t.id

/-- No callback of the timer is anywhere, and its id is taken. -/
structure Gone (s : State) (id : ℕ) : Prop where
  taken : id < s.nextId
  timers : ∀ t ∈ s.timers, t.callback ≠ some id
  vecs : ∀ v, ∀ e ∈ s.callVec v, e.callback ≠ id

/-! ### The list of timers -/

/-- The entry is that of before, or what clearing it has left of it. -/
structure Timeout.Of (t t' : Timeout) : Prop where
  id : t.id = t'.id
  hookId : t.hookId = t'.hookId
  rest : t.callback = none ∨ t.callback = t'.callback ∧ t.pendingDestroy = t'.pendingDestroy

/-- The list is that of before with entries left out. -/
abbrev Thinned (ts' ts : List Timeout) : Prop := List.SublistForall₂ Timeout.Of ts' ts

section Lists

variable {id : ℕ} {now : ℤ} {ts ts' : List Timeout} {t : Timeout}

theorem Timeout.Of.refl (t : Timeout) : t.Of t := ⟨rfl, rfl, .inr ⟨rfl, rfl⟩⟩

theorem Thinned.of_sublist (h : ts'.Sublist ts) : Thinned ts' ts := by
  induction h with
  | slnil => exact .nil
  | cons _ _ ih => exact .cons_right ih
  | cons_cons t _ ih => exact .cons (.refl t) ih

theorem Thinned.map_sublist {g : Timeout → ℕ} (hg : ∀ t t' : Timeout, t.Of t' → g t = g t')
    (h : Thinned ts' ts) : (ts'.map g).Sublist (ts.map g) := by
  induction h with
  | nil => exact List.nil_sublist _
  | cons ht _ ih =>
    rw [map_cons, map_cons, hg _ _ ht]
    exact ih.cons_cons _
  | cons_right _ ih => exact ih.cons _

theorem Thinned.mem (h : Thinned ts' ts) (ht : t ∈ ts') : ∃ t' ∈ ts, t.Of t' := by
  induction h <;> grind

theorem thinned_clear (hookId : ℕ) : Thinned (updateFirst id (·.clear hookId now) ts) ts := by
  fun_induction updateFirst id (·.clear hookId now) ts with
  | case1 => exact .nil
  | case2 t ts _ => exact .cons ⟨rfl, rfl, .inl rfl⟩ (Thinned.of_sublist (List.Sublist.refl _))
  | case3 t ts _ ih => exact .cons (.refl t) ih

theorem thinned_remaining : Thinned (ts.filterMap (Timeout.remaining now)) ts := by
  induction ts with
  | nil => exact .nil
  | cons t ts ih =>
    rw [List.filterMap_cons]
    cases hr : t.remaining now with
    | none => exact .cons_right ih
    | some t' =>
      refine .cons ?_ ih
      revert hr
      fun_cases Timeout.remaining now t <;> rintro ⟨⟩ <;> exact ⟨rfl, rfl, .inr ⟨rfl, rfl⟩⟩

theorem eq_of_mem_updateFirst {f : Timeout → Timeout} (hn : (ts.map Timeout.id).Nodup)
    (h : t ∈ updateFirst id f ts) (hid : t.id = id) : ∃ t' ∈ ts, t = f t' := by
  fun_induction updateFirst id f ts with
  | case1 => cases h
  | case2 t' ts ht' =>
    rcases mem_cons.mp h with rfl | h
    · exact ⟨t', .head _, rfl⟩
    · exact absurd (ht' ▸ hid ▸ List.mem_map_of_mem h) (List.nodup_cons.mp hn).1
  | case3 t' ts ht' ih =>
    rcases mem_cons.mp h with rfl | h
    · exact absurd hid ht'
    · obtain ⟨t'', hmem, heq⟩ := ih (List.nodup_cons.mp hn).2 h
      exact ⟨t'', .tail _ hmem, heq⟩

end Lists

variable {now : ℤ} {sort : UnstableSort} {s s' : State} {id : ℕ} {t : Timeout} {v : ℕ}

theorem due_callback {e : ExecutingTimer} (h : t.due now = some e) :
    t.callback = some e.callback := by
  unfold Timeout.due at h
  split at h
  · obtain ⟨cb, hcb, rfl⟩ := Option.map_eq_some_iff.mp h
    exact hcb
  · cases h

/-! ### What a step does -/

/-- A step leaves entries out of the list of timers, or adds one; what comes into a vector is the
callback of an entry. -/
structure TimersStep (s s' : State) : Prop where
  timers : Thinned s'.timers s.timers ∨ ∃ provider delay now,
    s' = s.setTimeoutInterval provider delay now
  nextId : s.nextId ≤ s'.nextId
  nextHook : s.nextHook ≤ s'.nextHook
  vecs : ∀ v, ∀ e ∈ s'.callVec v, e ∈ s.callVec v ∨ ∃ t ∈ s.timers, t.callback = some e.callback

theorem mem_setVec {callVec : ℕ → List ExecutingTimer} {es : List ExecutingTimer}
    {P : ExecutingTimer → Prop} (h : ∀ e ∈ es, e ∈ callVec v ∨ P e) :
    ∀ u, ∀ e ∈ setVec callVec v es u, e ∈ callVec u ∨ P e := by
  intro u e he
  unfold setVec at he
  split_ifs at he with hu
  · rw [hu]
    exact h e he
  · exact .inl he

theorem mem_leave (s : State) (v : ℕ) (keep : Bool) :
    ∀ u, ∀ e ∈ s.leave v keep u, e ∈ s.callVec u := by
  intro u e he
  unfold State.leave at he
  split_ifs at he
  · exact he
  · exact (mem_setVec (P := fun _ => False) (by simp) u e he).resolve_right id

theorem step_timers {e : Event} (h : step sort s e = some s') : TimersStep s s' := by
  have hsame : Thinned s.timers s.timers := .of_sublist (List.Sublist.refl _)
  have htail {v : ℕ} {e : ExecutingTimer} {es : List ExecutingTimer} (hv : s.callVec v = e :: es) :
      ∀ u, ∀ x ∈ setVec s.callVec v es u,
        x ∈ s.callVec u ∨ ∃ t ∈ s.timers, t.callback = some x.callback :=
    mem_setVec fun x hx => .inl (by rw [hv]; exact .tail _ hx)
  cases step_cases h with
  | set provider delay now =>
    exact ⟨.inr ⟨provider, delay, now, rfl⟩, Nat.le_succ _, Nat.le_succ _, fun _ _ h => .inl h⟩
  | clear id now =>
    exact ⟨.inl (thinned_clear _), Nat.le_refl _, Nat.le_refl _, fun _ _ h => .inl h⟩
  | take ids hooks =>
    exact ⟨.inl hsame, Nat.le_add_right _ _, Nat.le_add_right _ _, fun _ _ h => .inl h⟩
  | poll now hv =>
    refine ⟨.inl thinned_remaining, Nat.le_refl _, Nat.le_refl _, mem_setVec fun e he => ?_⟩
    rcases mem_append.mp ((sort.perm _).mem_iff.mp he) with he | he
    · exact .inl he
    · obtain ⟨t, ht, hd⟩ := mem_filterMap.mp he
      exact .inr ⟨t, ht, due_callback hd⟩
  | fire hf hv => exact ⟨.inl hsame, Nat.le_refl _, Nat.le_refl _, htail hv⟩
  | ret hf =>
    exact ⟨.inl (.of_sublist (destroy_sublist _ _)), Nat.le_refl _, Nat.le_refl _,
      fun _ _ h => .inl h⟩
  | throw keep hf =>
    exact ⟨.inl hsame, Nat.le_refl _, Nat.le_refl _, fun u e he => .inl (mem_leave s _ keep u e he)⟩
  | hookThrow keep hf hv =>
    exact ⟨.inl hsame, Nat.le_refl _, Nat.le_refl _, fun u e he =>
      htail hv u e (mem_leave _ _ keep u e he)⟩
  | done hf hv => exact ⟨.inl hsame, Nat.le_refl _, Nat.le_refl _, fun _ _ h => .inl h⟩
  | drop hv => exact ⟨.inl hsame, Nat.le_refl _, Nat.le_refl _, mem_setVec nofun⟩

/-! ### Invariants -/

theorem nodup_concat {g : Timeout → ℕ} {n : ℕ} {ts : List Timeout} (hn : (ts.map g).Nodup)
    (hlt : ∀ t ∈ ts, g t < n) (ht : g t = n) : ((ts ++ [t]).map g).Nodup := by
  rw [List.map_append, List.map_singleton, ← List.concat_eq_append]
  refine hn.concat fun hi => ?_
  obtain ⟨u, hu, hut⟩ := List.mem_map.mp hi
  have := hlt u hu
  omega

theorem Ids.keep (s : State) (e : Event) (s' : State) (h : Ids s) (hs : step sort s e = some s') :
    Ids s' := by
  have hstep := step_timers hs
  rcases hstep.timers with hthin | ⟨provider, delay, now, rfl⟩
  · refine ⟨(hthin.map_sublist fun _ _ h => h.id).nodup h.nodup, fun t ht => ?_,
      fun t ht cb hcb => ?_⟩
    all_goals obtain ⟨t', ht', hof⟩ := hthin.mem ht
    · have := h.lt t' ht'
      have := hstep.nextId
      have := hof.id
      omega
    · rw [hof.id]
      rcases hof.rest with hnone | ⟨hcb', -⟩
      · cases hnone.symm.trans hcb
      · exact h.own t' ht' cb (hcb' ▸ hcb)
  · exact ⟨nodup_concat h.nodup h.lt rfl, forall_mem_concat.mpr ⟨fun t ht =>
      Nat.lt_succ_of_lt (h.lt t ht), Nat.lt_succ_self _⟩,
      forall_mem_concat.mpr ⟨h.own, fun cb hcb => (Option.some_inj.mp hcb).symm⟩⟩

theorem ids_init : Ids State.init where
  nodup := List.nodup_nil
  lt := nofun
  own := nofun

theorem Reachable.ids (h : Reachable sort s) : Ids s :=
  Reaches.invariant Ids.keep h ids_init

theorem Gone.keep (s : State) (e : Event) (s' : State) (h : Gone s id)
    (hs : step sort s e = some s') : Gone s' id := by
  have hstep := step_timers hs
  refine ⟨Nat.lt_of_lt_of_le h.taken hstep.nextId, ?_, fun v e he => ?_⟩
  · rcases hstep.timers with hthin | ⟨provider, delay, now, rfl⟩
    · intro t ht hcb
      obtain ⟨t', ht', hof⟩ := hthin.mem ht
      rcases hof.rest with hnone | ⟨hcb', -⟩
      · cases hnone.symm.trans hcb
      · exact h.timers t' ht' (hcb' ▸ hcb)
    · exact forall_mem_concat.mpr
        ⟨h.timers, fun hcb => Nat.ne_of_gt h.taken (Option.some_inj.mp hcb)⟩
  · rcases hstep.vecs v e he with he | ⟨t, ht, hcb⟩
    · exact h.vecs v e he
    · rintro rfl
      exact h.timers t ht hcb

/-- What a step adds to the log: its callbacks come from a vector. -/
theorem step_log {e : Event} (h : step sort s e = some s') :
    ∃ new, s'.log = s.log ++ new ∧
      ∀ id, Obs.invoked id ∈ new → s.Pending id := by
  cases step_cases h with
  | clear id now => exact ⟨[.cleared id], rfl, nofun⟩
  | @fire v frames e es hf hv =>
    refine ⟨_, rfl, fun id hid => ⟨v, e, ?_, (Obs.invoked.inj (mem_singleton.mp hid)).symm⟩⟩
    rw [hv]
    exact .head _
  | set | take | poll | ret | throw | hookThrow | done | drop =>
    exact ⟨[], (List.append_nil _).symm, nofun⟩

/-- A timer that is gone is not invoked any more. -/
theorem Gone.not_invoked {es : List Event} (h : Gone s id) (hr : run (step sort) s es = some s') :
    ∃ new, s'.log = s.log ++ new ∧ Obs.invoked id ∉ new := by
  induction es generalizing s with
  | nil =>
    rw [← Option.some_inj.mp hr]
    exact ⟨[], (List.append_nil _).symm, not_mem_nil⟩
  | cons e es ih =>
    rw [Transition.run] at hr
    obtain ⟨t, ht, hr⟩ := Option.bind_eq_some_iff.mp hr
    obtain ⟨new, hnew, hinv⟩ := step_log ht
    obtain ⟨new', hnew', hno⟩ := ih (h.keep s e t ht) hr
    refine ⟨new ++ new', by rw [hnew', hnew, List.append_assoc], fun hm => ?_⟩
    rcases mem_append.mp hm with hm | hm
    · obtain ⟨v, e', he', hcb⟩ := hinv id hm
      exact h.vecs v e' he' hcb
    · exact hno hm

/-- Clearing a timer leaves nothing of it but what waits in a vector. -/
theorem Ids.gone_clear (sort : UnstableSort) (h : Ids s) (hid : id < s.nextId)
    (hp : ¬ s.Pending id) (now : ℤ) :
    Gone (s.clearTimeoutInterval id now) id where
  taken := hid
  timers := by
    intro t ht hcb
    have hown := (@Ids.keep sort s (.clear id now) _ h rfl).own t ht id hcb
    obtain ⟨t', -, rfl⟩ := eq_of_mem_updateFirst h.nodup ht hown.symm
    exact absurd hcb (by simp [Timeout.clear])
  vecs := fun v e he hcb => hp ⟨v, e, he, hcb⟩

/-! ### What waits can be invoked -/

theorem idle (sort : UnstableSort) {f : Frame} {frames : List Frame} (h : s.frames = f :: frames) :
    ∃ s', Reaches (step sort) s s' ∧ s'.frames = ⟨f.vec, none⟩ :: frames ∧
      s'.callVec = s.callVec ∧ s'.log = s.log := by
  obtain ⟨v, executing⟩ := f
  cases executing with
  | none => exact ⟨s, Reaches.refl _ s, h, rfl, rfl⟩
  | some hookId =>
    refine ⟨{ s with
      timers := destroy hookId s.timers
      executingHookId := 0
      frames := ⟨v, none⟩ :: frames }, Reaches.single (e := Event.ret) ?_, rfl, rfl, rfl⟩
    unfold step
    rw [h]

/-- **What waits in a vector can be invoked**: the polls inside are finished first. -/
theorem invoked_of_pending (sort : UnstableSort) : ∀ {frames : List Frame} {s : State},
    s.frames = frames → s.Pending id →
      ∃ s' new, Reaches (step sort) s s' ∧ s'.log = s.log ++ new ∧ Obs.invoked id ∈ new
  | [], s, hf, ⟨v, e, he, hcb⟩ => by
    -- the caller of the vector starts its next poll
    have h1 : step sort s (.poll v 0) = some (s.collect sort v 0) := by
      unfold step
      rw [hf]
      rfl
    have hmem : e ∈ (s.collect sort v 0).callVec v := by
      show e ∈ setVec s.callVec v _ v
      rw [setVec_self, (sort.perm _).mem_iff]
      exact List.mem_append_left _ he
    obtain ⟨s', hr, hd⟩ := drain sort (s := s.collect sort v 0) rfl rfl
    refine ⟨s', _, (Reaches.single h1).trans (reaches_of_within hr), hd.log_eq, ?_⟩
    rw [← hcb]
    exact List.mem_map_of_mem hmem
  | f :: frames, s, hf, ⟨v, e, he, hcb⟩ => by
    obtain ⟨s1, hr1, hf1, hv1, hl1⟩ := idle sort hf
    obtain ⟨s2, hr2, hd⟩ := drain sort hf1 rfl
    have hr2 := reaches_of_within hr2
    have hlog2 := hd.log_eq
    rw [hl1, hv1] at hlog2
    by_cases hv : v = f.vec
    · refine ⟨s2, _, hr1.trans hr2, hlog2, ?_⟩
      rw [← hcb]
      exact List.mem_map_of_mem (hv ▸ he)
    · -- the innermost poll ends, and the vector is as it was
      have h3 : step sort s2 .done = some { s2 with frames := frames } := by
        unfold step
        rw [hd.frames_eq]
        exact if_pos hd.empty
      have hp : ({ s2 with frames := frames } : State).Pending id := by
        refine ⟨v, e, ?_, hcb⟩
        rw [hd.others v hv, hv1]
        exact he
      have hf3 : ({ s2 with frames := frames } : State).frames = frames := rfl
      obtain ⟨s', new, hr, hlog, hinv⟩ := invoked_of_pending sort hf3 hp
      refine ⟨s', (s.callVec f.vec).map (fun e => .invoked e.callback) ++ new,
        hr1.trans (hr2.trans ((Reaches.single h3).trans hr)), ?_,
        List.mem_append_right _ hinv⟩
      rw [hlog]
      rw [hlog2, List.append_assoc]

/-! ### Clearing -/

/-- **Cleared timers**: in every state of a runtime, a timer that was set is never invoked after it
is cleared, whatever happens next, exactly when its callback does not wait in the vector of a
poll. -/
theorem cleared_never_invoked_iff (sort : UnstableSort) {s : State} (hs : Reachable sort s) {id : ℕ}
    (hid : id < s.nextId) (now : ℤ) :
    (∀ es s', run (step sort) (s.clearTimeoutInterval id now) es = some s' →
      ∃ new, s'.log = (s.clearTimeoutInterval id now).log ++ new ∧ Obs.invoked id ∉ new) ↔
      ¬ s.Pending id := by
  constructor
  · intro h hp
    have hp' : (s.clearTimeoutInterval id now).Pending id := hp
    obtain ⟨s', new, ⟨es, hr⟩, hlog, hinv⟩ := invoked_of_pending sort rfl hp'
    obtain ⟨new', hlog', hno⟩ := h es s' hr
    rw [hlog, List.append_right_inj] at hlog'
    exact hno (hlog' ▸ hinv)
  · intro hp es s' hr
    exact (hs.ids.gone_clear sort hid hp now).not_invoked hr

/-- A sort by insertion. -/
def insertionSort : UnstableSort where
  sort := List.insertionSort fun a b => a.deadline ≤ b.deadline
  perm := List.perm_insertionSort _
  sorted := fun l => by
    have : Std.Total fun a b : ExecutingTimer => a.deadline ≤ b.deadline :=
      ⟨fun a b => le_total _ _⟩
    have : IsTrans ExecutingTimer fun a b => a.deadline ≤ b.deadline := ⟨fun _ _ _ => le_trans⟩
    exact List.pairwise_insertionSort _ l

/-- A timer that is cleared right after it is set, and a poll. -/
theorem cleared_never_invoked_fresh :
    ∃ s', run (step insertionSort)
        ((State.init.setTimeoutInterval .timeout 0 0).clearTimeoutInterval 0 0)
        [.poll 0 1] = some s' ∧
      ∃ new, s'.log = [.cleared 0] ++ new ∧ Obs.invoked 0 ∉ new := by
  refine ⟨_, rfl, ?_⟩
  refine (cleared_never_invoked_iff insertionSort (s := State.init.setTimeoutInterval .timeout 0 0)
    (Reaches.single (e := .set .timeout 0 0) rfl) (by decide) 0).mpr ?_ [.poll 0 1] _ rfl
  rintro ⟨v, e, he, -⟩
  cases he

/-- Two timeouts are due in one poll, the callback of the first clears the second, and the second is
invoked all the same. -/
theorem cleared_invoked :
    (run (step insertionSort) State.init
      [.set .timeout 0 0, .set .timeout 0 0, .poll 0 1, .fire, .clear 1 1, .ret, .fire]).map
        State.log = some [.invoked 0, .cleared 1, .invoked 1] := by
  decide

end RasterRuntime.Timers
