import RasterRuntime.Timers.Cleared

/-! # References of timers

A timer and the handle that the program gets for it share a flag, and the event loop counts the
flags that are set. A timer that fires for the last time or is cleared takes its flag back. But
`ref` sets the flag whatever has become of the timer, and when the timer is gone only the end of the
handle takes it back. -/

namespace RasterRuntime.Timers

open Transition
open List (mem_append mem_cons mem_filter mem_filterMap mem_map mem_singleton not_mem_nil)

/-- The timers of a runtime and their flags. -/
structure RefState where
  base : State
  /-- The handles that the program holds, by the ids of their timers. -/
  handles : List ℕ
  /-- The flags that are set, by the ids of their timers. -/
  loopRefs : List ℕ
  /-- The count of the event loop. -/
  refs : ℕ

/-- What may happen next. -/
inductive RefEvent
  /-- Something happens to the timers; a timer that is set is referenced or not. -/
  | timer (e : Event) (referenced : Bool)
  | ref (id : ℕ)
  | unref (id : ℕ)
  /-- The handle is collected. -/
  | collected (id : ℕ)
  /-- The process ends, and all timers are discarded. -/
  | exit

/-- The timer is in the list and has its callback. -/
def State.Waits (s : State) (id : ℕ) : Prop := ∃ t ∈ s.timers, t.id = id ∧ t.callback.isSome

/-- The new timers of an event. -/
def State.created (s : State) : Event → List ℕ
  | .set .. => [s.nextId]
  | _ => []

/-- The timers that give their flags back. -/
def State.released (s : State) : Event → List ℕ
  | .clear id _ => if s.timers.any (·.id = id) then [id] else []
  | .poll _ now => (s.timers.filter fun t => (t.due now).isSome && !t.repeating).map Timeout.id
  | _ => []

namespace RefState

variable {sort : UnstableSort} {s : RefState} {i : ℕ}

def init : RefState := ⟨.init, [], [], 0⟩

/-- Each flag that is not set yet is set and counted. -/
def reference (s : RefState) (ids : List ℕ) : RefState :=
  let ids := ids.filter (· ∉ s.loopRefs)
  { s with loopRefs := ids ++ s.loopRefs, refs := s.refs + ids.length }

/-- Each flag that is set is taken back and no longer counted. -/
def unreference (s : RefState) (ids : List ℕ) : RefState :=
  { s with
    loopRefs := s.loopRefs.filter (· ∉ ids)
    refs := s.refs - (s.loopRefs.filter (· ∈ ids)).length }

/-- A flag ends with the last of its timer and its handle. -/
def dropUnowned (s : RefState) : RefState :=
  s.unreference (s.loopRefs.filter fun i => i ∉ s.handles ∧ i ∉ s.base.timers.map Timeout.id)

/-- One event; what is not possible changes nothing. -/
def next (sort : UnstableSort) (s : RefState) : RefEvent → RefState
  | .timer e referenced =>
    match step sort s.base e with
    | none => s
    | some base =>
      let ids := s.base.created e
      let s' := { s with base := base, handles := ids ++ s.handles }
      ((s'.reference (if referenced then ids else [])).unreference (s.base.released e)).dropUnowned
  | .ref id => if id ∈ s.handles then s.reference [id] else s
  | .unref id => if id ∈ s.handles then s.unreference [id] else s
  | .collected id => dropUnowned { s with handles := s.handles.filter (· ≠ id) }
  | .exit =>
    dropUnowned
      { s.unreference (s.base.timers.map Timeout.id) with base := { s.base with timers := [] } }

/-- The event loop counts the timers that wait and whose flag is set. -/
def Balanced (s : RefState) : Prop :=
  s.refs = (s.base.timers.filter fun t => t.callback.isSome && decide (t.id ∈ s.loopRefs)).length

/-- `ref` is called only while the timer waits. -/
def Keeps (s : RefState) : RefEvent → Prop
  | .ref id => id ∈ s.handles → s.base.Waits id
  | _ => True

/-! ### Entries -/

end RefState

/-- Hook ids are unique, and an entry that is to be dropped has no callback. -/
structure Hooks (s : State) : Prop where
  nodup : (s.timers.map Timeout.hookId).Nodup
  lt : ∀ t ∈ s.timers, t.hookId < s.nextHook
  dropped : ∀ t ∈ s.timers, t.pendingDestroy → t.callback = none

variable {sort : UnstableSort} {s s' : State} {e : Event} {t : Timeout} {ts : List Timeout} {i : ℕ}

theorem Hooks.keep (h : Hooks s) (hs : step sort s e = some s') : Hooks s' := by
  have hstep := step_timers hs
  rcases hstep.timers with hthin | ⟨provider, delay, now, rfl⟩
  · refine ⟨(hthin.map_sublist fun _ _ h => h.hookId).nodup h.nodup, fun t ht => ?_,
      fun t ht hp => ?_⟩
    all_goals obtain ⟨t', ht', hof⟩ := hthin.mem ht
    · have := h.lt t' ht'
      have := hstep.nextHook
      have := hof.hookId
      omega
    · rcases hof.rest with hnone | ⟨hcb, hdrop⟩
      · exact hnone
      · exact hcb.trans (h.dropped t' ht' (hdrop ▸ hp))
  · exact ⟨nodup_concat h.nodup h.lt rfl, forall_mem_concat.mpr ⟨fun t ht =>
      Nat.lt_succ_of_lt (h.lt t ht), Nat.lt_succ_self _⟩, forall_mem_concat.mpr ⟨h.dropped, nofun⟩⟩

theorem mem_updateFirst_of_ne {f : Timeout → Timeout} (h : t ∈ ts) (hid : t.id ≠ i) :
    t ∈ updateFirst i f ts := by
  induction ts with
  | nil => cases h
  | cons t' ts ih =>
    unfold updateFirst
    rcases mem_cons.mp h with rfl | h
    · rw [if_neg hid]
      exact .head _
    · split_ifs
      · exact .tail _ h
      · exact .tail _ (ih h)

theorem remaining_of_kept (now : ℤ) (hcb : t.callback.isSome)
    (h : ((t.due now).isSome && !t.repeating) = false) :
    ∃ d, t.remaining now = some { t with deadline := d } := by
  obtain ⟨cb, hcb⟩ := Option.isSome_iff_exists.mp hcb
  by_cases hd : t.deadline < now
  · have hr : t.repeating = true := by simpa [Timeout.due, hd, hcb] using h
    exact ⟨now + millis t.interval, by simp [Timeout.remaining, hd, hcb, hr]⟩
  · exact ⟨t.deadline, by simp [Timeout.remaining, hd]⟩

/-- An entry that has its callback is not dropped. -/
theorem Hooks.mem_destroy (h : Hooks s) (ht : t ∈ s.timers) (hcb : t.callback.isSome) (hookId : ℕ) :
    t ∈ destroy hookId s.timers := by
  unfold destroy
  split_ifs with hd
  · refine mem_filter.mpr ⟨ht, decide_eq_true ?_⟩
    rintro rfl
    cases hf : s.timers.find? (·.hookId = t.hookId) with
    | none => simpa using List.find?_eq_none.mp hf t ht
    | some t' =>
      rw [hf] at hd
      have heq : t' = t := List.inj_on_of_nodup_map h.nodup (List.mem_of_find?_eq_some hf) ht
        (by simpa using List.find?_some hf)
      rw [h.dropped t ht (heq ▸ hd)] at hcb
      cases hcb
  · exact ht

theorem State.Waits.keep (hh : Hooks s) (h : s.Waits i) (hi : i ∉ s.released e)
    (hs : step sort s e = some s') : s'.Waits i := by
  obtain ⟨t, ht, rfl, hcb⟩ := h
  cases step_cases hs with
  | set provider delay now => exact ⟨t, List.mem_append_left _ ht, rfl, hcb⟩
  | clear id now =>
    refine ⟨t, mem_updateFirst_of_ne ht ?_, rfl, hcb⟩
    rintro rfl
    have hany : s.timers.any (·.id = t.id) := List.any_eq_true.mpr ⟨t, ht, decide_eq_true rfl⟩
    exact hi (by simp only [State.released, if_pos hany, mem_singleton])
  | poll now hv =>
    obtain ⟨d, hd⟩ := remaining_of_kept now hcb <| Bool.eq_false_iff.mpr fun hdue =>
      hi (List.mem_map_of_mem (mem_filter.mpr ⟨ht, hdue⟩))
    exact ⟨_, mem_filterMap.mpr ⟨t, ht, hd⟩, rfl, hcb⟩
  | ret hf => exact ⟨t, hh.mem_destroy ht hcb _, rfl, hcb⟩
  | take | fire | throw | hookThrow | done | drop => exact ⟨t, ht, rfl, hcb⟩

theorem waits_of_created (hs : step sort s e = some s') (hi : i ∈ s.created e) : s'.Waits i := by
  cases step_cases hs with
  | set provider delay now =>
    rw [mem_singleton.mp hi]
    exact ⟨_, List.mem_append_right _ (.head _), rfl, rfl⟩
  | clear | take | poll | fire | ret | throw | hookThrow | done | drop => cases hi

/-! ### Flags -/

namespace RefState

variable {s : RefState} {ids : List ℕ}

/-- The count is that of the flags. -/
structure Counted (s : RefState) : Prop where
  refs : s.refs = s.loopRefs.length
  nodup : s.loopRefs.Nodup

theorem Counted.reference (h : s.Counted) (hids : ids.Nodup) : (s.reference ids).Counted where
  refs := by
    show s.refs + _ = _
    rw [h.refs, RefState.reference, List.length_append, Nat.add_comm]
  nodup := by
    refine List.nodup_append.mpr ⟨hids.filter _, h.nodup, ?_⟩
    rintro i hi j hj rfl
    exact of_decide_eq_true (mem_filter.mp hi).2 hj

theorem Counted.unreference (h : s.Counted) (ids : List ℕ) : (s.unreference ids).Counted where
  refs := by
    have hsplit := List.length_eq_length_filter_add (l := s.loopRefs) (· ∈ ids)
    show s.refs - _ = _
    rw [h.refs, hsplit, Nat.add_sub_cancel_left]
    simp [RefState.unreference]
  nodup := h.nodup.filter _

theorem mem_unreference : i ∈ (s.unreference ids).loopRefs ↔ i ∈ s.loopRefs ∧ i ∉ ids := by
  simp [unreference]

/-- Besides, what is set belongs to timers that wait. -/
structure Ledger (s : RefState) : Prop where
  ids : Ids s.base
  hooks : Hooks s.base
  counted : s.Counted
  waits : ∀ i ∈ s.loopRefs, s.base.Waits i

theorem Ledger.dropUnowned (h : s.Ledger) : s.dropUnowned.Ledger :=
  ⟨h.ids, h.hooks, h.counted.unreference _, fun i hi => h.waits i (mem_unreference.mp hi).1⟩

theorem Ledger.next (sort : UnstableSort) (s : RefState) (e : RefEvent) (h : s.Ledger)
    (hk : s.Keeps e) :
    (s.next sort e).Ledger := by
  cases e with
  | timer e referenced =>
    unfold RefState.next
    dsimp only
    split
    · exact h
    · next base hs =>
      have hnodup : (if referenced then s.base.created e else []).Nodup := by
        cases referenced <;> cases e <;> simp [State.created]
      refine Ledger.dropUnowned ⟨h.ids.keep _ _ _ hs, h.hooks.keep hs,
        Counted.unreference (Counted.reference (s := { s with base := base, handles := _ })
          ⟨h.counted.refs, h.counted.nodup⟩ hnodup) _, ?_⟩
      intro i hi
      obtain ⟨hi, hr⟩ := mem_unreference.mp hi
      rcases mem_append.mp hi with hi | hi
      · refine waits_of_created hs ?_
        cases referenced with
        | true => exact (mem_filter.mp hi).1
        | false => exact absurd (mem_filter.mp hi).1 not_mem_nil
      · exact (h.waits i hi).keep h.hooks hr hs
  | ref id =>
    unfold RefState.next
    dsimp only
    split_ifs with hid
    · refine ⟨h.ids, h.hooks, h.counted.reference (List.nodup_singleton _), fun i hi => ?_⟩
      rcases mem_append.mp hi with hi | hi
      · rw [mem_singleton.mp (mem_filter.mp hi).1]
        exact hk hid
      · exact h.waits i hi
    · exact h
  | unref id =>
    unfold RefState.next
    dsimp only
    split_ifs
    · exact ⟨h.ids, h.hooks, h.counted.unreference _,
        fun i hi => h.waits i (mem_unreference.mp hi).1⟩
    · exact h
  | collected id =>
    exact Ledger.dropUnowned ⟨h.ids, h.hooks, ⟨h.counted.refs, h.counted.nodup⟩, h.waits⟩
  | exit =>
    refine Ledger.dropUnowned ⟨⟨List.nodup_nil, nofun, nofun⟩, ⟨List.nodup_nil, nofun, nofun⟩,
      ⟨(h.counted.unreference _).refs, (h.counted.unreference _).nodup⟩, fun i hi => ?_⟩
    -- Each flag that was set belonged to an entry.
    obtain ⟨hi, hnot⟩ := mem_unreference.mp hi
    obtain ⟨t, ht, rfl, -⟩ := h.waits i hi
    exact absurd (List.mem_map_of_mem ht) hnot

theorem Ledger.balanced (h : s.Ledger) : s.Balanced := by
  unfold Balanced
  rw [h.counted.refs, ← List.length_map Timeout.id]
  refine ((List.perm_ext_iff_of_nodup h.counted.nodup
    ((List.filter_sublist.map _).nodup h.ids.nodup)).mpr fun i => ?_).length_eq
  simp only [mem_map, mem_filter, Bool.and_eq_true, decide_eq_true_eq]
  constructor
  · intro hi
    obtain ⟨t, ht, rfl, hcb⟩ := h.waits i hi
    exact ⟨t, ⟨ht, hcb, hi⟩, rfl⟩
  · rintro ⟨t, ⟨-, -, hi⟩, rfl⟩
    exact hi

theorem Ledger.unbalanced (sort : UnstableSort) (s : RefState) (e : RefEvent) (h : s.Ledger)
    (hk : ¬ s.Keeps e) : ¬ (s.next sort e).Balanced := by
  cases e with
  | ref id =>
    obtain ⟨hid, hw⟩ := Classical.not_imp.mp hk
    have hnot : id ∉ s.loopRefs := fun hi => hw (h.waits id hi)
    have hnext : s.next sort (.ref id) =
        { s with loopRefs := id :: s.loopRefs, refs := s.refs + 1 } := by
      simp [RefState.next, hid, RefState.reference, hnot]
    have hsame : (s.base.timers.filter fun t =>
          t.callback.isSome && decide (t.id ∈ id :: s.loopRefs)) =
        s.base.timers.filter fun t => t.callback.isSome && decide (t.id ∈ s.loopRefs) := by
      refine List.filter_congr fun t ht => ?_
      cases hcb : t.callback.isSome with
      | false => rfl
      | true =>
        have hne : t.id ≠ id := fun hid => hw ⟨t, ht, hid, hcb⟩
        simp [hne]
    have hb := h.balanced
    unfold Balanced at hb ⊢
    rw [hnext]
    show s.refs + 1 ≠ _
    rw [hsame, ← hb]
    exact Nat.succ_ne_self _
  | timer | unref | collected | exit => exact absurd trivial hk

theorem Ledger.init : init.Ledger :=
  ⟨ids_init, ⟨List.nodup_nil, nofun, nofun⟩, ⟨rfl, List.nodup_nil⟩, nofun⟩

/-- **References**: along every run the event loop counts exactly the timers that wait and are
referenced if and only if no `ref` comes after its timer has fired or was cleared. -/
theorem refs_balanced_iff (sort : UnstableSort) (es : List RefEvent) :
    Throughout (next sort) Balanced init es ↔ Each (next sort) Keeps init es :=
  throughout_iff_each (fun _ => Ledger.balanced) (Ledger.next sort) (Ledger.unbalanced sort) es
    Ledger.init

/-- `ref` after a timeout has fired: the event loop counts one, and no timer is left. -/
theorem refs_after_fire :
    ¬ ([.timer (.set .timeout 0 0) true, .timer (.poll 0 1) false, .timer .fire false,
        .timer .ret false, .timer .done false, .ref 0].foldl (next insertionSort)
        init).Balanced := by
  unfold Balanced
  decide

end RefState

end RasterRuntime.Timers
