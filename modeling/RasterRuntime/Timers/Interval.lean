import Mathlib.Data.List.Nodup
import RasterRuntime.Transition

/-! # The iterator of `setInterval` of `timers/promises`

Each call of `next` arms an interval of its own, whose first tick settles the promise. But what a
tick clears is the interval that was armed last, and `return`, `throw` and an abort know no other
either.

An interval and the promise that it settles are named by the number of the call. A tick may also
come from an interval that is cleared: its callback can be due already. -/

namespace RasterRuntime.Timers

open Transition
open List (mem_append mem_filter mem_singleton)

/-- How a promise of `next` is settled. -/
inductive Settlement
  | tick
  | done
  | rejected
  deriving DecidableEq, Repr

/-- The state of the iterator. -/
structure IntervalIterator where
  active : Bool
  pending : Option ℕ
  /-- The call whose promise `resolveTick` and `rejectTick` settle. -/
  resolveTick : Option ℕ
  armed : List ℕ
  calls : ℕ
  settled : List (ℕ × Settlement)

/-- What may happen next. -/
inductive IntervalEvent
  | next
  | ret
  | throw
  | abort
  | tick (call : ℕ)
  deriving DecidableEq, Repr

namespace IntervalIterator

variable {s : IntervalIterator} {c : ℕ} {o : Settlement}

/-- The signal may be aborted from the start. -/
def init (aborted : Bool) : IntervalIterator := ⟨!aborted, none, none, [], 0, []⟩

/-- A promise is settled at most once. -/
def settle (s : IntervalIterator) (c : ℕ) (o : Settlement) : IntervalIterator :=
  if c ∈ s.settled.map Prod.fst then s else { s with settled := s.settled ++ [(c, o)] }

/-- The last interval is cleared, and the iterator ends or goes on. -/
def clearPending (s : IntervalIterator) (active : Bool) : IntervalIterator :=
  { s with
    active := active
    armed := s.armed.filter (s.pending ≠ some ·)
    pending := none
    resolveTick := none }

/-- What `stop` and `finish` have in common. -/
def halt (s : IntervalIterator) (o : Settlement) : IntervalIterator :=
  match s.resolveTick with
  | some c => (s.clearPending false).settle c o
  | none => s.clearPending false

def stop (s : IntervalIterator) : IntervalIterator := if s.active then s.halt .rejected else s

def finish (s : IntervalIterator) : IntervalIterator := s.halt .done

def next (s : IntervalIterator) : IntervalIterator :=
  if s.active then
    { s with
      resolveTick := some s.calls
      pending := some s.calls
      armed := s.armed ++ [s.calls]
      calls := s.calls + 1 }
  else { s with calls := s.calls + 1, settled := s.settled ++ [(s.calls, .done)] }

/-- One event; a tick of an interval that never was changes nothing. -/
def step (s : IntervalIterator) : IntervalEvent → IntervalIterator
  | .next => s.next
  | .ret => s.finish
  | .throw => s.stop
  | .abort => s.stop
  | .tick c => if c < s.calls then (s.clearPending s.active).settle c .tick else s

/-- The intervals that are armed are those of the calls whose promise is not settled, and at the end
there are none. -/
structure Sound (s : IntervalIterator) : Prop where
  once : (s.settled.map Prod.fst).Nodup
  armed : ∀ c, c ∈ s.armed ↔ c < s.calls ∧ c ∉ s.settled.map Prod.fst
  ended : s.active = false → s.armed = []

/-- The end comes when no interval but the last is armed, and so does a tick. -/
def Keeps (s : IntervalIterator) : IntervalEvent → Prop
  | .next => True
  | .tick c => c < s.calls → if c ∈ s.armed then s.pending = some c else s.pending = none
  | _ => ∀ c ∈ s.armed, s.pending = some c

/-! ### Runs -/

structure Regular (s : IntervalIterator) : Prop extends Sound s where
  tick : s.resolveTick = s.pending
  pending : ∀ c ∈ s.pending, c ∈ s.armed
  lt : ∀ c ∈ s.settled.map Prod.fst, c < s.calls

variable {active : Bool}

theorem mem_clearPending :
    c ∈ (s.clearPending active).armed ↔ c ∈ s.armed ∧ s.pending ≠ some c := by
  simp [clearPending]

theorem settle_frame (s : IntervalIterator) (c : ℕ) (o : Settlement) :
    (s.settle c o).armed = s.armed ∧ (s.settle c o).calls = s.calls ∧
      (s.settle c o).active = s.active := by
  unfold settle
  split_ifs <;> exact ⟨rfl, rfl, rfl⟩

theorem nodup_settled {l : List (ℕ × Settlement)} (h : (l.map Prod.fst).Nodup)
    (hc : c ∉ l.map Prod.fst) : ((l ++ [(c, o)]).map Prod.fst).Nodup := by
  rw [List.map_append, List.map_singleton, ← List.concat_eq_append]
  exact List.Nodup.concat hc h

theorem mem_settle {x : ℕ} :
    x ∈ (s.settle c o).settled.map Prod.fst ↔ x ∈ s.settled.map Prod.fst ∨ x = c := by
  unfold settle
  split_ifs with h
  · exact ⟨.inl, fun hx => hx.elim id fun hx => hx ▸ h⟩
  · rw [List.map_append, mem_append, List.map_singleton, mem_singleton]

/-- The last call gets its promise settled, and its interval is cleared. -/
theorem Regular.answer (h : s.Regular) (hp : s.pending = some c)
    (ha : active = false → ∀ x ∈ s.armed, x = c) (o : Settlement) :
    ((s.clearPending active).settle c o).Regular := by
  obtain ⟨hlt, hnot⟩ := (h.armed c).mp (h.pending c hp)
  have hmem : ∀ x, x ∈ (s.clearPending active).armed ↔ x ∈ s.armed ∧ x ≠ c := by
    intro x
    rw [mem_clearPending, hp, Ne, Option.some_inj, eq_comm]
  rw [show (s.clearPending active).settle c o = { s with
      active := active
      armed := (s.clearPending active).armed
      pending := none
      resolveTick := none
      settled := s.settled ++ [(c, o)] } from if_neg hnot]
  constructor
  · constructor
    · exact nodup_settled h.once hnot
    · intro x
      show x ∈ (s.clearPending active).armed ↔ x < s.calls ∧
        x ∉ (s.settled ++ [(c, o)]).map Prod.fst
      rw [hmem, h.armed, List.map_append, mem_append, List.map_singleton, mem_singleton, not_or,
        and_assoc]
    · intro hf
      refine List.eq_nil_iff_forall_not_mem.mpr fun x hx => ?_
      obtain ⟨hx, hne⟩ := (hmem x).mp hx
      exact hne (ha hf x hx)
  · rfl
  · exact nofun
  · rw [List.map_append]
    exact forall_mem_concat.mpr ⟨h.lt, hlt⟩

theorem Regular.quiet (h : s.Regular) (hp : s.pending = none)
    (ha : active = false → s.armed = []) : (s.clearPending active).Regular := by
  have hc : s.clearPending active =
      { s with active := active, pending := none, resolveTick := none } := by
    simp [clearPending, hp]
  rw [hc]
  exact ⟨⟨h.once, h.armed, ha⟩, rfl, nofun, h.lt⟩

theorem Regular.next (h : s.Regular) : s.next.Regular := by
  have hnew : s.calls ∉ s.settled.map Prod.fst := fun hmem => Nat.lt_irrefl _ (h.lt _ hmem)
  unfold IntervalIterator.next
  split_ifs with ha
  · refine ⟨⟨h.once, fun c => ?_, fun hf => absurd (ha.symm.trans hf) (by simp)⟩, rfl, ?_,
      fun c hc => Nat.lt_succ_of_lt (h.lt c hc)⟩
    · show c ∈ s.armed ++ [s.calls] ↔ c < s.calls + 1 ∧ _
      rw [mem_append, mem_singleton, h.armed, Nat.lt_succ_iff_lt_or_eq, or_and_right]
      exact or_congr_right ⟨fun hc => ⟨hc, hc ▸ hnew⟩, And.left⟩
    · intro c hc
      rw [← Option.some_inj.mp hc]
      exact List.mem_append_right _ (.head _)
  · have hnil := h.ended (Bool.eq_false_iff.mpr ha)
    refine ⟨⟨nodup_settled h.once hnew, fun c => ?_, fun _ => hnil⟩, h.tick, h.pending, ?_⟩
    · show c ∈ s.armed ↔ c < s.calls + 1 ∧
        c ∉ (s.settled ++ [(s.calls, Settlement.done)]).map Prod.fst
      rw [h.armed, List.map_append, mem_append, List.map_singleton, mem_singleton, not_or]
      constructor
      · exact fun ⟨hlt, hnot⟩ => ⟨Nat.lt_succ_of_lt hlt, hnot, Nat.ne_of_lt hlt⟩
      · exact fun ⟨hlt, hnot, hne⟩ => ⟨Nat.lt_of_le_of_ne (Nat.le_of_lt_succ hlt) hne, hnot⟩
    · rw [List.map_append]
      exact forall_mem_concat.mpr ⟨fun c hc => Nat.lt_succ_of_lt (h.lt c hc), Nat.lt_succ_self _⟩

theorem Regular.halt (h : s.Regular) (hk : ∀ c ∈ s.armed, s.pending = some c) (o : Settlement) :
    (s.halt o).Regular := by
  unfold IntervalIterator.halt
  rw [h.tick]
  cases hp : s.pending with
  | none =>
    refine h.quiet hp fun _ => List.eq_nil_iff_forall_not_mem.mpr fun c hc => ?_
    exact absurd (hp.symm.trans (hk c hc)) (Option.some_ne_none c).symm
  | some c =>
    exact h.answer hp (fun _ x hx => Option.some_inj.mp ((hk x hx).symm.trans hp)) o

theorem Regular.step (s : IntervalIterator) (e : IntervalEvent) (h : s.Regular) (hk : s.Keeps e) :
    (s.step e).Regular := by
  have hstop (hk : ∀ c ∈ s.armed, s.pending = some c) : s.stop.Regular := by
    unfold stop
    split_ifs
    · exact h.halt hk .rejected
    · exact h
  cases e with
  | next => exact h.next
  | ret => exact h.halt hk .done
  | throw => exact hstop hk
  | abort => exact hstop hk
  | tick c =>
    unfold IntervalIterator.step
    dsimp only
    split_ifs with hc
    · have hk := hk hc
      split_ifs at hk with ha
      · exact h.answer hk (fun hf => by simp [h.ended hf] at ha) .tick
      · have hmem : c ∈ s.settled.map Prod.fst := by
          by_contra hnot
          exact ha ((h.armed c).mpr ⟨hc, hnot⟩)
        rw [show (s.clearPending s.active).settle c .tick =
          s.clearPending s.active from if_pos hmem]
        exact h.quiet hk h.ended
    · exact h

theorem mem_halt (hc : c ∈ s.armed) (hp : s.pending ≠ some c) (o : Settlement) :
    c ∈ (s.halt o).armed := by
  have hmem : c ∈ (s.clearPending false).armed := mem_clearPending.mpr ⟨hc, hp⟩
  unfold halt
  split
  · rw [(settle_frame _ _ _).1]
    exact hmem
  · exact hmem

theorem active_halt (s : IntervalIterator) (o : Settlement) : (s.halt o).active = false := by
  unfold halt
  split
  · exact (settle_frame _ _ _).2.2
  · rfl

theorem Regular.unsound (s : IntervalIterator) (e : IntervalEvent) (h : s.Regular)
    (hk : ¬ s.Keeps e) : ¬ (s.step e).Sound := by
  have hhalt (o : Settlement) (hk : ¬ ∀ c ∈ s.armed, s.pending = some c) : ¬ (s.halt o).Sound := by
    push Not at hk
    obtain ⟨c, hc, hp⟩ := hk
    intro hs
    have hmem := mem_halt hc hp o
    rw [hs.ended (active_halt s o)] at hmem
    cases hmem
  have hstop (hk : ¬ ∀ c ∈ s.armed, s.pending = some c) : ¬ s.stop.Sound := by
    have ha : s.active := by
      by_contra ha
      rw [h.ended (Bool.eq_false_iff.mpr ha)] at hk
      exact hk nofun
    unfold stop
    rw [if_pos ha]
    exact hhalt .rejected hk
  cases e with
  | next => exact absurd trivial hk
  | ret => exact hhalt .done hk
  | throw => exact hstop hk
  | abort => exact hstop hk
  | tick c =>
    obtain ⟨hc, hk⟩ := Classical.not_imp.mp hk
    have hs : s.step (.tick c) = (s.clearPending s.active).settle c .tick := if_pos hc
    rw [hs]
    intro hs
    split_ifs at hk with ha
    · -- The interval of `c` stays armed though its promise is settled.
      refine ((hs.armed c).mp ?_).2 (mem_settle.mpr (.inr rfl))
      rw [(settle_frame _ _ _).1]
      exact mem_clearPending.mpr ⟨ha, hk⟩
    · -- The interval of the last call is cleared though its promise is not settled.
      obtain ⟨x, hx⟩ := Option.ne_none_iff_exists'.mp hk
      obtain ⟨hlt, hnot⟩ := (h.armed x).mp (h.pending x hx)
      have hne : x ≠ c := fun heq => ha (heq ▸ h.pending x hx)
      have hmem := (hs.armed x).mpr
        ⟨(settle_frame _ c .tick).2.1.symm ▸ hlt, fun hmem => (mem_settle.mp hmem).elim hnot hne⟩
      rw [(settle_frame _ _ _).1] at hmem
      exact (mem_clearPending.mp hmem).2 hx

theorem Regular.init (aborted : Bool) : (init aborted).Regular :=
  ⟨⟨List.nodup_nil, fun c => by simp [IntervalIterator.init], fun _ => rfl⟩, rfl, nofun, nofun⟩

end IntervalIterator

end RasterRuntime.Timers
