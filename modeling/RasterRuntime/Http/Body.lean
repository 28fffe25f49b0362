import RasterRuntime.Transition

/-! # The body of a request

`dispatch` waits for the frames of the body in a loop. While it waits it is woken by the handler's
response, by a frame or the timer of `requestTimeout`, or by the tick of the pump; after a tick the
loop begins again, with a new timer. The first tick comes at once, the next ones every millisecond
or later. The handler may read, pause, resume and destroy the request at any time.

* `body_sound_iff`: the body is handled as it should be in exactly the runs in which it does not
  fail, the request is not destroyed before its end, and no read hides bytes from the limit.
* `timely_iff`: no wait is too long in exactly the runs in which the tick that makes it so is itself
  as late as the limit, and the timer is taken before it. -/

namespace RasterRuntime.Http

open Transition

/-- How the loop is left: with an answer of its own, with the handler's response, or for the code
behind it, which completes the request. -/
inductive Exit where
  | status (code : ℕ)
  | response
  | completed
  deriving DecidableEq, Repr

/-- The request and its loop. `complete` is set when `end` is emitted. The last four fields are what
has happened: the bytes received and those emitted, whether the body has ended, and for how many
milliseconds the loop has waited for the next frame. -/
structure Loop where
  body : List UInt8 := []
  paused : Bool := false
  destroyed : Bool := false
  complete : Bool := false
  waiting : Bool := false
  exit : Option Exit := none
  received : List UInt8 := []
  delivered : List UInt8 := []
  ended : Bool := false
  waited : ℕ := 0

/-- `turn` is the head of the loop. A tick comes `elapsed` milliseconds after it, and may find the
timer ready too; `timer` is the choice of `select!` then. -/
inductive BodyEvent where
  | turn
  | data (bytes : List UInt8)
  | trailers
  | failure
  | finish
  | respond
  | tick (elapsed : ℕ) (timer : Bool)
  | read
  | pause
  | resume
  | destroy

namespace Loop

/-- The code behind the loop. -/
def completion (s : Loop) : Loop := { s with exit := some .completed, complete := true }

/-- What wakes the loop. -/
def select (requestTimeout maxBodySize : ℕ) (s : Loop) : BodyEvent → Loop
  | .data bytes =>
    let s := { s with waiting := false, waited := 0, received := s.received ++ bytes }
    if maxBodySize < s.body.length + bytes.length then { s with exit := some (.status 413) }
    else { s with body := s.body ++ bytes, delivered := s.delivered ++ bytes }
  | .trailers => { s with waiting := false, waited := 0 }
  | .failure => s.completion
  | .finish => { s.completion with ended := true }
  | .respond => { s with exit := some .response }
  | .tick elapsed timer =>
    -- the timer was started at the head of the loop
    if 0 < requestTimeout ∧ requestTimeout ≤ elapsed ∧ timer then
      { s with exit := some (.status 408) }
    else { s with waiting := false, waited := s.waited + elapsed }
  | _ => s

def next (requestTimeout maxBodySize : ℕ) (s : Loop) : BodyEvent → Loop
  | .read => { s with body := [] }
  | .pause => { s with paused := true }
  | .resume => { s with paused := false }
  | .destroy => { s with destroyed := true }
  | .turn =>
    if s.exit ≠ none ∨ s.waiting then s
    else if s.destroyed then s.completion
    else if s.paused then { s with waited := 0 }
    else { s with waiting := true }
  | e => if s.exit = none ∧ s.waiting then s.select requestTimeout maxBodySize e else s

/-! ### What is received -/

/-- The request is completed only at the end of its body, what is emitted is a prefix of what was
received, and a body that is too long is answered with 413. -/
structure Sound (maxBodySize : ℕ) (s : Loop) : Prop where
  complete : s.complete → s.ended
  delivered : s.delivered <+: s.received
  limit : maxBodySize < s.received.length → s.exit = some (.status 413)

/-- The body does not fail while it is waited for, a request that is destroyed is not completed, and
the buffer passes the limit whenever all that was received does. -/
def Fair (maxBodySize : ℕ) (s : Loop) : BodyEvent → Prop
  | .data bytes => s.exit = none ∧ s.waiting → maxBodySize < s.received.length + bytes.length →
      maxBodySize < s.body.length + bytes.length
  | .failure => ¬ (s.exit = none ∧ s.waiting)
  | .turn => s.destroyed → s.exit ≠ none ∨ s.waiting
  | _ => True

/-- While the loop runs, all that was received is emitted and the body has not ended. -/
structure Kept (maxBodySize : ℕ) (s : Loop) : Prop extends s.Sound maxBodySize where
  emitted : s.exit = none → s.delivered = s.received
  running : s.exit = none → s.ended = false

variable {requestTimeout maxBodySize : ℕ} {s : Loop} {e : BodyEvent}

theorem Kept.select (h : s.Kept maxBodySize) (hw : s.exit = none ∧ s.waiting)
    (hf : s.Fair maxBodySize e) : (s.select requestTimeout maxBodySize e).Kept maxBodySize := by
  have hle : ¬ maxBodySize < s.received.length := fun hlt => by simpa [hw.1] using h.limit hlt
  cases e with
  | data bytes =>
    unfold Loop.select
    dsimp only
    split_ifs with hmax
    · exact ⟨⟨h.complete, h.delivered.trans (List.prefix_append _ _), fun _ => rfl⟩, nofun, nofun⟩
    · have hnew : s.delivered ++ bytes = s.received ++ bytes := by rw [h.emitted hw.1]
      refine ⟨⟨h.complete, hnew ▸ List.prefix_rfl, fun hlt => ?_⟩, fun _ => hnew, h.running⟩
      exact absurd (hf hw (by simpa using hlt)) hmax
  | failure => exact absurd hw hf
  | finish => exact ⟨⟨fun _ => rfl, h.delivered, fun hlt => absurd hlt hle⟩, nofun, nofun⟩
  | respond => exact ⟨⟨h.complete, h.delivered, fun hlt => absurd hlt hle⟩, nofun, nofun⟩
  | tick elapsed timer =>
    unfold Loop.select
    dsimp only
    split_ifs
    · exact ⟨⟨h.complete, h.delivered, fun hlt => absurd hlt hle⟩, nofun, nofun⟩
    · exact { h with }
  | trailers => exact { h with }
  | turn | read | pause | resume | destroy => exact h

theorem Kept.next (h : s.Kept maxBodySize) (hf : s.Fair maxBodySize e) :
    (s.next requestTimeout maxBodySize e).Kept maxBodySize := by
  cases e with
  | read | pause | resume | destroy => exact { h with }
  | turn =>
    unfold Loop.next
    dsimp only
    split_ifs with hidle hd hp
    · exact h
    · exact absurd (hf hd) hidle
    · exact { h with }
    · exact { h with }
  | data | trailers | failure | finish | respond | tick =>
    unfold Loop.next
    dsimp only
    split_ifs with hw
    · exact h.select hw hf
    · exact h

theorem Kept.lost (h : s.Kept maxBodySize) (hf : ¬ s.Fair maxBodySize e) :
    ¬ (s.next requestTimeout maxBodySize e).Sound maxBodySize := by
  cases e with
  | data bytes =>
    obtain ⟨hw, hlt, hle⟩ := by simpa only [Fair, Classical.not_imp] using hf
    intro hs
    have := hs.limit (by simpa [Loop.next, hw, Loop.select, hle] using hlt)
    simp [Loop.next, hw, Loop.select, hle] at this
  | failure =>
    have hw := of_not_not hf
    intro hs
    have := hs.complete (by simp [Loop.next, hw, Loop.select, completion])
    simp [Loop.next, hw, Loop.select, completion, h.running hw.1] at this
  | turn =>
    obtain ⟨hd, hidle⟩ := Classical.not_imp.mp hf
    intro hs
    have := hs.complete (by simp [Loop.next, hd, hidle, completion])
    simp [Loop.next, hd, hidle, completion, h.running (of_not_not (not_or.mp hidle).1)] at this
  | _ => exact absurd trivial hf

/-- **The body of a request** is handled as it should be in exactly the runs that are fair to it. -/
theorem body_sound_iff (requestTimeout maxBodySize : ℕ) (es : List BodyEvent) :
    Throughout (next requestTimeout maxBodySize) (Sound maxBodySize) {} es ↔
      Each (next requestTimeout maxBodySize) (Fair maxBodySize) {} es :=
  throughout_iff_each (I := Kept maxBodySize) (fun _ h => h.toSound) (fun _ _ h => h.next)
    (fun _ _ h => h.lost) es ⟨⟨nofun, List.prefix_rfl, nofun⟩, fun _ => rfl, fun _ => rfl⟩

/-- A body that fails is completed, and so is a request that is destroyed; a handler that reads what
it is given gets a body of any length. -/
theorem incomplete_body_ends :
    ([.turn, .failure].foldl (next 0 16) {}).complete = true ∧
      ([.destroy, .turn].foldl (next 0 16) {}).complete = true ∧
      ([.turn, .data [1, 2], .read, .turn, .data [3, 4]].foldl (next 0 2) {}).delivered =
        [1, 2, 3, 4] := by
  decide

/-! ### How long the loop waits -/

/-- A wait of `requestTimeout` milliseconds has been answered with 408. -/
def Timely (requestTimeout : ℕ) (s : Loop) : Prop :=
  0 < requestTimeout → requestTimeout ≤ s.waited → s.exit = some (.status 408)

/-- A tick that makes the wait too long finds the timer ready, and the timer is chosen. -/
def InTime (requestTimeout : ℕ) (s : Loop) : BodyEvent → Prop
  | .tick elapsed timer => s.exit = none ∧ s.waiting → 0 < requestTimeout →
      requestTimeout ≤ s.waited + elapsed → requestTimeout ≤ elapsed ∧ timer = true
  | _ => True

theorem Timely.select (hw : s.exit = none ∧ s.waiting) (hlt : s.waited < requestTimeout)
    (hin : s.InTime requestTimeout e) :
    (s.select requestTimeout maxBodySize e).Timely requestTimeout := by
  intro hpos hle
  cases e with
  | data bytes =>
    unfold Loop.select at hle
    dsimp only at hle
    split_ifs at hle <;> exact absurd hle (Nat.not_le.mpr hpos)
  | trailers => exact absurd hle (Nat.not_le.mpr hpos)
  | tick elapsed timer =>
    unfold Loop.select at hle ⊢
    dsimp only at hle ⊢
    split_ifs at hle ⊢ with hready
    · rfl
    · exact absurd ⟨hpos, hin hw hpos hle⟩ hready
  | _ => exact absurd hle (Nat.not_le.mpr hlt)

theorem Timely.next (h : s.Timely requestTimeout) (hin : s.InTime requestTimeout e) :
    (s.next requestTimeout maxBodySize e).Timely requestTimeout := by
  intro hpos
  have hlt (hopen : s.exit = none) : s.waited < requestTimeout := by
    by_contra hle
    simpa [hopen] using h hpos (by omega)
  cases e with
  | read | pause | resume | destroy => exact h hpos
  | turn =>
    unfold Loop.next
    dsimp only
    split_ifs with hidle hd hp
    · exact h hpos
    · exact fun hle => absurd hle (Nat.not_le.mpr (hlt (of_not_not (not_or.mp hidle).1)))
    · exact fun hle => absurd hle (Nat.not_le.mpr hpos)
    · exact h hpos
  | data | trailers | failure | finish | respond | tick =>
    unfold Loop.next
    dsimp only
    split_ifs with hw
    · exact Timely.select hw (hlt hw.1) hin hpos
    · exact h hpos

theorem Timely.lost (hin : ¬ s.InTime requestTimeout e) :
    ¬ (s.next requestTimeout maxBodySize e).Timely requestTimeout := by
  cases e with
  | tick elapsed timer =>
    obtain ⟨hw, hpos, hle, hnot⟩ := by simpa only [InTime, Classical.not_imp] using hin
    have hready : ¬ (0 < requestTimeout ∧ requestTimeout ≤ elapsed ∧ timer) := fun h => hnot h.2
    intro ht
    simpa [Loop.next, hw, Loop.select, hready] using
      ht hpos (by simpa [Loop.next, hw, Loop.select, hready] using hle)
  | _ => exact absurd trivial hin

/-- **Waiting for the body**: no wait is too long in exactly the runs in which every tick that would
make it so comes as late as the limit after the head of the loop, and `select!` takes the timer. -/
theorem timely_iff (requestTimeout maxBodySize : ℕ) (es : List BodyEvent) :
    Throughout (next requestTimeout maxBodySize) (Timely requestTimeout) {} es ↔
      Each (next requestTimeout maxBodySize) (InTime requestTimeout) {} es :=
  throughout_iff_each (fun _ h => h) (fun _ _ h => h.next) (fun _ _ _ h => Timely.lost h) es
    fun hpos hle => absurd hle (Nat.not_le.mpr hpos)

/-- Ticks of a millisecond start the timer again and again, and the loop goes on waiting. -/
theorem foldl_ticks (hlimit : 1 < requestTimeout) (waited n : ℕ) :
    (List.replicate n [BodyEvent.turn, .tick 1 true]).flatten.foldl
      (next requestTimeout maxBodySize) { waited := waited } = { waited := waited + n } := by
  induction n generalizing waited with
  | zero => rfl
  | succ n ih =>
    have hshort : ¬ requestTimeout ≤ 1 := Nat.not_le.mpr hlimit
    have hround : [BodyEvent.turn, .tick 1 true].foldl (next requestTimeout maxBodySize)
        { waited := waited } = { waited := waited + 1 } := by
      simp [Loop.next, Loop.select, hshort]
    rw [List.replicate_succ, List.flatten_cons, List.foldl_append, hround, ih]
    congr 1
    omega

/-- A limit of half a second that is not kept: the first tick comes at once, and a tick every
millisecond starts the timer again. -/
theorem timeout_restarts :
    let ticks := (List.replicate 600 [BodyEvent.turn, .tick 1 true]).flatten
    ([BodyEvent.turn, .tick 0 true] ++ ticks).foldl (next 500 16) {} = { waited := 600 } := by
  have hfirst : [BodyEvent.turn, .tick 0 true].foldl (next 500 16) {} = { waited := 0 } := by
    simp [Loop.next, Loop.select]
  intro ticks
  rw [List.foldl_append, hfirst, foldl_ticks (by decide)]

end Loop

end RasterRuntime.Http
