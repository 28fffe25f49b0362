import RasterRuntime.NodeStream.Writable
import Mathlib.Data.List.Nodup

/-! # What a native writable stream keeps

* `Open`: what holds until the receiver of the channel is dropped. The callbacks of the writes are
  those called, that of the chunk being written and those in the channel; and until bytes are lost,
  what was written is what the transport has taken, what the writer has, what is left of the chunk
  being written and what is in the channel, in this order.
* `After`: what holds from then on. Only writes that are refused come, each with its callback.
* `writable_conserves`: the transport's bytes are a prefix of those written and no callback is
  called twice; `finish` follows the bytes written before `end()` exactly if the loop is left in a
  `Drained` state; and the callbacks have been called as they should exactly if the receiver is
  dropped in a `Settled` state. -/

namespace RasterRuntime.NodeStream.Writable

open Transition
open List (append_assoc append_nil map_append mem_append mem_cons mem_map mem_singleton
  prefix_append range)

/-! ### What is where -/

def writtenBytes (ws : List Written) : List UInt8 := ws.flatMap (·.bytes)

/-- The writes that have a callback. -/
def callbackIds (ws : List Written) : List ℕ := (ws.filter (·.callback)).map (·.id)

/-- The writes before `end()`. -/
def early (ws : List Written) : List Written := ws.filter (!·.late)

def WriteCommand.bytes : WriteCommand → List UInt8
  | .write _ value _ _ => value.getD []
  | _ => []

def WriteCommand.ids : WriteCommand → List ℕ
  | .write id _ callback _ => if callback then [id] else []
  | _ => []

def bytesOf (commands : List WriteCommand) : List UInt8 := commands.flatMap (·.bytes)

def idsOf (commands : List WriteCommand) : List ℕ := commands.flatMap (·.ids)

/-- The commands in the channel before `End`. -/
def beforeEnd : List WriteCommand → List WriteCommand
  | [] => []
  | c :: cs => if c = .end then [] else c :: beforeEnd cs

/-- What is left of the chunk being written. -/
def Phase.bytes : Phase → List UInt8
  | .writing _ _ _ data => data
  | _ => []

/-- The callback of the chunk being written. -/
def Phase.ids : Phase → List ℕ
  | .writing id callback _ _ => if callback then [id] else []
  | .flushing (.callback id callback) => if callback then [id] else []
  | _ => []

/-- No bytes have been lost. -/
def Phase.intact : Phase → Bool
  | .calling failed => !failed
  | .finishing => false
  | .returned .. => false
  | .closed => false
  | _ => true

/-- `write_function` has returned. -/
def Phase.isOver : Phase → Bool
  | .returned .. => true
  | .closed => true
  | _ => false

/-- The commands before `End` that the loop has not taken. -/
def coming (phase : Phase) (commands : List WriteCommand) : List WriteCommand :=
  if phase = .shutting then [] else beforeEnd commands

/-- What holds until bytes are lost. -/
structure Intact (s : State) : Prop where
  bytes : writtenBytes s.written = s.handed ++ (s.buffer ++ s.phase.bytes ++ bytesOf s.commands)
  earlyBytes : writtenBytes (early s.written) =
    s.handed ++ (s.buffer ++ s.phase.bytes ++ bytesOf (coming s.phase s.commands))
  ended : s.ended = true ↔ s.phase = .shutting ∨ .end ∈ s.commands

/-- **What holds until the receiver is dropped.** -/
structure Open (s : State) : Prop where
  receiving : s.receiving = true
  isOver : s.phase.isOver = false
  numbered : s.written.map (·.id) = range s.written.length
  handed : s.handed <+: writtenBytes s.written
  flushed : s.flushed ≤ s.handed.length
  finished : s.ended = true → s.isFinished = true
  ids : callbackIds s.written = s.calls.map (·.1) ++ s.phase.ids ++ idsOf s.commands
  intact : s.phase.intact = true → Intact s

/-- The calls for writes that are refused. -/
def refusals (ws : List Written) : List (ℕ × Bool) := (callbackIds ws).map (·, true)

/-- **What holds after the receiver was dropped** in the state `t`. -/
structure After (t s : State) : Prop where
  receiving : s.receiving = false
  isOver : s.phase.isOver = true
  ids : t.phase.ids = []
  handed : s.handed = t.handed
  numbered : s.written.map (·.id) = range s.written.length
  refused : ∃ refused, s.written = t.written ++ refused ∧ s.calls = t.calls ++ refusals refused

/-! ### Lists -/

@[simp] theorem writtenBytes_concat (ws : List Written) (w : Written) :
    writtenBytes (ws ++ [w]) = writtenBytes ws ++ w.bytes := by
  simp [writtenBytes]

@[simp] theorem callbackIds_concat (ws : List Written) (w : Written) :
    callbackIds (ws ++ [w]) = callbackIds ws ++ if w.callback then [w.id] else [] := by
  unfold callbackIds
  rw [List.filter_append, map_append]
  cases hw : w.callback <;> simp [hw]

@[simp] theorem early_concat (ws : List Written) (w : Written) :
    early (ws ++ [w]) = early ws ++ if w.late then [] else [w] := by
  unfold early
  rw [List.filter_append]
  cases hw : w.late <;> simp [hw]

@[simp] theorem bytesOf_concat (cs : List WriteCommand) (c : WriteCommand) :
    bytesOf (cs ++ [c]) = bytesOf cs ++ c.bytes := by
  simp [bytesOf]

@[simp] theorem idsOf_concat (cs : List WriteCommand) (c : WriteCommand) :
    idsOf (cs ++ [c]) = idsOf cs ++ c.ids := by
  simp [idsOf]

variable {cs rest : List WriteCommand} {s s' t : State} {c : WriteCommand} {p : Phase} {id : ℕ}
    {callback failed : Bool} {act : Act}

theorem beforeEnd_concat (cs : List WriteCommand) (c : WriteCommand) :
    beforeEnd (cs ++ [c]) = beforeEnd cs ++ if c = .end ∨ .end ∈ cs then [] else [c] := by
  induction cs with
  | nil => simp [beforeEnd]
  | cons d cs ih =>
    rw [List.cons_append, beforeEnd, beforeEnd, ih]
    by_cases hd : d = .end
    · simp [hd]
    · simp [hd, Ne.symm hd]

theorem coming_concat (p : Phase) (cs : List WriteCommand) (c : WriteCommand) :
    coming p (cs ++ [c]) =
      coming p cs ++ if p = .shutting ∨ c = .end ∨ .end ∈ cs then [] else [c] := by
  unfold coming
  by_cases hp : p = .shutting
  · simp [hp]
  · rw [if_neg hp, if_neg hp, beforeEnd_concat]
    simp only [hp, false_or]

theorem numbered_concat {ws : List Written} (h : ws.map (·.id) = range ws.length)
    (bytes : List UInt8) (callback late : Bool) :
    (ws ++ [(⟨ws.length, bytes, callback, late⟩ : Written)]).map (·.id) =
      range (ws ++ [(⟨ws.length, bytes, callback, late⟩ : Written)]).length := by
  rw [map_append, h, List.length_append, List.length_singleton, List.range_succ]
  rfl

/-! ### What the program does -/

theorem Intact.send (h : Intact s) (hbytes : c.bytes = []) (hend : c ≠ .end) :
    Intact { s with commands := s.commands ++ [c] } := by
  refine ⟨?_, ?_, ?_⟩
  · simpa [hbytes] using h.bytes
  · rw [coming_concat]
    split_ifs <;> simpa [hbytes] using h.earlyBytes
  · simpa [Ne.symm hend] using h.ended

theorem Intact.endStream (h : Intact s) (isFinished : Bool) :
    Intact { s with isFinished, ended := true, commands := s.commands ++ [.end] } := by
  refine ⟨?_, ?_, by simp⟩
  · simpa [WriteCommand.bytes] using h.bytes
  · simpa [coming_concat] using h.earlyBytes

theorem Intact.write (h : Intact s) (value : Option (List UInt8)) (callback flush : Bool) :
    Intact { s with
      commands := s.commands ++ [.write s.written.length value callback flush]
      written := s.written ++ [⟨s.written.length, value.getD [], callback, s.ended⟩] } := by
  refine ⟨?_, ?_, ?_⟩
  · simp only [writtenBytes_concat, bytesOf_concat, h.bytes, WriteCommand.bytes, append_assoc]
  · rw [coming_concat, early_concat]
    simp only [reduceCtorEq, false_or, ← h.ended]
    split_ifs <;> simp [h.earlyBytes, WriteCommand.bytes]
  · simpa using h.ended

/-- Nothing but flags changes. -/
theorem Open.flags (h : Open s) (isFinished isDestroyed watched alive : Bool)
    (signal : Option Bool) (hfinished : s.ended = true → isFinished = true) :
    Open { s with isFinished, isDestroyed, watched, alive, signal } :=
  { h with finished := hfinished, intact := fun hi => { h.intact hi with } }

theorem Open.doWrite (h : Open s) (value : Option (List UInt8)) (callback flush : Bool) :
    Open (doWrite value callback flush s) := by
  unfold Writable.doWrite
  dsimp only
  rw [if_pos h.receiving]
  refine { h with
    numbered := numbered_concat h.numbered (value.getD []) callback s.ended
    handed := ?_
    ids := ?_
    intact := fun hi => (h.intact hi).write value callback flush }
  · rw [writtenBytes_concat]
    exact h.handed.trans (prefix_append _ _)
  · simp only [callbackIds_concat, idsOf_concat, h.ids, WriteCommand.ids, append_assoc]

theorem Open.send (h : Open s) (hbytes : c.bytes = []) (hids : c.ids = []) (hend : c ≠ .end) :
    Open (send c s) := by
  unfold Writable.send
  rw [if_pos h.receiving]
  refine { h with ids := ?_, intact := fun hi => (h.intact hi).send hbytes hend }
  simpa [hids] using h.ids

theorem Open.endStream (h : Open s) : Open (endStream s) := by
  unfold Writable.endStream
  split_ifs with hfinished
  · exact h
  · unfold Writable.send
    dsimp only
    rw [if_pos h.receiving]
    refine { h with
      finished := fun _ => rfl
      ids := ?_
      intact := fun hi => (h.intact hi).endStream true }
    simpa [WriteCommand.ids] using h.ids

theorem Open.destroy (h : Open s) (error : Bool) : Open (destroy error s) := by
  unfold Writable.destroy
  split_ifs with hfinished
  · exact h
  all_goals exact h.flags _ _ _ _ _ fun _ => rfl

/-! ### What the loop does -/

/-- The loop and the writer move bytes on, or do not. -/
theorem Open.move (h : Open s) {handed buffer : List UInt8} {flushed : ℕ}
    (hintact : s.phase.intact) (hover : p.isOver = false) (hids : p.ids = s.phase.ids)
    (hshut : p = .shutting ↔ s.phase = .shutting) (hflushed : flushed ≤ handed.length)
    (hbytes : handed ++ (buffer ++ p.bytes) = s.handed ++ (s.buffer ++ s.phase.bytes)) :
    Open { s with phase := p, handed, buffer, flushed } := by
  have hi := h.intact hintact
  have hmoved (rest : List UInt8) : handed ++ (buffer ++ p.bytes ++ rest) =
      s.handed ++ (s.buffer ++ s.phase.bytes ++ rest) := by
    rw [← append_assoc, hbytes, append_assoc]
  have hall := hi.bytes.trans (hmoved (bytesOf s.commands)).symm
  refine { h with isOver := hover, handed := ?_, flushed := hflushed, ids := ?_, intact := ?_ }
  · exact ⟨_, hall.symm⟩
  · rw [hids]
    exact h.ids
  · refine fun _ => ⟨hall, ?_, ?_⟩
    · have hcoming : coming p s.commands = coming s.phase s.commands := by
        unfold coming
        simp only [hshut]
      rw [hcoming]
      exact hi.earlyBytes.trans (hmoved _).symm
    · rw [hi.ended, hshut]

/-- The loop goes from one place to another. -/
theorem Open.goto (h : Open s) {q : Phase} (hphase : s.phase = q) (hintact : q.intact)
    (hover : p.isOver = false) (hids : p.ids = q.ids) (hbytes : p.bytes = q.bytes)
    (hshut : p = .shutting ↔ q = .shutting) : Open { s with phase := p } := by
  subst hphase
  exact h.move hintact hover hids hshut h.flushed (by rw [hbytes])

theorem Open.flush (h : Open s) : Open { s with flushed := s.handed.length } :=
  { h with flushed := Nat.le_refl _, intact := fun hi => { h.intact hi with } }

theorem Open.recv (h : Open s) (hphase : s.phase = .select) (hcommands : s.commands = c :: rest)
    (hover : p.isOver = false) (hbytes : p.bytes = c.bytes) (hids : p.ids = c.ids)
    (hshut : p = .shutting ↔ c = .end) : Open { s with commands := rest, phase := p } := by
  obtain ⟨hb, heb, hended⟩ := h.intact (by rw [hphase]; rfl)
  have hi := h.ids
  rw [hphase, hcommands] at hb hi heb hended
  refine { h with isOver := hover, ids := ?_, intact := fun _ => ⟨?_, ?_, ?_⟩ }
  · rw [hids]
    simpa [idsOf, Phase.ids] using hi
  · rw [hbytes]
    simpa [bytesOf, Phase.bytes] using hb
  · unfold coming at heb ⊢
    rw [if_neg nofun, beforeEnd] at heb
    simp only [hshut, hbytes]
    by_cases hend : c = .end
    · rw [if_pos hend] at heb ⊢
      simpa [hend, bytesOf, Phase.bytes, WriteCommand.bytes] using heb
    · rw [if_neg hend] at heb ⊢
      simpa [bytesOf, Phase.bytes] using heb
  · rw [hended, hshut, mem_cons, eq_comm (a := c)]
    simp

theorem Open.callBack (h : Open s) (hphase : s.phase = p) (hintact : p.intact)
    (hbytes : p.bytes = []) (hshut : p ≠ .shutting)
    (hids : p.ids = if callback then [id] else []) : Open (callBack id callback false s) := by
  subst hphase
  cases callback with
  | false =>
    refine h.goto rfl hintact rfl hids.symm hbytes.symm ?_
    exact ⟨nofun, fun heq => absurd heq hshut⟩
  | true =>
    obtain ⟨hb, heb, hended⟩ := h.intact hintact
    have hi := h.ids
    rw [hbytes] at hb heb
    rw [hids] at hi
    refine { h with isOver := rfl, ids := ?_, intact := fun _ => ⟨hb, ?_, ?_⟩ }
    · simpa [Writable.callBack, Phase.ids] using hi
    · simpa [Writable.callBack, coming, hshut, Phase.bytes] using heb
    · simpa [Writable.callBack, hshut] using hended

theorem Open.callBack_failed (h : Open s) (hids : s.phase.ids = [id]) :
    Open (Writable.callBack id true true s) := by
  have hi := h.ids
  rw [hids] at hi
  refine { h with isOver := rfl, ids := ?_, intact := nofun }
  simpa [Writable.callBack, Phase.ids] using hi

theorem Open.finish (h : Open s) (hids : s.phase.ids = []) : Open (finish s) := by
  have hi := h.ids
  rw [hids] at hi
  exact { h with isOver := rfl, ids := hi, intact := nofun }

theorem Open.returns (h : Open s) {r : State} (hids : s.phase.ids = [])
    (hhanded : r.handed = s.handed) (hwritten : r.written = s.written) (hcalls : r.calls = s.calls)
    (failed handedOff : Bool) : After s (returns failed handedOff r) := by
  refine ⟨rfl, rfl, hids, hhanded, ?_, [], ?_, ?_⟩
  · show r.written.map (·.id) = range r.written.length
    rw [hwritten]
    exact h.numbered
  · exact hwritten.trans (append_nil _).symm
  · exact hcalls.trans (append_nil _).symm

/-- An error of the writer: the callback of the chunk is called with it, or the loop returns. -/
theorem Open.callBack_fails (h : Open s) (hids : s.phase.ids = if callback then [id] else []) :
    Open (Writable.callBack id callback true s) ∨
      After s (Writable.callBack id callback true s) := by
  cases callback with
  | true => exact .inl (h.callBack_failed hids)
  | false => exact .inr (h.returns hids rfl rfl rfl _ _)

theorem Open.tick (h : Open s) (hstep : tick s = some s') : Open s' := by
  revert hstep
  fun_cases Writable.tick s
  all_goals rintro ⟨⟩
  · next hphase _ => exact h.finish (by rw [hphase]; rfl)
  · next hphase _ => exact h.goto hphase rfl rfl rfl rfl (by simp)
  · next hphase => exact h.goto hphase rfl rfl rfl rfl (by simp)
  · next hphase _ => exact h.callBack hphase rfl rfl nofun rfl

theorem Open.handle (h : Open s) (hphase : s.phase = .select) (hcommands : s.commands = c :: rest) :
    Open (handle c { s with commands := rest }) ∨
      After s (Writable.handle c { s with commands := rest }) := by
  cases c with
  | write id value callback flush =>
    cases value with
    | none => exact .inr (h.returns (by rw [hphase]; rfl) rfl rfl rfl _ _)
    | some data => exact .inl (h.recv hphase hcommands rfl rfl rfl (by simp))
  | «end» | flush | flushBarrier | handoff =>
    exact .inl (h.recv hphase hcommands rfl rfl rfl (by simp))

theorem Open.take {n : ℕ} (h : Open s) (hstep : take n s = some s') : Open s' := by
  unfold Writable.take at hstep
  split at hstep
  case h_1 id callback flush data hphase =>
    cases hstep
    refine h.move (by rw [hphase]; rfl) rfl (by rw [hphase]; rfl) (by rw [hphase]; simp)
      h.flushed ?_
    rw [hphase, Phase.bytes, Phase.bytes, append_assoc, List.take_append_drop]
  case h_2 => cases hstep

theorem Open.accept {n : ℕ} (h : Open s) (hstep : accept n s = some s') : Open s' := by
  unfold Writable.accept at hstep
  split_ifs at hstep with hpolls
  cases hstep
  have hintact : s.phase.intact := by
    revert hpolls
    cases s.phase with
    | writing | flushing | shutting => exact fun _ => rfl
    | detached | top | select | calling | finishing | returned | closed => exact nofun
  refine h.move hintact h.isOver rfl Iff.rfl ?_ ?_
  · rw [List.length_append]
    exact Nat.le_add_right_of_le h.flushed
  · rw [append_assoc, ← append_assoc (s.buffer.take n), List.take_append_drop]

theorem Open.proceed {next : Next} (h : Open s) (hphase : s.phase = .flushing next) :
    Open (proceed next { s with flushed := s.handed.length }) ∨
      After s (Writable.proceed next { s with flushed := s.handed.length }) := by
  cases next with
  | callback id callback => exact .inl (h.flush.callBack hphase rfl rfl nofun rfl)
  | resume => exact .inl (h.flush.goto hphase rfl rfl rfl rfl (by simp))
  | handOff =>
    have hids : s.phase.ids = [] := by rw [hphase]; rfl
    exact .inr (h.returns (r := { s with flushed := s.handed.length }) hids rfl rfl rfl _ _)

theorem Open.failWith (h : Open s) (hstep : failWith s = some s') : Open s' ∨ After s s' := by
  revert hstep
  fun_cases Writable.failWith s
  all_goals rintro ⟨⟩
  · next hphase => exact h.callBack_fails (by rw [hphase]; rfl)
  · next hphase => exact h.callBack_fails (by rw [hphase]; rfl)
  · next next hnot hphase =>
    refine .inr (h.returns ?_ rfl rfl rfl _ _)
    rw [hphase]
    cases next with
    | callback id callback => exact absurd rfl (hnot id callback)
    | resume | handOff => rfl
  · next hphase => exact .inr (h.returns (by rw [hphase]; rfl) rfl rfl rfl _ _)

/-! ### Runs -/

theorem open_initial (emitClose : Bool) : Open (State.initial emitClose) :=
  ⟨rfl, rfl, rfl, List.prefix_rfl, Nat.le_refl 0, nofun, rfl,
    fun _ => ⟨rfl, rfl, by simp [State.initial]⟩⟩

/-- **What a step does**, and where the loop is before it. -/
inductive Moved (s : State) : Act → State → Prop
  | write (value : Option (List UInt8)) (callback flush : Bool) :
    Moved s (.write value callback flush) (doWrite value callback flush s)
  | «end» : Moved s .end (endStream s)
  | destroy (error : Bool) : Moved s (.destroy error) (destroy error s)
  | flush : Moved s .flush (send .flush s)
  | flushBarrier : Moved s .flushBarrier (send .flushBarrier s)
  | handoff : Moved s .handoff (send .handoff s)
  | setAlive (alive : Bool) : Moved s (.setAlive alive) { s with alive }
  | refused (watched : Bool) (hphase : s.phase = .detached) :
    Moved s (.process watched) (returns false false { s with watched })
  | started (watched : Bool) (hphase : s.phase = .detached) :
    Moved s (.process watched) { s with phase := .top, watched }
  | tick {s' : State} (htick : tick s = some s') : Moved s .tick s'
  | recv {c : WriteCommand} {rest : List WriteCommand} (hphase : s.phase = .select)
    (hcommands : s.commands = c :: rest) :
    Moved s .recv (handle c { s with commands := rest })
  | seeUnref (hphase : s.phase = .select) : Moved s .seeUnref (finish s)
  | seeDestroy (error : Bool) (hphase : s.phase = .select) :
    Moved s .seeDestroy (returns error false { s with signal := none })
  | take {s' : State} (n : ℕ) (htake : take n s = some s') : Moved s (.take n) s'
  | accept {s' : State} (n : ℕ) (haccept : accept n s = some s') : Moved s (.accept n) s'
  | flushed {next : Next} (hphase : s.phase = .flushing next) :
    Moved s .flushed (proceed next { s with flushed := s.handed.length })
  | shutDown (hphase : s.phase = .shutting) (hbuffer : s.buffer = []) :
    Moved s .shutDown (finish { s with flushed := s.handed.length })
  | fail {s' : State} (hfail : failWith s = some s') : Moved s .fail s'
  | callbackFailed {failed : Bool} (throws : Bool) (hphase : s.phase = .calling failed) :
    Moved s (.callbackReturns throws) (returns true false s)
  | callbackReturned (throws : Bool) (hphase : s.phase = .calling false) :
    Moved s (.callbackReturns throws) { s with phase := .top }
  | listenersReturn (throws : Bool) (hphase : s.phase = .finishing) :
    Moved s (.listenersReturn throws) (returns throws false s)
  | conclude {failed handedOff : Bool} (listens throws : Bool)
    (hphase : s.phase = .returned failed handedOff) :
    Moved s (.conclude listens throws) (conclude failed handedOff listens throws s)

theorem Moved.of_step (hstep : step s act = some s') : Moved s act s' := by
  cases act with
  | write value callback flush =>
    cases hstep
    exact .write value callback flush
  | «end» =>
    cases hstep
    exact .end
  | destroy error =>
    cases hstep
    exact .destroy error
  | flush =>
    cases hstep
    exact .flush
  | flushBarrier =>
    cases hstep
    exact .flushBarrier
  | handoff =>
    cases hstep
    exact .handoff
  | setAlive alive =>
    cases hstep
    exact .setAlive alive
  | process watched =>
    dsimp only [Writable.step] at hstep
    split_ifs at hstep with hphase hdestroyed <;> cases hstep
    · exact .refused watched hphase
    · exact .started watched hphase
  | tick => exact .tick hstep
  | recv =>
    dsimp only [Writable.step] at hstep
    split at hstep <;> cases hstep
    next hphase hcommands => exact .recv hphase hcommands
  | seeUnref =>
    dsimp only [Writable.step] at hstep
    split_ifs at hstep with hphase
    cases hstep
    exact .seeUnref hphase.1
  | seeDestroy =>
    dsimp only [Writable.step] at hstep
    split at hstep <;> cases hstep
    next error hphase hsignal => exact .seeDestroy error hphase
  | take n => exact .take n hstep
  | accept n => exact .accept n hstep
  | flushed =>
    dsimp only [Writable.step] at hstep
    split at hstep
    next hphase =>
      split_ifs at hstep
      cases hstep
      exact .flushed hphase
    next => cases hstep
  | shutDown =>
    dsimp only [Writable.step] at hstep
    split_ifs at hstep with hphase
    cases hstep
    exact .shutDown hphase.1 hphase.2
  | fail => exact .fail hstep
  | callbackReturns throws =>
    dsimp only [Writable.step] at hstep
    split at hstep
    next failed hphase =>
      split_ifs at hstep with hfailed <;> cases hstep
      · exact .callbackFailed throws hphase
      · rw [Bool.or_eq_true, not_or, Bool.not_eq_true] at hfailed
        exact .callbackReturned throws (hfailed.1 ▸ hphase)
    next => cases hstep
  | listenersReturn throws =>
    dsimp only [Writable.step] at hstep
    split_ifs at hstep with hphase
    cases hstep
    exact .listenersReturn throws hphase
  | conclude listens throws =>
    dsimp only [Writable.step] at hstep
    split at hstep <;> cases hstep
    next hphase => exact .conclude listens throws hphase

/-- **A step** keeps the receiver, or drops it. -/
theorem Open.step (h : Open s) (hstep : step s act = some s') : Open s' ∨ After s s' := by
  cases Moved.of_step hstep with
  | write value callback flush => exact .inl (h.doWrite value callback flush)
  | «end» => exact .inl h.endStream
  | destroy error => exact .inl (h.destroy error)
  | flush | flushBarrier | handoff => exact .inl (h.send rfl rfl nofun)
  | setAlive alive => exact .inl (h.flags _ _ _ _ _ h.finished)
  | refused watched hphase =>
    exact .inr (h.returns (r := { s with watched }) (by rw [hphase]; rfl) rfl rfl rfl _ _)
  | started watched hphase =>
    have hwatch : Open { s with watched } := h.flags _ _ _ _ _ h.finished
    exact .inl (hwatch.goto (p := .top) hphase rfl rfl rfl rfl (by simp))
  | tick htick => exact .inl (h.tick htick)
  | recv hphase hcommands => exact h.handle hphase hcommands
  | seeUnref hphase => exact .inl (h.finish (by rw [hphase]; rfl))
  | seeDestroy error hphase =>
    exact .inr (h.returns (r := { s with signal := none }) (by rw [hphase]; rfl) rfl rfl rfl _ _)
  | take n htake => exact .inl (h.take htake)
  | accept n haccept => exact .inl (h.accept haccept)
  | flushed hphase => exact h.proceed hphase
  | shutDown hphase hbuffer => exact .inl (h.flush.finish (by dsimp only; rw [hphase]; rfl))
  | fail hfail => exact h.failWith hfail
  | callbackFailed throws hphase => exact .inr (h.returns (by rw [hphase]; rfl) rfl rfl rfl _ _)
  | callbackReturned throws hphase => exact .inl (h.goto hphase rfl rfl rfl rfl (by simp))
  | listenersReturn throws hphase => exact .inr (h.returns (by rw [hphase]; rfl) rfl rfl rfl _ _)
  | conclude listens throws hphase => cases hphase ▸ h.isOver

theorem After.doWrite (h : After t s) (value : Option (List UInt8)) (callback flush : Bool) :
    After t (doWrite value callback flush s) := by
  obtain ⟨refused, hwritten, hcalls⟩ := h.refused
  unfold Writable.doWrite
  dsimp only
  rw [if_neg (by rw [h.receiving]; exact Bool.false_ne_true)]
  refine { h with
    numbered := numbered_concat h.numbered (value.getD []) callback s.ended
    refused := ⟨refused ++ [⟨s.written.length, value.getD [], callback, s.ended⟩], ?_, ?_⟩ }
  · rw [hwritten, append_assoc]
  · rw [hcalls, append_assoc, refusals, refusals, callbackIds_concat, map_append]
    cases callback <;> rfl

/-- After the receiver was dropped, only the program and the last events are left. -/
theorem After.step (h : After t s) (hstep : Writable.step s act = some s') : After t s' := by
  have hsend (c : WriteCommand) {r : State} (hr : r.receiving = false) : send c r = r := by
    rw [send, hr, if_neg Bool.false_ne_true]
  have hover := h.isOver
  cases Moved.of_step hstep with
  | write value callback flush => exact h.doWrite value callback flush
  | «end» =>
    unfold endStream
    split_ifs
    · exact h
    · rw [hsend .end (r := { s with isFinished := true, ended := true }) h.receiving]
      exact { h with }
  | destroy error =>
    unfold destroy
    split_ifs
    · exact h
    · exact { h with }
    · exact { h with }
  | flush | flushBarrier | handoff =>
    rw [hsend _ h.receiving]
    exact h
  | setAlive alive => exact { h with }
  | conclude listens throws hphase => exact { h with isOver := rfl }
  | tick hact | take _ hact | accept _ hact | fail hact =>
    cases hphase : s.phase with
    | returned failed handedOff | closed =>
      simp [tick, take, accept, failWith, Phase.polls, hphase] at hact
    | detached | top | select | writing | flushing | shutting | calling | finishing =>
      rw [hphase] at hover
      cases hover
  | refused _ hphase | started _ hphase | recv hphase | seeUnref hphase | seeDestroy _ hphase
  | flushed hphase | shutDown hphase | callbackFailed _ hphase | callbackReturned _ hphase
  | listenersReturn _ hphase =>
    rw [hphase] at hover
    cases hover

/-- **What holds at every point of a run.** -/
inductive Sound (s : State) : Prop
  | receiving (h : Open s)
  | after (t : State) (ht : Open t) (h : After t s)

theorem Sound.step (h : Sound s) (hstep : Writable.step s act = some s') : Sound s' := by
  cases h with
  | receiving h =>
    rcases h.step hstep with hopen | hafter
    · exact .receiving hopen
    · exact .after s h hafter
  | after t ht h => exact .after t ht (h.step hstep)

theorem sound_of_run {emitClose : Bool} {acts : List Act}
    (h : run Writable.step (State.initial emitClose) acts = some s) : Sound s :=
  run_invariant Writable.step (fun _ _ _ hs hstep => Sound.step hs hstep)
    (.receiving (open_initial emitClose)) h

theorem Sound.open_of_receiving (h : Sound s) (hreceiving : s.receiving = true) : Open s := by
  cases h with
  | receiving h => exact h
  | after t ht h => cases h.receiving.symm.trans hreceiving

/-! ### `finish` -/

/-- Every chunk written before `end()` has been handed over and flushed. -/
def FinishedClean (s : State) : Prop := (writtenBytes (early s.written)).length ≤ s.flushed

/-- The loop has taken `End`, or nothing that was written before it is with the writer or in the
channel and the transport has flushed what it has taken. -/
def Drained (s : State) : Prop :=
  s.phase = .shutting ∨
    s.buffer = [] ∧ bytesOf (beforeEnd s.commands) = [] ∧ s.flushed = s.handed.length

section Events

variable (s)

@[simp] theorem doWrite_events (value : Option (List UInt8)) (callback flush : Bool) :
    (doWrite value callback flush s).events = s.events := by
  unfold doWrite
  dsimp only
  split_ifs <;> rfl

@[simp] theorem send_events (c : WriteCommand) : (send c s).events = s.events := by
  unfold send
  split_ifs <;> rfl

@[simp] theorem endStream_events : (endStream s).events = s.events := by
  unfold endStream
  split_ifs
  · rfl
  · exact send_events ..

@[simp] theorem destroy_events (error : Bool) : (destroy error s).events = s.events := by
  unfold destroy
  split_ifs <;> rfl

@[simp] theorem callBack_events (id : ℕ) (callback failed : Bool) :
    (callBack id callback failed s).events = s.events := by
  unfold callBack
  split_ifs <;> rfl

@[simp] theorem handle_events (c : WriteCommand) : (handle c s).events = s.events := by
  fun_cases handle c s <;> rfl

@[simp] theorem proceed_events (next : Next) : (proceed next s).events = s.events := by
  cases next with
  | callback id callback => exact callBack_events ..
  | resume | handOff => rfl

end Events

/-- The states that `finish` is emitted in. -/
inductive Leaves (s s' : State) : Prop
  | unreferenced (hphase : s.phase = .top ∨ s.phase = .select) (hs' : s' = finish s)
  | ended (hphase : s.phase = .shutting) (hbuffer : s.buffer = [])
    (hs' : s' = finish { s with flushed := s.handed.length })

theorem Leaves.not_isOver (h : Leaves s s') : ¬ s.phase.isOver = true := by
  cases h with
  | unreferenced hphase => rcases hphase with hphase | hphase <;> simp [hphase, Phase.isOver]
  | ended hphase => simp [hphase, Phase.isOver]

theorem leaves_of_finish (hstep : step s act = some s') (hbefore : .finish ∉ s.events)
    (hafter : .finish ∈ s'.events) : Leaves s s' := by
  have hsame (heq : s'.events = s.events) : Leaves s s' := absurd (heq ▸ hafter) hbefore
  cases Moved.of_step hstep with
  | seeUnref hphase => exact .unreferenced (.inr hphase) rfl
  | shutDown hphase hbuffer => exact .ended hphase hbuffer rfl
  | tick htick =>
    revert htick
    fun_cases tick s
    all_goals rintro ⟨⟩
    · next hphase _ => exact .unreferenced (.inl hphase) rfl
    · exact hsame rfl
    · exact hsame rfl
    · exact hsame (callBack_events ..)
  | take n htake =>
    unfold take at htake
    split at htake <;> cases htake
    exact hsame rfl
  | accept n haccept =>
    unfold accept at haccept
    split_ifs at haccept
    cases haccept
    exact hsame rfl
  | fail hfail =>
    revert hfail
    fun_cases failWith s
    all_goals rintro ⟨⟩
    · exact hsame (callBack_events ..)
    · exact hsame (callBack_events ..)
    · exact hsame rfl
    · exact hsame rfl
  | conclude listens throws hphase =>
    simp only [conclude, mem_append, hbefore, false_or] at hafter
    split_ifs at hafter <;> simp at hafter
  | write | «end» | destroy | flush | flushBarrier | handoff | recv | flushed =>
    exact hsame (by simp)
  | setAlive | refused | started | seeDestroy | callbackFailed | callbackReturned
  | listenersReturn => exact hsame rfl

/-- The loop is left in a state that is drained exactly if `finish` comes after all that was written
before `end()`. -/
theorem Open.finishedClean_iff (h : Open s) (hleaves : Leaves s s') :
    FinishedClean s' ↔ Drained s := by
  have hflushed := h.flushed
  cases hleaves with
  | unreferenced hphase hs' =>
    subst hs'
    have hshut : s.phase ≠ .shutting := by
      rcases hphase with hphase | hphase <;> simp [hphase]
    have hbytes : s.phase.bytes = [] := by
      rcases hphase with hphase | hphase <;> simp [hphase, Phase.bytes]
    have hintact : s.phase.intact := by
      rcases hphase with hphase | hphase <;> simp [hphase, Phase.intact]
    have hearly := (h.intact hintact).earlyBytes
    unfold coming at hearly
    rw [hbytes, append_nil, if_neg hshut] at hearly
    show (writtenBytes (early s.written)).length ≤ s.flushed ↔ _
    unfold Drained
    rw [hearly, List.length_append, List.length_append, or_iff_right hshut,
      ← List.length_eq_zero_iff, ← List.length_eq_zero_iff]
    omega
  | ended hphase hbuffer hs' =>
    subst hs'
    refine iff_of_true ?_ (.inl hphase)
    have hearly := (h.intact (by rw [hphase]; rfl)).earlyBytes
    rw [hphase, hbuffer] at hearly
    show (writtenBytes (early s.written)).length ≤ s.handed.length
    rw [hearly]
    simp [Phase.bytes, coming, bytesOf]

/-! ### Callbacks -/

/-- The calls of a write's callback: with an error or not. -/
def callsOf (s : State) (id : ℕ) : List Bool := (s.calls.filter (·.1 = id)).map (·.2)

/-- The transport has taken the bytes of a write. -/
def HandedOver (s : State) (w : Written) : Prop :=
  w.bytes = [] ∨ (writtenBytes (s.written.take (w.id + 1))).length ≤ s.handed.length

/-- Every callback was called exactly once, with an error if its bytes were not handed over. -/
def Answered (s : State) : Prop :=
  ∀ w ∈ s.written, w.callback = true →
    ∃ failed, callsOf s w.id = [failed] ∧ (failed = false → HandedOver s w)

/-- No write in the channel has a callback, and those called without an error were handed over. -/
def Settled (s : State) : Prop :=
  idsOf s.commands = [] ∧ ∀ w ∈ s.written, (w.id, false) ∈ s.calls → HandedOver s w

theorem callbackIds_append (ws ws' : List Written) :
    callbackIds (ws ++ ws') = callbackIds ws ++ callbackIds ws' := by
  unfold callbackIds
  rw [List.filter_append, map_append]

theorem nodup_callbackIds {ws : List Written} (h : ws.map (·.id) = range ws.length) :
    (callbackIds ws).Nodup := by
  have hids : (ws.map (·.id)).Nodup := by
    rw [h]
    exact List.nodup_range
  exact hids.sublist (List.filter_sublist.map _)

theorem Open.nodup (h : Open s) : (s.calls.map (·.1)).Nodup := by
  have hids := nodup_callbackIds h.numbered
  rw [h.ids, append_assoc] at hids
  exact hids.sublist (List.sublist_append_left _ _)

theorem After.calls_ids {refused : List Written}
    (hcalls : s.calls = t.calls ++ refusals refused) :
    s.calls.map (·.1) = t.calls.map (·.1) ++ callbackIds refused := by
  rw [hcalls, map_append, refusals, List.map_map]
  exact congrArg _ (List.map_id _)

theorem After.nodup (h : After t s) (ht : Open t) : (s.calls.map (·.1)).Nodup := by
  obtain ⟨refused, hwritten, hcalls⟩ := h.refused
  have hids := nodup_callbackIds h.numbered
  rw [hwritten, callbackIds_append, ht.ids, h.ids, append_nil] at hids
  rw [After.calls_ids hcalls]
  exact hids.sublist ((List.sublist_append_left _ _).append_right _)

theorem callsOf_length (h : (s.calls.map (·.1)).Nodup) (id : ℕ) : (callsOf s id).length ≤ 1 := by
  have hcount : (s.calls.map (·.1)).count id ≤ 1 := List.nodup_iff_count_le_one.1 h id
  rw [List.count, List.countP_map, List.countP_eq_length_filter] at hcount
  rw [callsOf, List.length_map]
  exact hcount

theorem mem_callsOf : failed ∈ callsOf s id ↔ (id, failed) ∈ s.calls := by
  simp [callsOf]

theorem callsOf_eq (h : (s.calls.map (·.1)).Nodup) (hmem : (id, failed) ∈ s.calls) :
    callsOf s id = [failed] := by
  have hlength := callsOf_length h id
  have hcalled := mem_callsOf.2 hmem
  generalize callsOf s id = calls at hlength hcalled ⊢
  match calls with
  | [] => cases hcalled
  | [_] => rw [mem_singleton.1 hcalled]
  | _ :: _ :: _ => simp at hlength

theorem id_lt {ws : List Written} (h : ws.map (·.id) = range ws.length) {w : Written}
    (hw : w ∈ ws) : w.id < ws.length := by
  have hmem : w.id ∈ ws.map (·.id) := mem_map.2 ⟨w, hw, rfl⟩
  rw [h] at hmem
  exact List.mem_range.1 hmem

theorem After.handedOver_iff (h : After t s) (ht : Open t) {w : Written} (hw : w ∈ t.written) :
    HandedOver s w ↔ HandedOver t w := by
  obtain ⟨refused, hwritten, -⟩ := h.refused
  have hlt := id_lt ht.numbered hw
  unfold HandedOver
  rw [h.handed, hwritten, List.take_append_of_le_length hlt]

/-- **The callbacks** have been called as they should exactly if the receiver was dropped in a state
that is settled. -/
theorem After.answered_iff (h : After t s) (ht : Open t) : Answered s ↔ Settled t := by
  obtain ⟨refused, hwritten, hcalls⟩ := h.refused
  have hnodup := h.nodup ht
  have hids := nodup_callbackIds h.numbered
  have htids := ht.ids
  rw [h.ids, append_nil] at htids
  rw [hwritten, callbackIds_append, htids] at hids
  constructor
  · intro hanswered
    have hcalled (w : Written) (hw : w ∈ t.written) (hcallback : w.callback = true) :
        ∃ failed, (w.id, failed) ∈ s.calls ∧ (failed = false → HandedOver t w) := by
      obtain ⟨failed, hcall, hover⟩ :=
        hanswered w (hwritten ▸ mem_append.2 (.inl hw)) hcallback
      refine ⟨failed, mem_callsOf.1 (hcall ▸ .head _), fun hfailed => ?_⟩
      exact (h.handedOver_iff ht hw).1 (hover hfailed)
    have hwrite {id : ℕ} (hid : id ∈ callbackIds t.written) :
        ∃ w ∈ t.written, w.callback = true ∧ w.id = id := by
      obtain ⟨w, hw, hsame⟩ := mem_map.1 hid
      exact ⟨w, (List.mem_filter.1 hw).1, (List.mem_filter.1 hw).2, hsame⟩
    refine ⟨List.eq_nil_iff_forall_not_mem.2 fun id hid => ?_, fun w hw hcall => ?_⟩
    · obtain ⟨w, hw, hcallback, rfl⟩ := hwrite (htids ▸ mem_append.2 (.inr hid))
      obtain ⟨failed, hcall, -⟩ := hcalled w hw hcallback
      have hmem : w.id ∈ s.calls.map (·.1) := mem_map.2 ⟨_, hcall, rfl⟩
      rw [After.calls_ids hcalls, mem_append] at hmem
      obtain ⟨hfirst, -, hlater⟩ := List.nodup_append.1 hids
      rcases hmem with hmem | hmem
      · exact (List.nodup_append.1 hfirst).2.2 _ hmem _ hid rfl
      · exact hlater _ (mem_append.2 (.inr hid)) _ hmem rfl
    · obtain ⟨w', hw', hcallback, hid⟩ :=
        hwrite (htids ▸ mem_append.2 (.inl (mem_map.2 ⟨_, hcall, rfl⟩)))
      obtain rfl : w' = w :=
        List.inj_on_of_nodup_map (by rw [ht.numbered]; exact List.nodup_range) hw' hw hid
      obtain ⟨failed, hcall', hover⟩ := hcalled w' hw hcallback
      refine hover (List.singleton_inj.1 ?_)
      rw [← callsOf_eq hnodup hcall', ← callsOf_eq hnodup (hcalls ▸ mem_append.2 (.inl hcall))]
  · rintro ⟨hchannel, hover⟩ w hw hcallback
    rw [hchannel, append_nil] at htids
    rw [hwritten, mem_append] at hw
    rcases hw with hw | hw
    · have hid : w.id ∈ t.calls.map (·.1) := by
        rw [← htids]
        exact mem_map.2 ⟨w, List.mem_filter.2 ⟨hw, hcallback⟩, rfl⟩
      obtain ⟨⟨id, failed⟩, hcall, hsame⟩ := mem_map.1 hid
      obtain rfl : id = w.id := hsame
      refine ⟨failed, callsOf_eq hnodup (hcalls ▸ mem_append.2 (.inl hcall)), ?_⟩
      rintro rfl
      exact (h.handedOver_iff ht hw).2 (hover w hw hcall)
    · have hid : w.id ∈ callbackIds refused :=
        mem_map.2 ⟨w, List.mem_filter.2 ⟨hw, hcallback⟩, rfl⟩
      have hcall : (w.id, true) ∈ refusals refused := mem_map.2 ⟨w.id, hid, rfl⟩
      exact ⟨true, callsOf_eq hnodup (hcalls ▸ mem_append.2 (.inr hcall)), nofun⟩

/-! ### What a stream keeps -/

theorem Sound.handed (h : Sound s) : s.handed <+: writtenBytes s.written := by
  cases h with
  | receiving h => exact h.handed
  | after t ht h =>
    obtain ⟨refused, hwritten, -⟩ := h.refused
    rw [h.handed, hwritten, writtenBytes, List.flatMap_append]
    exact ht.handed.trans (prefix_append _ _)

theorem Sound.nodup (h : Sound s) : (s.calls.map (·.1)).Nodup := by
  cases h with
  | receiving h => exact h.nodup
  | after t ht h => exact h.nodup ht

/-- A write that is flushed, its callback, and `destroy()`. -/
def destroyedRun : List Act :=
  [.process false, .tick, .write (some [97]) true true, .recv, .take 1, .tick, .accept 1, .flushed,
    .callbackReturns false, .destroy false, .tick]

/-- A write and `end()`, up to where the writer has shut down. -/
def endedRun : List Act :=
  [.process false, .tick, .write (some [97]) true false, .end, .recv, .take 1, .tick,
    .callbackReturns false, .tick, .recv, .accept 1]

/-- The state after a run of a new stream. -/
def stateAfter (acts : List Act) : State :=
  (run step (State.initial true) acts).getD (State.initial true)

end RasterRuntime.NodeStream.Writable
