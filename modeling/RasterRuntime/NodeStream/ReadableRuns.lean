import RasterRuntime.NodeStream.Readable

/-! # What a native readable stream keeps

* `Lossless`: the events at which the loop neither drops bytes nor lets later bytes overtake earlier
  ones. The others are: bytes that arrive while nobody consumes a paused stream, bytes that arrive
  in state `Flowing` while older ones are stored, the message of a `data` listener that makes the
  loop clear the stored bytes, and the loop's end while it has bytes of its own.
* `readable_conserves`: where every event of a run is lossless, the bytes given out, handed off,
  stored and held by the loop are those of the transport, in this order.
* `steady_lossless`: a stream that has one kind of listener from the beginning loses nothing. -/

namespace RasterRuntime.NodeStream.Readable

open Transition
open List (append_assoc append_nil)

/-- The bytes of the transport are where they should be. -/
structure Kept (s : State) : Prop where
  bytes : s.given ++ s.handedOver ++ s.stored.bytes ++ s.buffer = s.arrived
  /-- nothing is left here once the transport was handed off -/
  handed : s.handedOver = [] ∨
    s.phase = .stopped .handedOff ∧ s.stored.bytes = [] ∧ s.buffer = []

/-- Nothing is dropped or overtaken by the event. -/
def Lossless (s : State) : Act → Prop
  | .start _ => s.buffer = []
  | .tick => s.watched = true ∧ s.alive = false → s.buffer = []
  | .arrive chunk =>
    match stateFor chunk s with
    | .flowing => s.stored.bytes = [] ∨ (s.lastState = .paused ∧ s.buffer ++ chunk = [])
    | .paused => if chunk = [] then s.waiting = false → s.buffer = [] else s.listener.isSome = true
    | .init => if chunk = [] then s.buffer = [] else s.listener.isSome = true
  | .fail => s.buffer = []
  | .seeUnref => s.buffer = []
  | .seeDestroy => s.buffer = []
  | .seeAttached => s.stored.bytes = []
  | .fill => s.stored.closed = false
  | .thrown => s.buffer = []
  | _ => True

/-! ### Keeping the bytes -/

variable {s s' : State} {chunk : List UInt8}

theorem Kept.give (h : Kept s) {given : List UInt8} {stored : BytearrayBuffer}
    (hbytes : given ++ stored.bytes = s.stored.bytes) :
    Kept { s with stored, given := s.given ++ given } := by
  obtain ⟨hb, hh⟩ := h
  rcases hh with hh | ⟨hphase, hstored, hbuffer⟩
  · refine ⟨?_, .inl hh⟩
    rw [← hb, hh, ← hbytes]
    simp
  · rw [hstored] at hbytes
    obtain ⟨rfl, hnil⟩ := List.append_eq_nil_iff.1 hbytes
    refine ⟨?_, .inr ⟨hphase, hnil, hbuffer⟩⟩
    rw [← hb, hstored, hnil]
    simp

section Running

variable (h : Kept s) (hphase : s.phase ≠ .stopped .handedOff)

include h hphase

theorem Kept.running : s.handedOver = [] := by
  rcases h.handed with hh | ⟨hp, -⟩
  · exact hh
  · exact absurd hp hphase

theorem Kept.move (hgiven : s'.given = s.given) (hhanded : s'.handedOver = s.handedOver)
    (hheld : s'.stored.bytes ++ s'.buffer = s.stored.bytes ++ s.buffer)
    (harrived : s'.arrived = s.arrived) : Kept s' := by
  refine ⟨?_, .inl (hhanded.trans (h.running hphase))⟩
  rw [append_assoc, hheld, hgiven, hhanded, harrived, ← append_assoc]
  exact h.bytes

theorem Kept.handOff : Kept (handOff s) := by
  refine ⟨?_, .inr ⟨rfl, rfl, rfl⟩⟩
  have hb := h.bytes
  rw [h.running hphase] at hb
  show s.given ++ (s.stored.bytes ++ s.buffer) ++ [] ++ [] = s.arrived
  rw [← hb]
  simp

theorem Kept.finish (hbuffer : s.buffer = []) (destroyed : Bool) : Kept (finish destroyed s) :=
  h.move hphase rfl rfl (by rw [hbuffer]; rfl) rfl

theorem Kept.abandon (hbuffer : s.buffer = []) (reason : Reason) : Kept (abandon reason s) :=
  h.move hphase rfl rfl (by rw [hbuffer]; rfl) rfl

theorem Kept.handOffOr {otherwise : State} (ho : s.waiting = false → Kept otherwise) :
    Kept (handOffOr otherwise s) := by
  unfold Readable.handOffOr
  split_ifs with hwaiting
  · exact h.handOff hphase
  · exact ho (eq_false_of_ne_true hwaiting)

/-! ### Bytes arrive -/

theorem Kept.takeFlowing
    (hstored : s.stored.bytes = [] ∨ (s.lastState = .paused ∧ s.buffer = [])) :
    Kept (takeFlowing s) := by
  have hsame : s.buffer ++ s.stored.bytes = s.stored.bytes ++ s.buffer := by
    rcases hstored with hnil | ⟨-, hnil⟩
    all_goals rw [hnil, append_nil, List.nil_append]
  unfold Readable.takeFlowing
  -- the stored bytes are put behind those of the loop
  extract_lets _ t
  obtain ⟨ht, htphase, htstored⟩ :
      Kept t ∧ t.phase ≠ .stopped .handedOff ∧ t.stored.bytes = [] := by
    unfold t
    split_ifs with hlast
    · exact ⟨h.move hphase rfl rfl hsame rfl, hphase, rfl⟩
    · exact ⟨h, hphase, hstored.resolve_right fun hr => hlast hr.1⟩
  split_ifs with hbuffer
  · exact ht.handOffOr htphase fun _ => ht.finish htphase hbuffer false
  · refine ⟨?_, .inl (ht.running htphase)⟩
    rw [← ht.bytes, htstored, ht.running htphase]
    simp

theorem Kept.takePaused
    (hc : if chunk = [] then s.waiting = false → s.buffer = [] else s.listener.isSome = true) :
    Kept (takePaused chunk s) := by
  unfold Readable.takePaused
  split_ifs at hc ⊢ with hchunk hconsumer
  · exact h.handOffOr hphase fun hwaiting => h.finish hphase (hc hwaiting) false
  · rw [State.hasConsumer, hc] at hconsumer
    cases hconsumer
  · exact h.move hphase rfl rfl rfl rfl

theorem Kept.takeInit
    (hc : if chunk = [] then s.buffer = [] else s.listener.isSome = true) :
    Kept (takeInit chunk s) := by
  unfold Readable.takeInit
  split_ifs at hc ⊢ with hchunk hconsumer
  · exact h.finish hphase hc false
  · rw [State.hasConsumer, hc] at hconsumer
    cases hconsumer
  · exact h.move hphase rfl rfl rfl rfl

theorem Kept.filled (hbuffer : s.buffer = []) : Kept (filled s) := by
  unfold Readable.filled
  split_ifs
  · exact h.abandon hphase hbuffer _
  · exact h.move hphase rfl rfl (by rw [hbuffer]; rfl) rfl

theorem Kept.fill (hclosed : s.stored.closed = false) : Kept (fill s) := by
  have hmoved : Kept { s with
      stored := { s.stored with bytes := s.stored.bytes ++ s.buffer.take s.stored.available }
      buffer := s.buffer.drop s.stored.available } := by
    refine h.move hphase rfl rfl ?_ rfl
    rw [append_assoc, List.take_append_drop]
  unfold Readable.fill
  rw [if_neg (by rw [hclosed]; exact Bool.false_ne_true)]
  dsimp only
  split_ifs with hbuffer
  · exact hmoved.filled hphase hbuffer
  · exact hmoved

end Running

theorem Kept.arrive (h : Kept s) (hphase : s.phase = .select) (hc : Lossless s (.arrive chunk)) :
    Kept (arrive chunk s) := by
  have hne : s.phase ≠ .stopped .handedOff := by
    rw [hphase]
    exact nofun
  have htaken : ∀ (capacity : ℕ) (state : ReadableState) (hasData : Bool),
      Kept { s with
        buffer := s.buffer ++ chunk, capacity, arrived := s.arrived ++ chunk, state, hasData } := by
    intro capacity state hasData
    refine ⟨?_, .inl (h.running hne)⟩
    rw [← h.bytes, append_assoc _ s.buffer]
  unfold Lossless at hc
  unfold Readable.arrive
  dsimp only at hc ⊢
  generalize stateFor chunk s = state at hc ⊢
  cases state with
  | flowing => exact (htaken _ _ _).takeFlowing hne hc
  | paused =>
    refine (htaken _ _ _).takePaused hne ?_
    by_cases hchunk : chunk = [] <;> simpa [hchunk] using hc
  | init =>
    refine (htaken _ _ _).takeInit hne ?_
    by_cases hchunk : chunk = [] <;> simpa [hchunk] using hc

/-! ### Steps and runs -/

theorem read_append (b : BytearrayBuffer) (size : Option ℕ) :
    (b.read size).1.getD [] ++ (b.read size).2.bytes = b.bytes := by
  unfold BytearrayBuffer.read
  split_ifs
  · exact append_nil _
  · cases size with
    | none => exact append_nil _
    | some n =>
      dsimp only
      split_ifs
      · rfl
      · rfl
      · exact List.take_append_drop n b.bytes

theorem kept_initial : Kept State.initial := ⟨rfl, Or.inl rfl⟩

theorem Kept.listen (h : Kept s) (listener : Listener) : Kept (listen listener s) := by
  cases listener <;> exact { h with }

theorem Kept.unlisten (h : Kept s) (listener : Listener) :
    Kept (unlisten listener s) := by
  cases listener <;> exact { h with }

theorem Kept.drain (h : Kept s) : Kept (drain s) := by
  unfold Readable.drain
  split_ifs
  · exact h.give (append_nil _)
  · exact h

theorem Kept.step {act : Act} (h : Kept s) (hc : Lossless s act) (hstep : step s act = some s') :
    Kept s' := by
  have hne {p : Phase} (hphase : s.phase = p) (hp : p ≠ .stopped .handedOff) :
      s.phase ≠ .stopped .handedOff := hphase ▸ hp
  revert hstep
  fun_cases Readable.step s act
  all_goals rintro ⟨⟩
  · exact h.listen _
  · exact h.unlisten _
  · exact h.give (read_append s.stored _)
  · exact h.drain
  iterate 3 exact { h with }
  · next hphase t _ => exact Kept.finish (s := t) { h with } (hne hphase nofun) hc _
  · next hphase t _ =>
    have hw : Kept t := { h with }
    exact hw.handOffOr (hne hphase nofun) fun _ => hw.move (hne hphase nofun) rfl rfl rfl rfl
  · next hphase hunref => exact h.finish (hne hphase nofun) (hc (by simpa using hunref)) _
  · next hphase _ =>
    exact h.handOffOr (hne hphase nofun) fun _ => h.move (hne hphase nofun) rfl rfl rfl rfl
  · next hphase => exact h.arrive hphase.1 hc
  · next hphase => exact h.abandon (hne hphase nofun) hc _
  · next hphase => exact h.finish (hne hphase.1 nofun) hc _
  · next hphase =>
    have hs : Kept { s with signalled := false } := { h with }
    exact hs.finish (hphase.1.elim (hne · nofun) (hne · nofun)) hc true
  iterate 2
    next t hphase =>
    have hs : Kept t := { h with }
    exact hs.handOffOr (hne hphase nofun) fun _ => hs.move (hne hphase nofun) rfl rfl rfl rfl
  · next hphase =>
    exact h.move (hne hphase.1 nofun) rfl rfl (by rw [show s.stored.bytes = [] from hc]; rfl) rfl
  · next hphase => exact h.fill (hne hphase nofun) hc
  iterate 2 next hphase => exact h.move (hne hphase nofun) rfl rfl rfl rfl
  iterate 2 next hphase => exact h.abandon (hne hphase nofun) hc _

/-! ### One kind of listener -/

/-- The program keeps to one kind of listener, does not destroy or hand off the stream, and its
listeners do not throw. -/
def Act.Steady (kind : Listener) : Act → Prop
  | .listen listener => listener = kind
  | .unlisten _ => False
  | .destroy => False
  | .requestHandoff => False
  | .thrown => False
  | _ => True

/-- The state of a stream with one kind of listener. -/
def Listener.state : Listener → ReadableState
  | .data => .flowing
  | .readable => .paused

/-- The loop holds bytes that it has not stored yet. -/
def Phase.holds : Phase → Bool
  | .emittingReadable => true
  | .filling => true
  | _ => false

/-- What the loop does not change while there is one kind of listener. -/
structure Constant (kind : Listener) (s : State) : Prop where
  state : s.state = kind.state
  listener : s.listener = some kind
  attached : s.attached = 0
  signalled : s.signalled = false
  notified : s.notified = 0
  stored : kind = .data → s.stored.bytes = []

/-- A stream that had one kind of listener from the beginning. -/
structure Steady (kind : Listener) (s : State) : Prop extends Constant kind s where
  closed : s.stored.closed = true → ∃ reason, s.phase = .stopped reason
  resting : s.phase.holds = false → s.buffer = []
  flowing : kind = .data → s.phase.holds = false

variable {kind : Listener}

theorem Constant.rest (h : Constant kind s)
    (hclosed : s.stored.closed → ∃ reason, s.phase = .stopped reason)
    (hbuffer : s.buffer = []) (hholds : s.phase.holds = false) : Steady kind s :=
  { h with closed := hclosed, resting := fun _ => hbuffer, flowing := fun _ => hholds }

theorem Constant.finish (h : Constant kind s) (destroyed : Bool) :
    Steady kind (finish destroyed s) :=
  Constant.rest { h with } (fun _ => ⟨_, rfl⟩) rfl rfl

theorem Constant.handOffOr {otherwise : State} (h : Constant kind s)
    (ho : Steady kind otherwise) : Steady kind (handOffOr otherwise s) := by
  unfold Readable.handOffOr
  split_ifs
  · exact Constant.rest { h with stored := fun _ => rfl } (fun _ => ⟨_, rfl⟩) rfl rfl
  · exact ho

theorem Constant.takeFlowing (h : Constant kind s) (hopen : s.stored.closed = false) :
    Steady kind (takeFlowing s) := by
  unfold Readable.takeFlowing
  extract_lets _ t
  obtain ⟨ht, htopen⟩ : Constant kind t ∧ t.stored.closed = false := by
    unfold t
    split_ifs
    · exact ⟨{ h with stored := fun _ => rfl }, hopen⟩
    · exact ⟨h, hopen⟩
  split_ifs
  · exact ht.handOffOr (ht.finish false)
  · exact Constant.rest { ht with }
      (fun hclosed => absurd (hclosed.symm.trans htopen) nofun) rfl rfl

theorem Constant.takePaused (h : Constant .readable s) (hopen : s.stored.closed = false)
    (chunk : List UInt8) :
    Steady .readable (takePaused chunk s) := by
  unfold Readable.takePaused
  split_ifs with hchunk hconsumer
  · exact h.handOffOr (h.finish false)
  · rw [State.hasConsumer, h.listener] at hconsumer
    cases hconsumer
  · exact { h with
      closed := fun hclosed => absurd (hclosed.symm.trans hopen) nofun
      resting := nofun
      flowing := nofun }

theorem Steady.isOpen (h : Steady kind s) {p : Phase} (hphase : s.phase = p)
    (hp : ∀ reason, p ≠ .stopped reason) : s.stored.closed = false := by
  refine eq_false_of_ne_true fun hclosed => ?_
  obtain ⟨reason, hstopped⟩ := h.closed hclosed
  exact hp reason (hphase.symm.trans hstopped)

theorem Constant.stateFor (h : Constant kind s) (chunk : List UInt8) :
    stateFor chunk s = kind.state := by
  unfold Readable.stateFor
  rw [if_neg, h.state]
  rw [h.state]
  cases kind
  all_goals exact fun hc => ReadableState.noConfusion hc.2.1

theorem Steady.arrive (h : Steady kind s) (hphase : s.phase = .select) (chunk : List UInt8) :
    Steady kind (arrive chunk s) := by
  have hopen := h.isOpen hphase nofun
  unfold Readable.arrive
  rw [h.stateFor chunk]
  cases kind with
  | data => exact Constant.takeFlowing { h with state := rfl } hopen
  | readable =>
    refine Constant.takePaused ?_ ?_ chunk
    · exact { h with state := rfl }
    · exact hopen

theorem Steady.fill (h : Steady kind s) (hphase : s.phase = .filling) :
    Steady kind (fill s) := by
  have hopen := h.isOpen hphase nofun
  -- only the bytes of a `readable` stream are stored
  have hkind : kind ≠ .data := by
    intro hkind
    have hholds := h.flowing hkind
    rw [hphase] at hholds
    cases hholds
  have hmoved : Steady kind { s with
      stored := { s.stored with bytes := s.stored.bytes ++ s.buffer.take s.stored.available }
      buffer := s.buffer.drop s.stored.available } := by
    refine { h with stored := fun heq => absurd heq hkind, resting := ?_ }
    intro hholds
    rw [hphase] at hholds
    cases hholds
  unfold Readable.fill
  rw [if_neg (by rw [hopen]; exact Bool.false_ne_true)]
  dsimp only
  split_ifs with hbuffer
  · unfold filled
    split_ifs
    · exact Constant.rest { hmoved with } (fun _ => ⟨_, rfl⟩) rfl rfl
    · exact Constant.rest { hmoved with }
        (fun hclosed => absurd (hclosed.symm.trans hopen) nofun) rfl rfl
  · exact hmoved

/-- The loop goes on from a phase in which it holds no bytes to another. -/
theorem Steady.goto (h : Steady kind s) {p q : Phase} (hphase : s.phase = p)
    (hp : ∀ reason, p ≠ .stopped reason) (hholds : p.holds = false) (hq : q.holds = false) :
    Steady kind { s with phase := q } := by
  have hopen := h.isOpen hphase hp
  refine Constant.rest { h with }
    (fun hclosed => absurd (hclosed.symm.trans hopen) nofun) (h.resting ?_) hq
  rw [hphase]
  exact hholds

theorem steady_listen (kind : Listener) : Steady kind (listen kind State.initial) := by
  cases kind
  all_goals exact ⟨⟨rfl, rfl, rfl, rfl, rfl, fun _ => rfl⟩, nofun, fun _ => rfl, fun _ => rfl⟩

theorem Steady.listen (h : Steady kind s) : Steady kind (listen kind s) := by
  cases kind with
  | data =>
    refine { h with state := rfl, listener := rfl, attached := ?_ }
    show (if s.state = .paused ∧ s.phase ≠ .idle then s.attached + 1 else s.attached) = 0
    rw [if_neg fun hc => ReadableState.noConfusion (h.state.symm.trans hc.1)]
    exact h.attached
  | readable => exact { h with state := rfl, listener := rfl }

theorem read_closed (b : BytearrayBuffer) (size : Option ℕ) :
    (b.read size).2.closed = b.closed := by
  unfold BytearrayBuffer.read
  split_ifs
  · rfl
  · cases size with
    | none => rfl
    | some n =>
      dsimp only
      split_ifs <;> rfl

theorem Steady.read (h : Steady kind s) (size : Option ℕ) :
    Steady kind (read size s) := by
  refine { h with stored := fun hkind => ?_, closed := ?_ }
  · have hbytes := read_append s.stored size
    rw [h.stored hkind] at hbytes
    exact (List.append_eq_nil_iff.1 hbytes).2
  · intro hclosed
    exact h.closed ((read_closed s.stored size).symm.trans hclosed)

/-- Every event is lossless and leads to a stream of this kind. -/
theorem Steady.step {act : Act} (h : Steady kind s) (hact : act.Steady kind)
    (hstep : step s act = some s') : Lossless s act ∧ Steady kind s' := by
  have hbuffer {p : Phase} (hphase : s.phase = p) (hp : p.holds = false) : s.buffer = [] :=
    h.resting (by rw [hphase]; exact hp)
  revert hstep
  fun_cases Readable.step s act
  case case2 | case5 | case6 | case33 | case34 => cases hact
  all_goals rintro ⟨⟩
  · obtain rfl : _ = kind := hact
    exact ⟨trivial, h.listen⟩
  · exact ⟨trivial, h.read _⟩
  · refine ⟨trivial, ?_⟩
    unfold Readable.drain
    split_ifs
    · exact { h with stored := fun _ => rfl }
    · exact h
  · exact ⟨trivial, { h with }⟩
  · next hphase t _ =>
    have hw : Steady kind t := { h with }
    exact ⟨hbuffer hphase rfl, hw.finish _⟩
  · next hphase t _ =>
    have hw : Steady kind t := { h with }
    exact ⟨hbuffer hphase rfl, hw.handOffOr (hw.goto hphase nofun rfl rfl)⟩
  · next hphase _ => exact ⟨fun _ => hbuffer hphase rfl, h.finish _⟩
  · next hphase _ =>
    exact ⟨fun _ => hbuffer hphase rfl, h.handOffOr (h.goto hphase nofun rfl rfl)⟩
  · next chunk hphase =>
    refine ⟨?_, h.arrive hphase.1 chunk⟩
    simp only [Lossless, h.stateFor chunk]
    cases kind with
    | data => exact .inl (h.stored rfl)
    | readable =>
      split_ifs
      · exact fun _ => hbuffer hphase.1 rfl
      · rw [h.listener]; rfl
  · next hphase =>
    exact ⟨hbuffer hphase rfl, Constant.rest { h with } (fun _ => ⟨_, rfl⟩) rfl rfl⟩
  · next hphase => exact ⟨hbuffer hphase.1 rfl, h.finish _⟩
  · next hphase => cases hphase.2.symm.trans h.signalled
  iterate 2 next hnotified _ _ => cases h.notified ▸ hnotified
  · next hphase => cases h.attached ▸ hphase.2
  · next hphase => exact ⟨h.isOpen hphase nofun, h.fill hphase⟩
  · next hphase =>
    have hl : Steady kind { s with lastState := .flowing } := { h with }
    exact ⟨trivial, hl.goto hphase nofun rfl rfl⟩
  · next hphase =>
    have hopen := h.isOpen hphase nofun
    exact ⟨trivial, { h with
      closed := fun hclosed => absurd (hclosed.symm.trans hopen) nofun
      resting := nofun
      flowing := fun hkind => absurd (h.flowing hkind) (by rw [hphase]; nofun) }⟩

/-- **A stream that has one kind of listener from the beginning loses nothing.** -/
theorem steady_lossless {acts : List Act} (hacts : ∀ act ∈ acts, act.Steady kind)
    (hrun : run step State.initial (.listen kind :: acts) = some s) :
    RunEach step Lossless State.initial (.listen kind :: acts) := by
  refine ⟨trivial, fun s' hstep => ?_⟩
  cases hstep
  have hkeep : ∀ s act s', Steady kind s → act.Steady kind → step s act = some s' →
      Lossless s act ∧ Steady kind s' := fun _ _ _ h hact hstep => h.step hact hstep
  exact runEach_of_invariant hkeep (steady_listen kind) hacts hrun

/-- **Where no event of a run drops bytes or lets them be overtaken**, the bytes given out by `data`
events and `read`, those handed off with the transport, those stored and those held by the loop are
the bytes of the transport, in this order; so where a consumer has taken all of them, it has got the
transport's bytes. -/
theorem readable_conserves {acts : List Act} {s : State}
    (hrun : run step State.initial acts = some s)
    (hlossless : RunEach step Lossless State.initial acts) :
    s.given ++ s.handedOver ++ s.stored.bytes ++ s.buffer = s.arrived ∧
      (s.handedOver = [] → s.stored.bytes = [] → s.buffer = [] → s.given = s.arrived) := by
  have h : Kept s :=
    RunEach.invariant (fun _ _ _ h hc hstep => Kept.step h hc hstep) kept_initial hlossless hrun
  refine ⟨h.bytes, fun hhanded hstored hbuffer => ?_⟩
  rw [← h.bytes, hhanded, hstored, hbuffer]
  simp

/-- A `readable` listener from the beginning, and `read` until the end. -/
theorem readable_conserves_readable :
    ∃ s, run step State.initial
        [.listen .readable, .start false, .tick, .arrive [97, 98], .returned, .fill, .read (some 1),
          .tick, .arrive [99], .returned, .fill, .tick, .arrive [], .read none] = some s ∧
      s.given = s.arrived ∧ s.arrived = [97, 98, 99] ∧ s.phase = .stopped .ended := by
  refine exists_of_run step rfl fun hrun => ?_
  have hlossless := steady_lossless (by simp [Act.Steady]) hrun
  exact ⟨(readable_conserves hrun hlossless).2 rfl rfl rfl, rfl, rfl⟩

/-- **One kind of listener from the beginning**: the bytes of the transport are those given out,
handed off, stored and held, in this order. -/
theorem steady_conserves {acts : List Act} (hacts : ∀ act ∈ acts, act.Steady kind)
    (hrun : run step State.initial (.listen kind :: acts) = some s) :
    s.given ++ s.handedOver ++ s.stored.bytes ++ s.buffer = s.arrived := by
  have h : Kept s := RunEach.invariant (fun _ _ _ h hc hstep => Kept.step h hc hstep) kept_initial
    (steady_lossless hacts hrun) hrun
  exact h.bytes

theorem steady_conserves_data : ∃ s, run step State.initial
    [.listen .data, .start false, .tick, .arrive [97], .returned] = some s ∧
      s.given ++ s.handedOver ++ s.stored.bytes ++ s.buffer = s.arrived :=
  exists_of_run _ rfl fun hrun => steady_conserves (by simp [Act.Steady]) hrun

/-- A `data` listener is added while a byte is stored: the next byte is given out before it. And a
byte that arrives after a `readable` listener was added to a `data` listener and removed again is
lost, although the `data` listener is still there. -/
theorem listeners_reorder_and_lose :
    (∃ s, run step State.initial
        [.listen .readable, .start false, .tick, .arrive [97], .returned, .fill,
          .listen .data, .tick,
          .arrive [98], .returned, .tick, .arrive []] = some s ∧
      s.arrived = [97, 98] ∧ s.given = [98, 97] ∧ s.phase = .stopped .ended) ∧
    ∃ s, run step State.initial
        [.listen .data, .start false, .tick, .listen .readable, .unlisten .readable, .arrive [97],
          .tick, .arrive []] = some s ∧
      s.arrived = [97] ∧ s.given = [] ∧ s.stored.bytes = [] ∧ s.buffer = [] ∧
      s.phase = .stopped .ended :=
  ⟨⟨_, rfl, rfl, rfl, rfl⟩, _, rfl, rfl, rfl, rfl, rfl, rfl⟩

end RasterRuntime.NodeStream.Readable
