import RasterRuntime.BodyStream.Decoding
import RasterRuntime.BodyStream.Crew

/-! # What the reads of a body get

The bytes that a body decodes to are in three parts (`Tally`): those of the chunks that reads were
given, those of the chunks in the queue, and the rest, which the decoder will give for the data that
is still to come. Who has the body and who waits for it is the matter of `Crew`: at most one read by
the native pull is pending, and the task of it is polled before the tasks of later pulls.

* `Sound.step`: every event keeps both, as long as it is `Regular`.
* `body_delivered`: so in a run of regular events the reads are settled in the order of the calls,
  the chunks are a first part of what the body decodes to, and a read is done only when they are all
  of it and the body has ended.
* `overlapping_read_done`: a read by the native pull while another one is pending is done at
once. -/

namespace RasterRuntime.BodyStream

open Streams Transition Incoming State
open List (append_nil not_mem_nil replicate)
open ReadableStream (Outcome Lane Gives Ending pending queued outcomes)

variable {δ F : Type}

/-! ### Outcomes -/

/-- A read that gets these bytes. -/
def chunkOf (b : Bytes) : Outcome Value := .chunk (.bytes b)

/-- The bytes of the chunks before the first read that is done. -/
def bytesBeforeDone : List (Outcome Value) → Bytes
  | .chunk (.bytes b) :: rest => b ++ bytesBeforeDone rest
  | _ => []

theorem bytesBeforeDone_append (cs : List Bytes) (k : ℕ) :
    bytesBeforeDone (cs.map chunkOf ++ replicate k .done) = cs.flatten := by
  induction cs with
  | nil =>
    cases k <;> rfl
  | cons c cs ih =>
    rw [List.map_cons, List.cons_append, List.flatten_cons, ← ih]
    rfl

/-! ### Bytes -/

variable [Codec δ]

/-- A body that decodes to `rest`, or is gone when there is no more. -/
structure Source (body : Incoming) (place : Place) (d : Decoding δ) (rest : Bytes) : Prop where
  clean : Clean body
  source : place ≠ .dropped → Decodes d (data body) rest
  gone : place = .dropped → rest = [] ∧ frames body = []

/-- **The bytes of a body**: `cs` were given to reads, `qs` are in the queue, and `rest` is what the
rest of the body decodes to; `k` reads are done. -/
structure Tally (plain : Bytes) (s : State δ F) (cs qs : List Bytes) (k : ℕ) (rest : Bytes) : Prop
    extends Source s.body s.place s.decoding rest where
  given : outcomes s.readable = cs.map chunkOf ++ replicate k .done
  stored : queued s.readable = qs.map .bytes
  total : cs.flatten ++ qs.flatten ++ rest = plain
  ending : Ending s.readable → s.place = .dropped
  done : k ≠ 0 → s.place = .dropped ∧ qs = []

variable {body : Incoming}

theorem Source.of_slot {place : Place} {d : Decoding δ} {rest : Bytes}
    (hc : Clean body) (hp : place ≠ .dropped) (hd : Decodes d (data body) rest) :
    Source body place d rest :=
  ⟨hc, fun _ => hd, fun hg => absurd hg hp⟩

theorem Source.dropped (d : Decoding δ) : Source [] .dropped d [] :=
  ⟨fun _ => not_mem_nil, fun hd => absurd rfl hd, fun _ => ⟨rfl, rfl⟩⟩

namespace Tally

variable {plain rest b : Bytes} {s t : State δ F} {cs qs : List Bytes} {k : ℕ}

section

variable (h : Tally plain s cs qs k rest)

include h

theorem not_done (hp : s.place ≠ .dropped) : k = 0 := by
  by_contra hk
  exact hp (h.done hk).1

theorem not_ending (hp : s.place ≠ .dropped) : ¬ Ending s.readable :=
  fun he => hp (h.ending he)

theorem qs_nil (hq : queued s.readable = []) : qs = [] := by
  rw [h.stored] at hq
  exact List.map_eq_nil_iff.mp hq

theorem same (ho : outcomes t.readable = outcomes s.readable)
    (hq : queued t.readable = queued s.readable) (hs : Source t.body t.place t.decoding rest)
    (hp : t.place = s.place) (he : Ending t.readable → Ending s.readable) :
    Tally plain t cs qs k rest :=
  { hs with
    given := ho.trans h.given
    stored := hq.trans h.stored
    total := h.total
    ending := fun hend => hp.trans (h.ending (he hend))
    done := fun hk => (h.done hk).imp_left hp.trans }

omit h in
/-- Of the rest, the chunks `as` go to reads and the chunks `bs` to the queue. -/
theorem advance {all : Bytes} (as bs : List Bytes) (h : Tally plain s cs qs k all)
    (hall : all = as.flatten ++ bs.flatten ++ rest) (hp : s.place ≠ .dropped)
    (has : as ≠ [] → queued s.readable = [])
    (ho : outcomes t.readable = outcomes s.readable ++ as.map chunkOf)
    (hq : queued t.readable = queued s.readable ++ bs.map .bytes)
    (hs : Source t.body t.place t.decoding rest) (he : Ending t.readable → Ending s.readable) :
    Tally plain t (cs ++ as) (qs ++ bs) 0 rest := by
  refine { hs with
    given := ?_, stored := ?_, total := ?_
    ending := fun hend => absurd (he hend) (h.not_ending hp)
    done := fun hk => absurd rfl hk }
  · rw [ho, h.given, h.not_done hp]
    simp
  · rw [hq, h.stored, List.map_append]
  · rw [← h.total, hall]
    by_cases hnil : as = []
    · simp [hnil]
    · simp [h.qs_nil (has hnil)]

theorem dequeue {v : Value} {q : List Value}
    (hqs : queued s.readable = v :: q)
    (ho : outcomes t.readable = outcomes s.readable ++ [.chunk v])
    (hq : queued t.readable = q) (hs : Source t.body t.place t.decoding rest)
    (hp : t.place = s.place) (he : Ending t.readable → Ending s.readable) :
    ∃ b qs', Tally plain t (cs ++ [b]) qs' k rest := by
  have hstored := h.stored
  rw [hqs] at hstored
  obtain ⟨b, qs', rfl, hv, hq'⟩ := List.map_eq_cons_iff.mp hstored.symm
  have hk : k = 0 := by
    by_contra hk
    cases (h.done hk).2
  subst hk
  refine ⟨b, qs', hs, ?_, ?_, ?_, fun hend => hp.trans (h.ending (he hend)),
    fun hk => absurd rfl hk⟩
  · rw [ho, h.given, ← hv]
    simp [chunkOf]
  · rw [hq, hq']
  · rw [← h.total]
    simp

end

theorem finish {m : ℕ} (h : Tally plain s cs qs k []) (hp : t.place = .dropped)
    (hs : Source t.body t.place t.decoding [])
    (ho : outcomes t.readable = outcomes s.readable ++ replicate m .done)
    (hq : queued t.readable = queued s.readable) (hm : m ≠ 0 → queued s.readable = []) :
    Tally plain t cs qs (k + m) [] := by
  refine { hs with
    given := ?_
    stored := hq.trans h.stored
    total := h.total
    ending := fun _ => hp
    done := fun hk => ⟨hp, ?_⟩ }
  · rw [ho, h.given, List.append_assoc, List.replicate_append_replicate]
  · by_cases hm0 : m = 0
    · exact (h.done (by omega)).2
    · exact h.qs_nil (hm hm0)

end Tally

/-- **A body stream in order**. -/
def Sound (plain : Bytes) (s : State δ F) : Prop :=
  Crew s ∧ ∃ cs qs k rest, Tally plain s cs qs k rest

namespace Sound

variable {plain : Bytes} {s : State δ F}

theorem quietly {readable : ReadableStream.State Value F} (h : Sound plain s)
    (hq : ReadableStream.Quietly s.readable readable)
    (hp : s.readable.controller.pullPromise → readable.controller.pullPromise) :
    Sound plain (s.withReadable readable) := by
  obtain ⟨hc, cs, qs, k, rest, ht⟩ := h
  exact ⟨hc.withReadable (hq.lane hc.lane) (by rw [hq.stream]) hp, cs, qs, k, rest,
    ht.same hq.outcomes_eq hq.queued_eq ht.toSource rfl hq.ending_iff.mp⟩

variable {r k : ℕ} {d : Decoding δ} {cs qs : List Bytes} {rest : Bytes}

theorem answerNative {o : Outcome Value} {place : Place} (hc : Crew s)
    (hp : pending s.readable = []) (hpull : s.readable.controller.pulling = false)
    (hplace : ∀ t, place ≠ .taken t) (ht : Tally plain { s with
      readable := { s.readable with stream := s.readable.stream.answer r o }
      body := body, place := place, decoding := d } cs qs k rest) :
    Sound plain { s with
      readable := { s.readable with stream := s.readable.stream.answer r o }
      body := body, place := place, decoding := d } := by
  obtain ⟨hs, hfree⟩ := hc.free hp hpull
  refine ⟨⟨hc.lane.answer hp r o, ?_, ?_⟩, cs, qs, k, rest, ht⟩
  · have hpulls := hc.pulls
    unfold pullTasks at hpulls ⊢
    rw [if_neg (hfree .pull)] at hpulls
    rw [if_neg (hplace .pull)]
    exact hpulls
  · have hn : s.readable.stream.nativeReads = [] := (List.append_eq_nil_iff.mp hp).1
    show Natives s.readable.stream.nativeReads _ s.spawned
    rw [hn, hs]
    exact .idle (fun _ => not_mem_nil) (fun p => hplace (.native p))

theorem readNative (h : Sound plain s) (hnp : s.readable.tryGetNativePull)
    (hp : pending s.readable = []) : Sound plain (s.readNative r) := by
  obtain ⟨hc, cs, qs, k, rest, ht⟩ := h
  unfold ReadableStream.State.tryGetNativePull at hnp
  simp only [Bool.and_eq_true, decide_eq_true_eq, Bool.not_eq_true', List.isEmpty_iff] at hnp
  obtain ⟨⟨⟨hphase, hempty⟩, hpull⟩, -⟩ := hnp
  have hq : queued s.readable = [] := by
    unfold queued
    rw [hempty]
    rfl
  obtain ⟨hspawned, hfree⟩ := hc.free hp hpull
  unfold State.readNative
  cases hplace : s.place with
  | taken t => exact absurd hplace (hfree t)
  | dropped =>
    have heof : s.nativePull = (.eof, s) := by
      unfold nativePull
      rw [hplace]
    obtain ⟨rfl, -⟩ := ht.gone hplace
    rw [heof]
    exact answerNative hc hp hpull hfree (ht.finish (m := 1) hplace ht.toSource
      (ReadableStream.outcomes_answer _ r .done) rfl (fun _ => hq))
  | slot =>
    have hne : s.place ≠ .dropped := by
      rw [hplace]
      simp
    have hfinds := nativePull_finds hplace ht.clean (ht.source hne)
    generalize s.nativePull = pulled at hfinds ⊢
    cases hfinds with
    | wait body hclean hd =>
      refine ⟨⟨hc.lane.addNativeRead hp hq hphase, ?_, ?_⟩, cs, qs, k, rest,
        ht.same rfl rfl (.of_slot hclean hne hd) rfl id⟩
      · have hpulls := hc.pulls
        unfold pullTasks at hpulls ⊢
        dsimp only
        rw [List.count_append, List.count_eq_zero_of_not_mem (l := [Task.native _]) (by simp)]
        exact hpulls
      · show Natives (s.readable.stream.nativeReads ++ [s.readable.stream.nextPromise]) s.place
          (s.spawned ++ [.native s.readable.stream.nextPromise])
        rw [(List.append_eq_nil_iff.mp hp).1, hspawned, hplace]
        exact .waiting _ (fun _ => not_mem_nil)
    | chunk out rest' body d hr hclean hd =>
      exact answerNative hc hp hpull hfree (ht.advance [out] [] (by simp [hr]) hne (fun _ => hq)
        (ReadableStream.outcomes_answer _ r _) (append_nil _).symm (.of_slot hclean hne hd) id)
    | last d =>
      exact answerNative hc hp hpull (by simp) (ht.advance [rest] [] (by simp) hne (fun _ => hq)
        (ReadableStream.outcomes_answer _ r _) (append_nil _).symm (.dropped d) id)
    | eof d hr =>
      subst hr
      exact answerNative hc hp hpull (by simp) (ht.finish (m := 1) rfl (.dropped d)
        (ReadableStream.outcomes_answer _ r .done) rfl (fun _ => hq))

/-- A task finds no body: since a read that waits is polled first, it is one of a pull. -/
theorem passTask {t : Task} {ts : List Task} (h : Sound plain s) (hs : s.spawned = t :: ts)
    (hp : s.place ≠ .slot) : Sound plain ({ s with spawned := ts }.passTask t) := by
  obtain ⟨hc, cs, qs, k, rest, ht⟩ := h
  have hnat := hc.natives
  have hpull : t = .pull ∧ Natives s.readable.stream.nativeReads s.place ts := by
    rw [hs] at hnat
    generalize s.readable.stream.nativeReads = l at hnat ⊢
    generalize s.place = place at hnat hp ⊢
    cases hnat with
    | idle hno hplace =>
      refine ⟨?_, .idle (fun p hm => hno p (.tail _ hm)) hplace⟩
      cases t with
      | pull => rfl
      | native p => exact absurd (.head _) (hno p)
    | waiting p hno => exact absurd rfl hp
    | reading p hno =>
      refine ⟨?_, .reading p (fun q hm => hno q (.tail _ hm))⟩
      cases t with
      | pull => rfl
      | native q => exact absurd (.head _) (hno q)
  obtain ⟨rfl, hnat'⟩ := hpull
  refine ⟨⟨hc.lane, ?_, hnat'⟩, cs, qs, k, rest, { ht with }⟩
  have hpulls := hc.pulls
  unfold pullTasks at hpulls ⊢
  rw [hs, List.count_cons_self] at hpulls
  show ts.count .pull + (if s.place = .taken .pull then 1 else 0) + 1 =
    if s.readable.controller.pullPromise then 1 else 0
  have hle : (if s.readable.controller.pullPromise = true then 1 else 0) ≤ 1 := by
    split_ifs <;> omega
  omega

variable [Binary64 F]

theorem getReader (h : Sound plain s) : Sound plain (step s .getReader) := by
  obtain ⟨hc, cs, qs, k, rest, ht⟩ := h
  have hnat : s.readable.stream.getReader.nativeReads = s.readable.stream.nativeReads ∧
      s.readable.stream.getReader.settled = s.readable.stream.settled ∧
      s.readable.stream.getReader.phase = s.readable.stream.phase := by
    unfold ReadableStream.Stream.getReader
    cases s.readable.stream.reader with
    | none | some => exact ⟨rfl, rfl, rfl⟩
  refine ⟨⟨hc.lane.getReader, hc.pulls, ?_⟩, cs, qs, k, rest, ?_⟩
  · show Natives s.readable.stream.getReader.nativeReads _ _
    rw [hnat.1]
    exact hc.natives
  · refine ht.same ?_ rfl ht.toSource rfl (fun he => ?_)
    · show s.readable.stream.getReader.settled.map Prod.snd = _
      rw [hnat.2.1]
      rfl
    · unfold Ending at he ⊢
      rw [← hnat.2.2]
      exact he

theorem readDefault (h : Sound plain s) (hr : s.readable.stream.reader = some r) :
    Sound plain (s.withReadable (s.readable.readDefault r)) := by
  obtain ⟨hc, cs, qs, k, rest, ht⟩ := h
  obtain ⟨os, q, hg, he, hcase⟩ := ReadableStream.gives_readDefault hc.lane hr
  refine ⟨hc.withReadable hg.lane hg.nativeReads hg.pullPromise, ?_⟩
  rcases hcase with ⟨rfl, rfl, hphase⟩ | ⟨v, hv, rfl⟩ | ⟨rfl, rfl⟩
  · have hp := ht.ending (.inr hphase)
    obtain ⟨rfl, -⟩ := ht.gone hp
    exact ⟨cs, qs, k + 1, [], ht.finish hp ht.toSource hg.outcomes hg.queued
      (fun _ => (hc.lane.closed hphase).2.2)⟩
  · obtain ⟨b, qs', ht'⟩ :=
      ht.dequeue (t := s.withReadable (s.readable.readDefault r)) hv hg.outcomes
      hg.queued ht.toSource rfl he
    exact ⟨cs ++ [b], qs', k, rest, ht'⟩
  · exact ⟨cs, qs, k, rest, ht.same (hg.outcomes.trans (append_nil _)) hg.queued ht.toSource rfl he⟩

/-! ### Polls of tasks -/

theorem pullSettles (h : Sound plain s) : Sound plain s.pullSettles := by
  obtain ⟨hc, cs, qs, k, rest, ht⟩ := h
  have hq := ReadableStream.quietly_pullSettles hc.lane.flags
  unfold State.pullSettles
  split_ifs with hres
  · have hpulls := hc.pulls
    unfold pullTasks at hpulls
    rw [if_pos hres] at hpulls
    -- the promise was the only one, so there is no other task of a pull
    have hzero : s.spawned.count .pull = 0 ∧ s.place ≠ .taken .pull := by
      split_ifs at hpulls with h1 h2
      all_goals first | omega | exact ⟨by omega, h1⟩
    have hnat : (s.readable.pullSettles (.ok ())).stream.nativeReads =
        s.readable.stream.nativeReads := by rw [hq.stream]
    refine ⟨⟨hq.lane hc.lane, ?_, ?_⟩, cs, qs, k, rest,
      ht.same hq.outcomes_eq hq.queued_eq ht.toSource rfl hq.ending_iff.mp⟩
    · unfold pullTasks
      by_cases hpp : (s.readable.pullSettles (.ok ())).controller.pullPromise
      all_goals simp [hpp, hzero]
    · dsimp only
      rw [hnat]
      split_ifs
      · exact hc.natives.append_pull
      · exact hc.natives
  · exact ⟨hc, cs, qs, k, rest, ht⟩

variable {t : Task}

theorem settleChunk [UnitSize F] {out : Bytes} (h : Holding s t)
    (ht : Tally plain s cs qs k (out ++ rest)) (hp : s.place ≠ .dropped) (hc : Clean body)
    (hd : Decodes d (data body) rest) :
    Sound plain ({ s with decoding := d, body := body, place := .slot }.settleTask t
      (.ok (some out))) := by
  have hnend := ht.not_ending hp
  have hslot : ∀ t', Place.slot ≠ .taken t' := by simp
  have hstay : Place.slot ≠ .dropped := by simp
  cases t with
  | native p =>
    obtain ⟨hg, he⟩ := ReadableStream.gives_nativeSettles h.lane h.natives (some (.bytes out))
    refine ⟨h.crew_native hg.lane hg.nativeReads hslot rfl rfl
      (ReadableStream.nativeSettles_controller ..), _, _, _, rest, ht.advance [out] [] (by simp) hp
      (fun _ => h.queue_nil) hg.outcomes (hg.queued.trans ?_) (.of_slot hc hstay hd) he⟩
    rw [h.queue_nil]
    rfl
  | pull =>
    obtain ⟨os, q, hg, hnend', hcase⟩ :=
      ReadableStream.gives_enqueue h.lane h.natives hnend (.bytes out)
    refine ⟨h.crew_pull hg.lane hg.nativeReads hslot (spawned_withReadable h.pullPromise) rfl
      hg.pullPromise, ?_⟩
    rcases hcase with ⟨rfl, rfl, hq⟩ | ⟨rfl, rfl⟩
    · exact ⟨_, _, _, rest, ht.advance [out] [] (by simp) hp (fun _ => hq) hg.outcomes
        (hg.queued.trans (by rw [hq]; rfl)) (.of_slot hc hstay hd) (fun he => absurd he hnend')⟩
    · exact ⟨_, _, _, rest, ht.advance [] [out] (by simp) hp (fun hne => absurd rfl hne) hg.outcomes
        hg.queued (.of_slot hc hstay hd) (fun he => absurd he hnend')⟩

theorem settleEnd (h : Holding s t) (ht : Tally plain s cs qs k []) (hp : s.place ≠ .dropped) :
    Sound plain
      ({ s with decoding := d, body := [], place := .dropped }.settleTask t (.ok none)) := by
  have hdropped : ∀ t', Place.dropped ≠ .taken t' := by simp
  cases t with
  | native p =>
    obtain ⟨hg, -⟩ := ReadableStream.gives_nativeSettles h.lane h.natives none
    exact ⟨h.crew_native hg.lane hg.nativeReads hdropped rfl rfl
      (ReadableStream.nativeSettles_controller ..), cs, qs, k + 1, [], ht.finish (m := 1) rfl
      (.dropped d) hg.outcomes (hg.queued.trans h.queue_nil.symm) (fun _ => h.queue_nil)⟩
  | pull =>
    obtain ⟨m, hg, hm⟩ := ReadableStream.gives_close h.lane h.natives (ht.not_ending hp)
    refine ⟨h.crew_pull hg.lane hg.nativeReads hdropped (spawned_withReadable h.pullPromise) rfl
      hg.pullPromise, cs, qs, k + m, [], ?_⟩
    exact ht.finish rfl (.dropped d) hg.outcomes hg.queued hm

theorem pollTask [UnitSize F] (h : Holding s t) (ht : Tally plain s cs qs k rest)
    (hp : s.place ≠ .dropped) (hf : Fruitful s.decoding s.body) :
    Sound plain (s.pollTask t) := by
  have hfinds := readBodyChunk_finds ht.clean (ht.source hp) hf
  unfold State.pollTask
  generalize readBodyChunk s.decoding s.body = polled at hfinds ⊢
  cases hfinds with
  | wait body hc hd =>
    have hholding : Holding { s with body := body, place := .taken t } t := { h with }
    refine ⟨hholding.crew rfl, _, _, _, rest, ht.advance [] [] rfl hp (fun hne => absurd rfl hne)
      (append_nil _).symm (append_nil _).symm (.of_slot hc (by simp) hd) id⟩
  | chunk out rest' d body hr hc hd =>
    subst hr
    exact settleChunk h ht hp hc hd
  | eof d hr =>
    subst hr
    exact settleEnd h ht hp

end Sound

/-! ### Runs -/

section Runs

variable [Binary64 F]

/-- An event that does not end the reads before the body does: no read is pending when one is made
by the native pull; tasks are polled for the first time in the order in which they were spawned; and
a task that reads a chunk finds one. -/
def Regular (s : State δ F) : Event → Prop
  | .read => s.readable.tryGetNativePull = true → pending s.readable = []
  | .begin i => i = 0 ∧ (s.place = .slot → s.spawned ≠ [] → Fruitful s.decoding s.body)
  | .wake => ∀ t, s.place = .taken t → Fruitful s.decoding s.body
  | _ => True

variable {plain : Bytes} {s : State δ F}

theorem Sound.read (h : Sound plain s) (hr : Regular s .read) : Sound plain s.read := by
  fun_cases State.read s
  · exact h
  · next hnp => exact h.readNative hnp (hr hnp)
  · next hreader _ => exact h.readDefault hreader

theorem sound_createBodyStream {encoding : Option String} (hc : Clean body)
    (hd : Decodes (Decoding.new encoding : Decoding δ) (data body) plain) :
    Sound plain (createBodyStream (δ := δ) (F := F) body encoding) := by
  refine ⟨⟨⟨fun _ _ => rfl, rfl, rfl, rfl, fun h => absurd rfl h, fun h => absurd rfl h⟩, rfl,
    .idle (fun _ => not_mem_nil) (fun _ h => by cases h)⟩, [], [], 0, plain, ?_⟩
  refine ⟨.of_slot hc nofun hd, rfl, rfl, rfl, fun h => ?_, fun h => absurd rfl h⟩
  rcases h with h | h
  · cases h
  · exact absurd rfl h

variable [UnitSize F]

theorem Sound.begin (h : Sound plain s) (hr : Regular s (.begin 0)) : Sound plain (s.begin 0) := by
  cases hs : s.spawned with
  | nil =>
    unfold State.begin
    rw [hs]
    exact h
  | cons t ts =>
    unfold State.begin
    rw [hs]
    dsimp only [List.getElem?_cons_zero, List.eraseIdx_cons_zero]
    split
    · next hp =>
      obtain ⟨hc, cs, qs, k, rest, ht⟩ := h
      refine Sound.pollTask (hc.holding hs hp) { ht with } ?_ (hr.2 hp (by rw [hs]; simp))
      rw [hp]
      simp
    · next hp => exact h.passTask hs hp

theorem Sound.wake (h : Sound plain s) (hr : Regular s .wake) : Sound plain s.wake := by
  fun_cases State.wake s
  · next t hp =>
    obtain ⟨hc, cs, qs, k, rest, ht⟩ := h
    exact Sound.pollTask (hc.holding_taken hp) ht (by rw [hp]; simp) (hr t hp)
  · exact h

/-- **Every regular event** keeps the stream in order. -/
theorem Sound.step {e : Event} (h : Sound plain s) (hr : Regular s e) : Sound plain (step s e) := by
  cases e with
  | getReader => exact h.getReader
  | read => exact h.read hr
  | startSettles =>
    exact h.quietly (ReadableStream.quietly_startSettles h.1.lane.flags)
      ReadableStream.startSettles_pullPromise
  | pullSettles => exact h.pullSettles
  | begin i =>
    obtain ⟨rfl, hf⟩ := hr
    exact h.begin ⟨rfl, hf⟩
  | wake => exact h.wake hr

/-- **The body is delivered**: in a run of regular events over a body that decodes to `plain`, reads
are settled in the order of the calls, their chunks are a first part of `plain`, and when one of
them is done they are all of it and the body has ended. -/
theorem body_delivered (body : Incoming) (encoding : Option String) (plain : Bytes)
    (es : List Event)
    (hc : Clean body) (hd : Decodes (Decoding.new encoding : Decoding δ) (data body) plain)
    (hr : Each step Regular (createBodyStream body encoding : State δ F) es) :
    let s := es.foldl step (createBodyStream body encoding : State δ F)
    s.readable.stream.settled.map Prod.fst = List.range s.readable.stream.settled.length ∧
      bytesBeforeDone (outcomes s.readable) <+: plain ∧
      (.done ∈ outcomes s.readable →
        bytesBeforeDone (outcomes s.readable) = plain ∧ frames s.body = []) := by
  obtain ⟨hcrew, cs, qs, k, rest, ht⟩ := hr.invariant (I := Sound plain)
    (fun _ _ h hreg => h.step hreg) (sound_createBodyStream hc hd)
  intro s
  refine ⟨?_, ?_, ?_⟩
  · exact hcrew.lane.settled_order
  · rw [ht.given, bytesBeforeDone_append, ← ht.total, List.append_assoc]
    exact List.prefix_append _ _
  · intro hdone
    have hk : k ≠ 0 := by
      rintro rfl
      rw [ht.given] at hdone
      simp [chunkOf] at hdone
    obtain ⟨hplace, rfl⟩ := ht.done hk
    obtain ⟨rfl, hframes⟩ := ht.gone hplace
    refine ⟨?_, hframes⟩
    rw [ht.given, bytesBeforeDone_append, ← ht.total]
    simp

/-- A read by the native pull that has to wait, one by a pull, and one at the end: the run is
regular. -/
theorem body_delivered_three :
    Each step Regular (createBodyStream [.pending, .frame (.data [1, 2]), .pending,
        .frame (.data [3])] none : State Empty ℤ)
        [.getReader, .read, .begin 0, .startSettles, .read,
          .begin 0, .pullSettles, .begin 0, .read] ∧
      bytesBeforeDone (outcomes ([Event.getReader, .read, .begin 0, .startSettles, .read, .begin 0,
        .pullSettles, .begin 0, .read].foldl step
          (createBodyStream [.pending, .frame (.data [1, 2]),
          .pending, .frame (.data [3])] none : State Empty ℤ)).readable) = [1, 2, 3] := by
  refine ⟨?regular, ((body_delivered _ none [1, 2, 3] _ (by simp [Clean])
    (decodes_of_copy (.inl rfl) _) ?regular).2.2 (by decide)).1⟩
  exact ⟨trivial, fun _ => rfl, ⟨rfl, fun _ _ h => (by cases h)⟩, trivial, fun h => (by cases h),
    ⟨rfl, fun _ _ h => (by cases h)⟩, trivial, ⟨rfl, fun _ _ => trivial⟩, fun h => (by cases h),
    trivial⟩

/-- A read by the native pull while another one has the body: it is done, and the body has not
ended. -/
theorem overlapping_read_done :
    let s := [Event.getReader, .read, .begin 0, .read].foldl step
      (createBodyStream [.pending, .pending, .frame (.data [1])] none : State Empty ℤ)
    s.readable.stream.settled = [(1, .done)] ∧ frames s.body = [.data [1]] := by
  decide

end Runs

end RasterRuntime.BodyStream
