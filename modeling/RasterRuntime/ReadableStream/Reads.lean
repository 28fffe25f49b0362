import RasterRuntime.ReadableStream.Books

/-! # Promises of reads

The promise of a read is settled once, when its stream is closed or errored or its reader released
at the latest.

* `Effect`: all that an event can do to a stream and its readers.
* `Accounted.step`: the books stay right as long as each event `Keeps` the outstanding reads.
* `reads_settled_iff`: the promises are settled in time in exactly the runs whose events do. Three
  kinds of events do not: the release of a reader with requests, which clears them before it rejects
  them; a failed `size` function that has replaced the reader its `enqueue` began with; and the end
  of a stream or of a lock while a native read is pending. -/

namespace RasterRuntime.ReadableStream

open Streams Transition

variable {V F : Type} [Binary64 F]

/-! ### What an event does -/

/-- **All that an event can do** to a stream and its readers. -/
inductive Effect (s : State V F) : Event V F → Stream V → Prop
  | same (e : Event V F) : Effect s e s.stream
  | acquire (h : s.stream.reader = none) :
      Effect s .getReader
        { s.stream with reader := some s.stream.nextReader, nextReader := s.stream.nextReader + 1 }
  | answer (r : ℕ) (n : State.NativePullResult V) (o : Outcome V) :
      Effect s (.read r n) (s.stream.answer r o)
  | wait (r : ℕ) (n : State.NativePullResult V) (hr : s.stream.reader = some r)
      (hp : s.stream.phase = .readable) :
      Effect s (.read r n) (s.stream.readableStreamAddReadRequest r)
  | waitNative (r : ℕ) (n : State.NativePullResult V) (hr : s.stream.reader = some r)
      (hp : s.stream.phase = .readable) :
      Effect s (.read r n)
        { s.stream.issue r with nativeReads := s.stream.nativeReads ++ [s.stream.nextPromise] }
  | drain (r : ℕ) (n : State.NativePullResult V) (o : Outcome V) (hr : s.stream.reader = some r) :
      Effect s (.read r n) ((s.stream.readableStreamClose (some r)).answer r o)
  | finishNative (p : ℕ) (res : Except V (Option V)) (o : Outcome V)
      (hp : p ∈ s.stream.nativeReads) :
      Effect s (.nativeSettles p res)
        (({ s.stream with nativeReads := s.stream.nativeReads.erase p }).settle [p] o)
  | release (r : ℕ) (hr : s.stream.reader = some r) :
      Effect s (.releaseLock r) (s.stream.readableStreamDefaultReaderRelease r)
  | fulfil (v : V) (r p : ℕ) (ps : List ℕ) (hr : s.stream.reader = some r)
      (hreq : s.stream.requests r = p :: ps) :
      Effect s (.enqueue v) ((s.stream.setRequests r ps).settle [p] (.chunk v))
  | shut (e : Event V F) (ph : Phase V) (o : Outcome V) (hph : ph ≠ .readable) :
      Effect s e (s.stream.shut ph o s.stream.reader)
  | fail (res : State.SizeResult V F) (v : V) (c : Option ℕ) (rest : List (V × Option ℕ))
      (x : Reason V) (hs : s.controller.sizing = (v, c) :: rest)
      (hx : res.queued s.controller.container v = .error x) (hp : s.stream.phase = .readable) :
      Effect s (.sizeReturns res) (s.stream.readableStreamError c x)

theorem callPullIfNeeded_stream (s : State V F) (c : Option ℕ) :
    (s.callPullIfNeeded c).stream = s.stream := by
  unfold State.callPullIfNeeded
  split_ifs <;> rfl

theorem defaultControllerError_stream (s : State V F) (c : Option ℕ) (x : Reason V) :
    (s.defaultControllerError c x).stream =
      if s.stream.phase = .readable then s.stream.readableStreamError c x else s.stream := by
  unfold State.defaultControllerError
  split_ifs <;> rfl

variable {t : Stream V} {s : State V F} {e : Event V F} {p : ℕ} {c : Option ℕ}

theorem effect_error (s : State V F) (e : Event V F) (x : Reason V)
    (ht : t = if s.stream.phase = .readable then s.stream.readableStreamError s.stream.reader x
      else s.stream) : Effect s e t := by
  rw [ht]
  split_ifs
  · exact .shut e _ _ (by simp)
  · exact .same e

theorem effect_read (s : State V F) (r : ℕ) (n : State.NativePullResult V) :
    Effect s (.read r n) (s.read r n).stream := by
  unfold State.read
  split_ifs with hnr hr hnp
  · exact .same _
  · have hp : s.stream.phase = .readable := by
      unfold State.tryGetNativePull at hnp
      simp only [Bool.and_eq_true, decide_eq_true_eq] at hnp
      exact hnp.1.1.1
    cases n with
    | ready | eof => exact .answer r _ _
    | pending => exact .waitNative r _ hr hp
    | threw e => exact .same _
  · unfold State.readDefault
    cases hp : s.stream.phase with
    | closed | errored => exact .answer r n _
    | readable =>
      unfold State.pullSteps
      cases s.controller.container.dequeueValue with
      | none =>
        dsimp only
        rw [callPullIfNeeded_stream]
        exact .wait r n hr hp
      | some vq =>
        dsimp only
        split_ifs
        · exact .drain r n _ hr
        · rw [callPullIfNeeded_stream]
          exact .answer r n _
  · exact .answer r n _

theorem effect_enqueue (s : State V F) (v : V) :
    Effect s (.enqueue v) (s.defaultControllerEnqueue v).stream := by
  fun_cases State.defaultControllerEnqueue s v
  · exact .same _
  · next r hr hne =>
    obtain ⟨p, ps, hreq⟩ := List.exists_cons_of_ne_nil hne
    have hf : s.stream.readableStreamFulfillReadRequest r v =
        (s.stream.setRequests r ps).settle [p] (.chunk v) := by
      unfold Stream.readableStreamFulfillReadRequest
      rw [hreq]
    rw [callPullIfNeeded_stream, hf]
    exact .fulfil v r p ps hr hreq
  · exact .same _
  · exact .same _

theorem effect_sizeReturns (s : State V F) (res : State.SizeResult V F) :
    Effect s (.sizeReturns res) (s.sizeReturns res).stream := by
  fun_cases State.sizeReturns s res
  · exact .same _
  · next v c rest hs _ x hx =>
    rw [defaultControllerError_stream]
    split_ifs with hp
    · exact .fail res v c rest x hs hx hp
    · exact .same _
  · rw [callPullIfNeeded_stream]
    exact .same _

theorem effect_close (s : State V F) :
    Effect s .close (s.defaultControllerClose s.stream.reader).stream := by
  fun_cases State.defaultControllerClose s s.stream.reader
  · exact .shut _ _ _ (by simp)
  · exact .same _
  · exact .same _

theorem effect_startSettles (s : State V F) (res : Except V Unit) :
    Effect s (.startSettles res) (s.startSettles res).stream := by
  fun_cases State.startSettles s res
  · rw [callPullIfNeeded_stream]
    exact .same _
  · exact effect_error s _ _ (defaultControllerError_stream _ _ _)
  · exact .same _

theorem effect_pullSettles (s : State V F) (res : Except V Unit) :
    Effect s (.pullSettles res) (s.pullSettles res).stream := by
  fun_cases State.pullSettles s res
  · rw [callPullIfNeeded_stream]
    exact .same _
  · exact .same _
  · exact effect_error s _ _ (defaultControllerError_stream _ _ _)
  · exact .same _

theorem effect_step (s : State V F) (e : Event V F) : Effect s e (step s e).stream := by
  cases e with
  | getReader =>
    show Effect s _ s.stream.getReader
    unfold Stream.getReader
    split
    · exact .same _
    · exact .acquire ‹_›
  | read r n => exact effect_read s r n
  | nativeSettles p res =>
    show Effect s _ (s.nativeSettles p res).stream
    unfold State.nativeSettles
    split_ifs with hp
    · exact .finishNative p res _ hp
    · exact .same _
  | releaseLock r =>
    show Effect s _ (s.releaseLock r).stream
    unfold State.releaseLock
    split_ifs with hr
    · exact .release r hr
    · exact .same _
  | cancel reader =>
    show Effect s _ (s.cancel reader).stream
    unfold State.cancel
    split_ifs with h
    · rw [← h.1]
      exact .shut _ _ _ (by simp)
    · exact .same _
  | enqueue v => exact effect_enqueue s v
  | sizeReturns res => exact effect_sizeReturns s res
  | close => exact effect_close s
  | error x => exact effect_error s _ (.value x) (defaultControllerError_stream _ _ _)
  | startSettles res => exact effect_startSettles s res
  | pullSettles res => exact effect_pullSettles s res

/-! ### Reads are settled in time -/

/-- An event that leaves no read behind: a reader that is released has no requests; a `size`
function that fails has not replaced its reader by one with requests; and a stream is not closed or
errored, nor its reader released, while a native read is pending. -/
def Keeps (s : State V F) (e : Event V F) : Prop :=
  (∀ r, e = .releaseLock r → s.stream.reader = some r → s.stream.requests r = []) ∧
  (∀ res v c rest x, e = .sizeReturns res → s.controller.sizing = (v, c) :: rest →
    res.queued s.controller.container v = .error x → s.stream.phase = .readable →
    c ≠ s.stream.reader → s.stream.requestsOf s.stream.reader = []) ∧
  ((step s e).stream.phase ≠ .readable ∨ (step s e).stream.reader ≠ s.stream.reader →
    s.stream.nativeReads = [])

theorem Accounted.step (h : Accounted s.stream) (hk : Keeps s e) :
    Accounted (ReadableStream.step s e).stream := by
  obtain ⟨hrel, hfail, hend⟩ := hk
  have he := effect_step s e
  generalize (ReadableStream.step s e).stream = t at he hend ⊢
  cases he with
  | same => exact h
  | acquire hr => exact h.acquire hr
  | answer r n o => exact h.answer r o
  | wait r n hr hp => exact h.addReadRequest hr hp
  | waitNative r n hr hp => exact h.addNativeRead hr hp
  | drain r n o hr =>
    have hnat : s.stream.nativeReads = [] := hend (.inl (by
      simp [Stream.readableStreamClose, Stream.answer, Stream.settle, Stream.issue, shut_eq]))
    exact (h.shut (.inl hr.symm) hnat _).answer r o
  | finishNative p res o hp => exact h.finishNative hp o
  | release r hr =>
    have hnat := hend (.inr (by rw [hr]; exact (Option.some_ne_none r).symm))
    exact h.release hr (hrel r rfl hr) hnat
  | fulfil v r p ps hr hreq => exact h.fulfil hr hreq _
  | shut _ ph o hph =>
    have hnat := hend (.inl (by rwa [shut_eq]))
    exact h.shut (.inl rfl) hnat o
  | fail res v c rest x hs hx hp =>
    have hnat := hend (.inl (by simp [Stream.readableStreamError, shut_eq]))
    refine h.shut ?_ hnat _
    by_cases hc : c = s.stream.reader
    · exact .inl hc
    · exact .inr (hfail res v c rest x rfl hs hx hp hc)

theorem not_readsSettled {r : ℕ} (hp : (p, r) ∈ t.issued) (hset : p ∉ t.settled.map Prod.fst)
    (hend : t.phase ≠ .readable ∨ t.reader ≠ some r) :
    ¬ t.ReadsSettled := by
  intro h
  have hone := h.2 p r hp hend
  have hzero : t.timesSettled p = 0 := List.count_eq_zero.mpr hset
  omega

theorem Accounted.notMem_requestsOf {s : Stream V} (h : Accounted s) (hp : p ∈ s.nativeReads)
    (c : Option ℕ) : p ∉ s.requestsOf c := by
  by_cases hc : c = s.reader
  · rw [hc]
    intro hp'
    have hn : (s.outstanding ++ s.settled.map Prod.fst).Nodup := h.perm.nodup_iff.mpr h.nodup
    exact List.disjoint_of_nodup_append (List.Nodup.of_append_left hn) hp' hp
  · cases c with
    | none => exact List.not_mem_nil
    | some r =>
      show p ∉ s.requests r
      rw [h.others r (fun he => hc he.symm)]
      exact List.not_mem_nil

/-- A promise that is not among the requests of the reader that is told of the end. -/
theorem shut_loses {s : Stream V} {r : ℕ} (hp : (p, r) ∈ s.issued)
    (hset : p ∉ s.settled.map Prod.fst) (hc : p ∉ s.requestsOf c) {ph : Phase V}
    (hph : ph ≠ .readable)
    (o : Outcome V) : ¬ (s.shut ph o c).ReadsSettled := by
  rw [shut_eq]
  refine not_readsSettled hp ?_ (.inl hph)
  rw [settled_settle]
  simp [List.mem_append, hset, hc]

/-- The requests of a reader that is released stay as they are. -/
theorem release_loses {s : Stream V} {r : ℕ} (h : Accounted s) (hr : s.reader = some r)
    (hreq : s.requests r ≠ []) : ¬ (s.readableStreamDefaultReaderRelease r).ReadsSettled := by
  obtain ⟨p, hp⟩ := List.exists_mem_of_ne_nil _ hreq
  have hout : p ∈ s.outstanding := by
    rw [outstanding_of_reader hr]
    exact List.mem_append_left _ hp
  obtain ⟨r', hr', hp'⟩ := h.issuer p hout
  rw [release_eq]
  exact not_readsSettled hp' (h.disjoint hout) (.inr (Option.some_ne_none r').symm)

/-- The requests of the stream's reader stay as they are when another reader is told of the
error. -/
theorem error_loses {s : Stream V} (h : Accounted s) (hc : c ≠ s.reader)
    (hreq : s.requestsOf s.reader ≠ []) (x : Reason V) :
    ¬ (s.readableStreamError c x).ReadsSettled := by
  obtain ⟨p, hp⟩ := List.exists_mem_of_ne_nil _ hreq
  have hout : p ∈ s.outstanding := List.mem_append_left _ hp
  obtain ⟨r, hr, hp'⟩ := h.issuer p hout
  have hnil : s.requestsOf c = [] := by
    cases c with
    | none => rfl
    | some q => exact h.others q (fun he => hc he.symm)
  exact shut_loses hp' (h.disjoint hout) (by rw [hnil]; exact List.not_mem_nil) (by simp) _

/-- A native read that is pending when its stream or its lock ends. -/
theorem end_loses (h : Accounted s.stream) (he : Effect s e t) (hp : p ∈ s.stream.nativeReads)
    (hend : t.phase ≠ .readable ∨ t.reader ≠ s.stream.reader) : ¬ t.ReadsSettled := by
  have hout : p ∈ s.stream.outstanding := List.mem_append_right _ hp
  obtain ⟨r, hr, hissued⟩ := h.issuer p hout
  have hset := h.disjoint hout
  have hreadable : s.stream.phase = .readable := by
    by_contra hne
    rw [h.idle hne] at hout
    cases hout
  -- most events change neither the state nor the reader
  have hstill : t.phase = s.stream.phase → t.reader = s.stream.reader → False := by
    intro hph hrd
    rcases hend with hend | hend
    · exact hend (hph.trans hreadable)
    · exact hend hrd
  cases he with
  | same | answer | wait | waitNative | finishNative | fulfil => exact (hstill rfl rfl).elim
  | acquire hnone =>
    rw [hnone] at hr
    cases hr
  | drain r' n o hr' =>
    have hreq := h.notMem_requestsOf hp (some r')
    have hnew : p ≠ s.stream.nextPromise := by
      have := h.bound p (List.mem_map_of_mem (f := Prod.fst) hissued)
      omega
    unfold Stream.readableStreamClose
    rw [shut_eq]
    refine not_readsSettled (mem_issued_issue hissued r') ?_ (.inl (nofun))
    unfold Stream.answer
    rw [settled_settle]
    show p ∉ (s.stream.settle _ .done).settled.map Prod.fst ++ [s.stream.nextPromise]
    rw [settled_settle]
    simp [List.mem_append, hset, hreq, hnew]
  | release r' hr' =>
    rw [release_eq]
    exact not_readsSettled hissued hset (.inr (Option.some_ne_none r).symm)
  | shut _ ph o hph => exact shut_loses hissued hset (h.notMem_requestsOf hp _) hph _
  | fail res v c rest x hs hx hph =>
    exact shut_loses hissued hset (h.notMem_requestsOf hp _) (by simp) _

theorem sizeReturns_stream {res : State.SizeResult V F} {v : V} {rest : List (V × Option ℕ)}
    {x : Reason V} (hs : s.controller.sizing = (v, c) :: rest)
    (hx : res.queued s.controller.container v = .error x) (hp : s.stream.phase = .readable) :
    (s.sizeReturns res).stream = s.stream.readableStreamError c x := by
  unfold State.sizeReturns
  rw [hs]
  dsimp only
  rw [hx]
  rw [defaultControllerError_stream, if_pos hp]

theorem loses_of_not_keeps (h : Accounted s.stream) (hk : ¬ Keeps s e) :
    ¬ (step s e).stream.ReadsSettled := by
  intro hsettled
  apply hk
  refine ⟨?_, ?_, ?_⟩
  · rintro r rfl hr
    by_contra hreq
    have hstep : (step s (.releaseLock r)).stream =
        s.stream.readableStreamDefaultReaderRelease r := by
      show (s.releaseLock r).stream = _
      unfold State.releaseLock
      rw [if_pos hr]
    rw [hstep] at hsettled
    exact release_loses h hr hreq hsettled
  · rintro res v c rest x rfl hs hx hp hc
    by_contra hreq
    have hstep : (step s (.sizeReturns res)).stream = s.stream.readableStreamError c x :=
      sizeReturns_stream hs hx hp
    rw [hstep] at hsettled
    exact error_loses h hc hreq x hsettled
  · intro hend
    by_contra hne
    obtain ⟨p, hp⟩ := List.exists_mem_of_ne_nil _ hne
    exact end_loses h (effect_step s e) hp hend hsettled

theorem accounted_init (strategyHwm : F) (nativePull : Bool) :
    Accounted (init (V := V) strategyHwm nativePull).stream where
  perm := List.Perm.refl _
  nodup := List.nodup_nil
  bound := nofun
  others _ _ := rfl
  issuer := nofun
  readers := nofun
  idle _ := rfl

/-- **Reads are settled in time**: in every state of a run, each promise that a `read()` returned
was settled at most once, and exactly once if the stream is closed or errored or its reader
released; this is so exactly when no event of the run leaves a read behind. -/
theorem reads_settled_iff (strategyHwm : F) (nativePull : Bool) (es : List (Event V F)) :
    Throughout step (fun s => s.stream.ReadsSettled) (init strategyHwm nativePull) es ↔
      Each step Keeps (init strategyHwm nativePull) es :=
  throughout_iff_each (I := fun s : State V F => Accounted s.stream) (fun _ h => h.readsSettled)
    (fun _ _ h hk => h.step hk) (fun _ _ h hk => loses_of_not_keeps h hk) es
    (accounted_init strategyHwm nativePull)

/-- A reader is released while its read is outstanding: the promise is not settled, and it is not
settled when the stream is closed later either. -/
theorem released_read_unsettled :
    let s : State ℕ ℤ := [Event.getReader, .startSettles (.ok ()), .read 0 .eof, .releaseLock 0,
      .close].foldl step (init 1 false)
    s.stream.issued = [(0, 0)] ∧ s.stream.reader = none ∧ s.stream.phase = .closed ∧
      s.stream.settled = [] ∧ ¬ s.stream.ReadsSettled := by
  refine ⟨rfl, rfl, rfl, rfl, ?_⟩
  intro h
  cases h.2 0 0 (by decide) (.inr (by decide))

/-- A `size` function that acquires a reader, reads and throws: the stream is errored, and the read
is left as it is. -/
example :
    let s : State ℕ ℤ := [Event.startSettles (.ok ()), .enqueue 7, .getReader, .read 0 .eof,
      .sizeReturns (.threw 9)].foldl step (init 1 false)
    s.stream.phase = .errored (.value 9) ∧ s.stream.issued = [(0, 0)] ∧ s.stream.settled = [] :=
  ⟨rfl, rfl, rfl⟩

end RasterRuntime.ReadableStream
