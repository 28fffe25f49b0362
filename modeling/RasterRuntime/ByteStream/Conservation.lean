import RasterRuntime.ByteStream.Supply

/-! # No byte is lost, duplicated or reordered

Every operation keeps `Conserved`, with two exceptions that the code does not rule out. The source
can change bytes that it has already handed over, in the buffer of the request or by responding with
another buffer; and an empty response on a closed stream drops the descriptor of a released reader,
with the bytes in it. `Lossless` excludes both. -/

namespace RasterRuntime.ByteStream

open List (append_nil forall_mem_append forall_mem_cons forall_mem_singleton replicate)

variable {c : Config} {s s' : State}

/-- A descriptor that a released reader left behind has no bytes. -/
def nothingLeft (s : State) : Prop :=
  ∀ d ∈ s.pendingPullIntos.head?, d.readerType = .none → d.bytesFilled = 0

/-- The operation does not touch bytes that the source has handed over. -/
def Lossless (s : State) : Op → Prop
  | .writeRequest index bytes => (writeRequest s index bytes).2.filledBytes = s.filledBytes
  | .respond _ => s.streamState = .closed → nothingLeft s
  | .respondWithNewView view =>
    (∀ d ∈ s.pendingPullIntos.head?, window view.buffer d.byteOffset d.bytesFilled = d.filled) ∧
      (s.streamState = .closed → nothingLeft s)
  | _ => True

/-! ### Responses -/

variable {ds : List PullIntoDescriptor} {d : PullIntoDescriptor} {n m : ℕ} {r : Reply} {v : View}

theorem ne_default_of_lined (h : Lined (some .byob) ds) :
    ∀ d ∈ ds, d.readerType ≠ .default := by
  intro d hd hdef
  have ht := h.type hd
  simp [hdef] at ht

theorem kept_closed (h : Shape s) (hs : s.streamState = .closed)
    (hok : closedLoop (numReadIntoRequests s) s = .ok s') : Kept s s' ∧ s'.queue = s.queue := by
  unfold numReadIntoRequests at hok
  split at hok
  · next rs hr =>
    have hl := h.lined
    rw [State.kind, hr] at hl
    exact kept_closedLoop _ h hs (ne_default_of_lined hl) hok
  · cases hok
    exact ⟨.refl h, rfl⟩

section

variable (h : Conserved s)

include h

theorem conserved_respondInClosedState (hs : s.streamState = .closed)
    (hn : nothingLeft s) (hok : respondInClosedState s = .ok s') : Conserved s' := by
  unfold respondInClosedState at hok
  split at hok
  · cases hok
  · next d ds hp =>
    have hdone {t : State} (hkept : Kept s t) (hq : t.queue = s.queue)
        (ht : t.streamState = .closed)
        (hok : closedLoop (numReadIntoRequests t) t = .ok s') : Conserved s' := by
      obtain ⟨hkept', hq'⟩ := kept_closed hkept.shape ht hok
      have hnil : s'.queue = [] := hq'.trans (hq.trans (h.drained hs))
      exact h.of_kept (hkept.trans hkept') (.inl hnil) fun _ => hnil
    split_ifs at hok with ht
    · exact hdone (kept_shift h.shape hp (hn d (by simp [hp]) ht)) rfl hs hok
    · exact hdone (.refl h.shape) rfl hs hok

theorem conserved_respondInternal (hp : s.pendingPullIntos = d :: ds)
    (hn : s.streamState ≠ .closed → 0 < n) (hl : s.streamState = .closed → nothingLeft s)
    (hok : respondInternal c s n = .ok s') : Conserved s' := by
  have hi : Conserved (invalidateByobRequest s) := { h with shape := { h.shape with } }
  unfold respondInternal at hok
  dsimp only at hok
  split at hok
  · next hc =>
    obtain ⟨t, ht, ⟨⟩⟩ := bind_eq_ok.mp hok
    exact conserved_callPullIfNeeded (conserved_respondInClosedState hi hc (hl hc) ht)
  · next hc =>
    obtain ⟨t, ht, ⟨⟩⟩ := bind_eq_ok.mp hok
    exact conserved_callPullIfNeeded (conserved_respondInReadableState hi hc hp (hn hc) ht)

theorem conserved_respond (hl : Lossless s (.respond n))
    (hok : respond c s n = .ok (r, s')) : Conserved s' := by
  unfold respond at hok
  split at hok
  · obtain ⟨d, hd, hok⟩ := bind_eq_ok.mp hok
    unfold firstDescriptor at hd
    split at hd
    · next hp =>
      split_ifs at hok with h1 h2 h3
      iterate 3 exact conserved_refused h hok
      obtain ⟨t, ht, hok⟩ := bind_eq_ok.mp hok
      cases hok
      exact conserved_respondInternal h hp
        (fun hs => Nat.pos_of_ne_zero fun hz => h2 ⟨hs, hz⟩) hl ht
    · cases hd
  · exact conserved_refused h hok

theorem conserved_setBuffer {b : List UInt8} (hp : s.pendingPullIntos = d :: ds)
    (hlen : b.length = d.buffer.length) (hb : window b d.byteOffset d.bytesFilled = d.filled) :
    Conserved { s with pendingPullIntos := { d with buffer := b } :: ds } := by
  have hsh := h.shape
  have hd : d ∈ s.pendingPullIntos := by simp [hp]
  have hset := hsh.replace hp { d with buffer := b } rfl
    ⟨(hsh.descriptors d hd).1.refill hlen _, (hsh.descriptors d hd).2⟩ fun hs => hsh.closed hs d hd
  refine ⟨hset, h.ordered.imp_right fun ho x hx => ?_, h.drained, ?_⟩
  · cases hx
    exact ho d (by simp [hp])
  · rw [hset.content_cons rfl]
    show _ ++ window b d.byteOffset d.bytesFilled ++ _ = s.supplied
    rw [hb, ← h.bytes, hsh.content_cons hp]
    rfl

theorem conserved_respondWithNewView (hl : Lossless s (.respondWithNewView v))
    (hok : respondWithNewView c s v = .ok (r, s')) :
    Conserved s' := by
  unfold respondWithNewView at hok
  split_ifs at hok with h0 h1 h2
  · exact conserved_refused h hok
  · exact conserved_refused h hok
  · obtain ⟨⟨d, t⟩, hd, hok⟩ := bind_eq_ok.mp hok
    obtain ⟨ds, hp, rfl⟩ := shift_eq_ok hd
    dsimp only at hok
    split_ifs at hok with h3 h4 h5
    iterate 3 exact conserved_refused h hok
    obtain ⟨t, ht, hok⟩ := bind_eq_ok.mp hok
    cases hok
    have hd := (h.shape.descriptors d (by simp [hp])).1
    have hb : v.buffer.length = d.buffer.length := by
      rw [← hd.buffer]
      exact (not_not.mp h4).symm
    have hset := conserved_setBuffer h hp hb (hl.1 d (by simp [hp]))
    refine conserved_respondInternal hset rfl (fun hs => ?_) (fun hs x hx htype => ?_) ht
    · by_contra hz
      exact h2 ⟨hs, by omega⟩
    · cases hx
      exact hl.2 hs d (by simp [hp]) htype
  · exact conserved_refused h hok

/-! ### The other operations of the source -/

omit h in
theorem isErrored_controllerError {e : JsError} (h : s.streamState = .readable) :
    (controllerError s e).isErrored := by
  unfold controllerError
  rw [h]
  rfl

theorem conserved_streamClose (hq : s.queue = [])
    (ha : ∀ d ∈ s.pendingPullIntos, d.elementSize ∣ d.bytesFilled) : Conserved (streamClose s) := by
  have hq' : (streamClose s).queue = [] := (streamClose_pending s).2.trans hq
  exact h.of_kept (kept_streamClose h.shape ha) (.inl hq') fun _ => hq'

theorem conserved_close : (close s).2.isErrored ∨ Conserved (close s).2 := by
  unfold close controllerClose
  split_ifs with h1 h2 h3
  · exact .inr h
  · exact .inr h
  · exact .inr { h with shape := { h.shape with } }
  · have hq : s.queue = [] := h.shape.queue_eq_nil (by omega)
    cases hp : s.pendingPullIntos with
    | nil => exact .inr (conserved_streamClose h hq (by simp [hp]))
    | cons d ds =>
      dsimp only
      split_ifs with h4
      · exact .inl (isErrored_controllerError (not_not.mp h2))
      · refine .inr (conserved_streamClose h hq ?_)
        rw [hp]
        refine forall_mem_cons.mpr ⟨Nat.dvd_of_mod_eq_zero (by omega), fun x hx => ?_⟩
        rw [((h.shape.lined_cons hp).2 x hx).2]
        exact Nat.dvd_zero _

theorem conserved_getByobRequest : Conserved (getByobRequest s) := by
  unfold getByobRequest
  split
  · exact h
  · exact { h with shape := { h.shape with } }

theorem conserved_writeRequest {i : ℕ} {b : List UInt8}
    (hl : Lossless s (.writeRequest i b)) : Conserved (writeRequest s i b).2 := by
  have hl' : (writeRequest s i b).2.filledBytes = s.filledBytes := hl
  unfold writeRequest at hl' ⊢
  split
  · next d ds hreq hp =>
    rw [hreq, hp] at hl'
    dsimp only at hl'
    cases hc : copyDataBlockBytes d.buffer i b 0 b.length with
    | error e => exact h
    | ok b' =>
      have hlined := h.shape.lined_cons hp
      have hlined' : Lined s.kind ({ d with buffer := b' } :: ds) := hlined
      rw [hc] at hl'
      replace hl' : ({ d with buffer := b' } :: ds).flatMap PullIntoDescriptor.filled =
        s.filledBytes := hl'
      rw [hlined'.flatMap_filled, State.filledBytes, hp, hlined.flatMap_filled] at hl'
      exact conserved_setBuffer h hp (length_copyDataBlockBytes hc) hl'
  · exact h

/-! ### The operations of the consumer -/

theorem conserved_getReader {byob : Bool} : Conserved (getReader s byob).2 := by
  unfold getReader
  split
  · next hr =>
    have hl := h.shape.lined
    rw [State.kind, hr] at hl
    -- without a reader only a released descriptor waits
    have htype : ∀ d ∈ s.pendingPullIntos, d.readerType = .none :=
      fun d hd => (hl.type hd).resolve_right (by simp)
    have hlined : ∀ k, Lined k s.pendingPullIntos := by
      intro k
      cases hp : s.pendingPullIntos with
      | nil => trivial
      | cons d ds =>
        rw [hp] at hl htype
        exact ⟨.inl (htype d (by simp)), fun x hx => by cases (hl.2 x hx).1⟩
    refine ⟨{ h.shape with lined := hlined _ }, ?_, h.drained, h.bytes⟩
    refine h.ordered.imp_right fun ho d hd => ⟨(ho d hd).1, (ho d hd).2.1, fun hdef => ?_⟩
    have ht := htype d (List.mem_of_mem_head? hd)
    rw [hdef] at ht
    cases ht
  · exact h

theorem conserved_releaseLock : Conserved (releaseLock s) := by
  have hsh := h.shape
  have ho := h.ordered
  unfold releaseLock
  split
  · exact h
  · unfold releaseSteps
    cases hp : s.pendingPullIntos with
    | nil =>
      refine { h with shape := { hsh with lined := ?_ }, ordered := ordered_of_end (Or.inl hp) }
      rw [hp]
      trivial
    | cons d ds =>
      rw [Ordered, hp] at ho
      have hd := hsh.descriptors d (by simp [hp])
      refine ⟨⟨?_, ⟨.inl rfl, by simp⟩, hsh.entries, hsh.total, ?_⟩, ?_, h.drained, ?_⟩
      · exact forall_mem_singleton.mpr ⟨{ hd.1 with default := nofun }, hd.2⟩
      · exact fun hs => forall_mem_singleton.mpr (hsh.closed hs d (by simp [hp]))
      · refine ho.imp_right fun ho x hx => ?_
        cases hx
        exact ⟨(ho d rfl).1, nofun, nofun⟩
      · rw [← h.bytes, hsh.content_cons hp]
        show s.deliveredBytes ++ (d.filled ++ []) ++ s.queueBytes = _
        rw [append_nil]

end

theorem Shape.addRequest (h : Shape s) (r : ℕ) : Shape (addRequest s r) := by
  have hk : (ByteStream.addRequest s r).kind = s.kind := by
    unfold ByteStream.addRequest State.kind
    rcases s.reader with _ | _ | _ <;> rfl
  exact { h with lined := hk.symm ▸ h.lined }

theorem Shape.append (h : Shape s) (hk : s.kind = some d.readerType) (hd : d.Ok)
    (hz : d.bytesFilled < d.minimumFill) (hf : s.pendingPullIntos = [] ∨ d.bytesFilled = 0)
    (hc : s.streamState = .closed → d.elementSize ∣ d.bytesFilled) :
    Shape { s with pendingPullIntos := s.pendingPullIntos ++ [d] } := by
  refine { h with
    descriptors := forall_mem_append.mpr ⟨h.descriptors, forall_mem_singleton.mpr ⟨hd, hz⟩⟩
    lined := ?_
    closed := fun hs => forall_mem_append.mpr ⟨h.closed hs, forall_mem_singleton.mpr (hc hs)⟩ }
  rcases hf with hf | hf
  · rw [hf]
    exact ⟨.inr hk, by simp⟩
  · exact h.lined.append hk hf

theorem content_append (s : State) (d : PullIntoDescriptor) :
    ({ s with pendingPullIntos := s.pendingPullIntos ++ [d] } : State).content =
      s.deliveredBytes ++ (s.filledBytes ++ d.filled) ++ s.queueBytes := by
  show s.deliveredBytes ++ (s.pendingPullIntos ++ [d]).flatMap PullIntoDescriptor.filled ++
    s.queueBytes = _
  simp [State.filledBytes]

theorem autoAllocated_ok (h : 0 < n) : (autoAllocated n).Ok :=
  ⟨by show 0 + n ≤ (replicate n 0).length; simp, by show n = (replicate n 0).length; simp,
    h, Nat.one_pos, Nat.dvd_refl 1, Nat.one_dvd n, fun _ => rfl⟩

theorem descriptorOf_ok (h : m ≤ v.byteLength / v.kind.elementSize) :
    (descriptorOf v m).Ok := by
  have hpos := v.kind.elementSize_pos
  refine ⟨v.inBounds, rfl, ?_, hpos, Nat.dvd_mul_left _ _, v.whole, nofun⟩
  exact (Nat.le_div_iff_mul_le hpos).mp h

section

variable (h : Conserved s)

include h

theorem conserved_reads (n : ℕ) : Conserved { s with reads := n } :=
  { h with shape := { h.shape with } }

theorem conserved_resolve_close (r : ℕ) {x : ReadResult} (hx : x.bytes = []) :
    Conserved (resolve s r x) := by
  refine ⟨{ h.shape with }, h.ordered, h.drained, ?_⟩
  rw [State.content, deliveredBytes_resolve, hx, append_nil]
  exact h.bytes

theorem conserved_fillReadRequestFromQueue {r : ℕ}
    (hs : s.streamState = .readable) (hq : s.queue ≠ [])
    (hok : fillReadRequestFromQueue c s r = .ok s') : Conserved s' := by
  obtain ⟨hkept, hp, -, -, hd⟩ := kept_fillReadRequestFromQueue h.shape (h.zero hq) hok
  refine h.of_kept hkept (.inr fun d hd => ?_) fun hc => (hd hc).resolve_left (by simp [hs])
  rw [hp] at hd
  obtain ⟨h1, h2, h3⟩ := h.ordered.resolve_left hq d hd
  refine ⟨h1, h2, fun hdef => ?_⟩
  have := hkept.requests
  have := h3 hdef
  omega

theorem conserved_pullSteps {r : ℕ} (hs : s.streamState = .readable)
    (hk : s.kind = some .default) (hok : pullSteps c s r = .ok s') : Conserved s' := by
  unfold pullSteps at hok
  split_ifs at hok with ht
  · refine conserved_fillReadRequestFromQueue h hs (fun hq => ?_) hok
    rw [h.shape.total_of_nil hq] at ht
    exact Nat.lt_irrefl 0 ht
  · have hq : s.queue = [] := h.shape.queue_eq_nil (by omega)
    cases hok
    refine conserved_callPullIfNeeded ?_
    cases ha : c.autoAllocateChunkSize with
    | none =>
      exact ⟨h.shape.addRequest r, .inl hq, fun _ => hq, h.bytes⟩
    | some n =>
      have hn := c.autoAllocate_pos n (by rw [ha]; rfl)
      have hsh : Shape { s with pendingPullIntos := s.pendingPullIntos ++ [autoAllocated n] } :=
        h.shape.append hk (autoAllocated_ok hn) Nat.one_pos (.inr rfl) fun _ => Nat.dvd_zero _
      refine ⟨hsh.addRequest r, .inl hq, fun _ => hq, ?_⟩
      refine Eq.trans (content_append s (autoAllocated n)) ?_
      rw [PullIntoDescriptor.filled_eq_nil (d := autoAllocated n) rfl, append_nil]
      exact h.bytes

theorem conserved_read (he : s.isErrored = false) (hok : read c s = .ok (r, s')) :
    Conserved s' := by
  unfold read at hok
  split at hok
  · next rs hr =>
    have hreads := conserved_reads h (s.reads + 1)
    dsimp only at hok
    split at hok
    · cases hok
      exact conserved_resolve_close hreads _ rfl
    · next e hs => simp [State.isErrored, show s.streamState = .errored e from hs] at he
    · next hs =>
      obtain ⟨t, ht, hok⟩ := bind_eq_ok.mp hok
      cases hok
      exact conserved_pullSteps hreads hs (by simp [State.kind, hr, Reader.type]) ht
  · exact conserved_refused h hok

omit h in
theorem conserved_await {r : ℕ} (h : Shape s) (hq : s.queue = []) (hk : s.kind = some d.readerType)
    (hd : d.Ok) (hz : d.bytesFilled < d.minimumFill) (hp : s.pendingPullIntos = [])
    (hs : s.streamState ≠ .closed) (hb : s.deliveredBytes ++ d.filled = s.supplied) :
    Conserved (awaitFill c s d r) := by
  have hsh := h.append hk hd hz (.inl hp) fun hc => absurd hc hs
  refine conserved_callPullIfNeeded ⟨hsh.addRequest r, .inl hq, fun _ => hq, ?_⟩
  refine (content_append s d).trans ?_
  show _ = s.supplied
  simpa [State.filledBytes, State.queueBytes, hp, hq] using hb

theorem conserved_filled {d' : PullIntoDescriptor} {t : State} {ready : Bool} {r : ℕ}
    (hk : s.kind = some d.readerType) (hd : d.Ok) (hd0 : d.bytesFilled = 0)
    (hp : s.pendingPullIntos = []) (hs : s.streamState ≠ .closed) (hf : Filled s d ready d' t) :
    (ready →
      Conserved (resolve (handleQueueDrain c t) r (.chunk (convertPullIntoDescriptor d')))) ∧
    (ready = false → Conserved (awaitFill c t d' r)) := by
  obtain ⟨⟨q, n, rfl⟩, b, k, rfl⟩ := hf.exists_eq
  have hnil : ∀ {P : PullIntoDescriptor → Prop}, ∀ x ∈ s.pendingPullIntos, P x := by simp [hp]
  have hshape : Shape { s with queue := q, queueTotalSize := n } :=
    { h.shape with entries := hf.entries, total := hf.total }
  have hbytes : s.deliveredBytes ++ (window b d.byteOffset k ++ bytesOf q) = s.supplied := by
    have := hf.bytes
    rw [PullIntoDescriptor.filled_eq_nil hd0] at this
    rw [← h.bytes, State.content, State.filledBytes, hp]
    simpa [State.queueBytes, bytesOf, PullIntoDescriptor.filled] using this
  refine ⟨fun hr => ?_, fun hr => ?_⟩
  · obtain ⟨hkept, hdel, hpn, hq⟩ := kept_handleQueueDrain (c := c) hshape hnil
    obtain ⟨-, hdrained⟩ := streamState_handleQueueDrain (c := c) hshape
    refine ⟨{ hkept.shape with }, ordered_of_end (.inl (hpn.trans hp)),
      fun hc => hq.trans ((hdrained hc).resolve_left hs), ?_⟩
    rw [State.content, deliveredBytes_resolve, hdel]
    show s.deliveredBytes ++ (convertPullIntoDescriptor _).bytes ++
      (handleQueueDrain c _).filledBytes
      ++ (handleQueueDrain c _).queueBytes = (handleQueueDrain c _).supplied
    rw [convert_bytes (hf.whenReady hr).2, State.filledBytes, hpn, State.queueBytes, hq,
      hkept.supplied, ← hbytes]
    simp [hp, bytesOf, PullIntoDescriptor.filled]
  · obtain ⟨hlt, hzero⟩ := hf.whenNot hr
    have hq : q = [] := hshape.queue_eq_nil hzero
    refine conserved_await hshape hq hk (hd.refill hf.length k) hlt hp hs ?_
    rwa [hq, bytesOf_nil, append_nil] at hbytes

theorem conserved_pullInto {r : ℕ} {reply : Reply} (hk : s.kind = some .byob)
    (he : s.isErrored = false) (hm : 0 < m) (hv : m ≤ v.byteLength / v.kind.elementSize)
    (hok : pullInto c s v m r = .ok (reply, s')) : s'.isErrored ∨ Conserved s' := by
  have hd := descriptorOf_ok hv
  have hz : 0 < (descriptorOf v m).minimumFill := Nat.mul_pos hm v.kind.elementSize_pos
  have hnone : (descriptorOf v m).filled = [] := PullIntoDescriptor.filled_eq_nil rfl
  unfold pullInto at hok
  dsimp only at hok
  split_ifs at hok with h1 h2 h3
  · -- the read waits behind the others
    cases hok
    right
    have hsh := h.shape.append (d := descriptorOf v m) hk hd hz (.inr rfl) fun _ => Nat.dvd_zero _
    refine ⟨hsh.addRequest r, ?_, h.drained, ?_⟩
    · refine h.ordered.imp_right fun ho x hx => ?_
      replace hx : x ∈ (s.pendingPullIntos ++ [descriptorOf v m]).head? := hx
      rw [List.head?_append_of_ne_nil _ h1] at hx
      obtain ⟨o1, o2, -⟩ := ho x hx
      refine ⟨o1, o2, fun _ => ?_⟩
      obtain ⟨rd, hrd, htype⟩ := Option.map_eq_some_iff.mp hk
      cases rd with
      | default rs => cases htype
      | byob rs => simp [numReadRequests, addRequest, hrd]
    · refine (content_append s _).trans ?_
      rw [hnone, append_nil]
      exact h.bytes
  · cases hok
    exact .inr (conserved_resolve_close h r rfl)
  · have hp : s.pendingPullIntos = [] := not_not.mp h1
    obtain ⟨⟨ready, d', t⟩, hf, hok⟩ := bind_eq_ok.mp hok
    have hfill := filled_of_fill hd hz h.shape.entries h.shape.total hf
    obtain ⟨hready, hnot⟩ := conserved_filled (c := c) (r := r) h hk hd rfl hp h2 hfill
    split_ifs at hok with hr hc
    · cases hok
      exact .inr (hready hr)
    · cases hok
      refine .inl (isErrored_controllerError ?_)
      rw [(congrArg State.streamState hfill.state :)]
      cases hs : s.streamState with
      | readable => rfl
      | closed => exact absurd hs h2
      | errored e => simp [State.isErrored, hs] at he
    · cases hok
      exact .inr (hnot (by simpa using hr))
  · cases hok
    have hp : s.pendingPullIntos = [] := not_not.mp h1
    have hq : s.queue = [] := h.shape.queue_eq_nil (by omega)
    refine .inr (conserved_await h.shape hq hk hd hz hp h2 ?_)
    rw [hnone, ← h.bytes, State.content, State.filledBytes, hp, State.queueBytes, hq]
    simp

theorem conserved_readInto (he : s.isErrored = false) (hok : readInto c s v m = .ok (r, s')) :
    s'.isErrored ∨ Conserved s' := by
  unfold readInto at hok
  split_ifs at hok with h1 h2 h3 h4
  iterate 5 exact .inr (conserved_refused h hok)
  split at hok
  · next rs hr =>
    have hreads := conserved_reads h (s.reads + 1)
    dsimp only at hok
    split at hok
    · next e hs => simp [State.isErrored, show s.streamState = .errored e from hs] at he
    · exact conserved_pullInto hreads (by simp [State.kind, hr, Reader.type]) he
        (by omega) (by omega)
        hok
  · exact .inr (conserved_refused h hok)

end

/-! ### Runs -/

/-- The stream is not errored and the operation is lossless. -/
def Careful (s : State) (op : Op) : Prop := s.isErrored = false ∧ Lossless s op

/-- Every operation keeps the bytes, or errors the stream. -/
theorem conserved_step {op : Op} (h : Conserved s) (hc : Careful s op)
    (hok : step c s op = .ok (r, s')) : s'.isErrored ∨ Conserved s' := by
  obtain ⟨he, hl⟩ := hc
  cases op with
  | enqueue chunk => exact .inr (conserved_enqueue h hok)
  | close =>
    obtain rfl := congrArg Prod.snd (Except.ok.inj hok)
    exact conserved_close h
  | getByobRequest =>
    cases hok
    exact .inr (conserved_getByobRequest h)
  | writeRequest i b =>
    obtain rfl := congrArg Prod.snd (Except.ok.inj hok)
    exact .inr (conserved_writeRequest h hl)
  | respond n => exact .inr (conserved_respond h hl hok)
  | respondWithNewView v => exact .inr (conserved_respondWithNewView h hl hok)
  | getReader byob =>
    obtain rfl := congrArg Prod.snd (Except.ok.inj hok)
    exact .inr (conserved_getReader h)
  | read => exact .inr (conserved_read h he hok)
  | readInto v m => exact conserved_readInto h he hok
  | releaseLock =>
    cases hok
    exact .inr (conserved_releaseLock h)
  | startSettled =>
    cases hok
    exact .inr (conserved_callPullIfNeeded { h with shape := { h.shape with } })
  | pullSettled =>
    unfold step at hok
    dsimp only at hok
    split_ifs at hok
    · cases hok
      exact .inr (conserved_callPullIfNeeded { h with shape := { h.shape with } })
    · cases hok
      exact .inr { h with shape := { h.shape with } }

theorem conserved_new : Conserved .new :=
  ⟨⟨nofun, trivial, nofun, rfl, fun _ => nofun⟩, .inl rfl, fun _ => rfl, rfl⟩

instance (s : State) : Decidable (nothingLeft s) := by
  unfold nothingLeft
  exact inferInstance

instance (s : State) (op : Op) : Decidable (Lossless s op) := by
  cases op <;> unfold Lossless <;> exact inferInstance

instance (s : State) (op : Op) : Decidable (Careful s op) := instDecidableAnd

/-- A stream without automatic allocation that pulls only for reads. -/
def plain : Config := ⟨none, fun _ => false, by simp⟩

/-- An `Uint8Array` over a buffer of its own. -/
def bytesView (b : List UInt8) : View :=
  ⟨.uint8Array, b, 0, b.length, by omega, Nat.one_dvd _⟩

/-- A `Uint16Array` of two elements over a buffer of its own. -/
def pairView : View := ⟨.uint16Array, [0, 0, 0, 0], 0, 4, by decide, by decide⟩

/-- A BYOB read gets two bytes of three, and the third is queued; a second one takes it and is
released with two bytes in its buffer, which a default reader then gets before the next chunk. -/
def mixedOps : List Op :=
  [.startSettled, .getReader true, .readInto pairView 1, .getByobRequest, .writeRequest 0 [1],
    .respond 1, .getByobRequest, .writeRequest 1 [2, 3], .respond 2, .readInto pairView 2,
    .getByobRequest, .writeRequest 1 [4], .respond 1, .releaseLock, .getReader false, .read,
    .enqueue (bytesView [5, 6]), .read, .enqueue (bytesView [7]), .close]

/-- A reader is released with three bytes in its buffer, the stream is closed, and the request is
answered as a closed stream asks for. -/
def dropOps : List Op :=
  [.startSettled, .getReader true, .readInto (bytesView (replicate 10 0)) 10, .getByobRequest,
    .writeRequest 0 [7, 8, 9], .respond 3, .releaseLock, .close, .getByobRequest, .respond 0]

end RasterRuntime.ByteStream
