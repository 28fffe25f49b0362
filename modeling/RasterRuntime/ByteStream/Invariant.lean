import RasterRuntime.ByteStream.Fill

/-! # What the algorithms of the controller keep

`State.content` is every byte that is somewhere: delivered, filled into a descriptor, or queued, in
this order. `Shape` is what holds of a state inside an operation; it does not say that the bytes in
the queue come after those in the descriptors. Each algorithm that only moves bytes keeps both
(`Kept`), some of them only if no descriptor has bytes. -/

namespace RasterRuntime.ByteStream

open List (append_assoc append_nil flatMap forall_mem_append forall_mem_cons forall_mem_singleton
  length_append mem_cons)

variable {c : Config} {s s' : State}

def Reader.type : Reader → ReaderType
  | .default _ => .default
  | .byob _ => .byob

/-- The type of the reader. -/
def State.kind (s : State) : Option ReaderType := s.reader.map Reader.type

/-- Every byte that is delivered, filled in, or queued. -/
def State.content (s : State) : List UInt8 := s.deliveredBytes ++ s.filledBytes ++ s.queueBytes

/-- The descriptors of a reader of type `k`: the first one may be left over from another reader, and
only the first one has bytes. -/
def Lined (k : Option ReaderType) : List PullIntoDescriptor → Prop
  | [] => True
  | d :: ds => (d.readerType = .none ∨ k = some d.readerType) ∧
      ∀ d' ∈ ds, k = some d'.readerType ∧ d'.bytesFilled = 0

structure Shape (s : State) : Prop where
  descriptors : ∀ d ∈ s.pendingPullIntos, d.Ok ∧ d.bytesFilled < d.minimumFill
  lined : Lined s.kind s.pendingPullIntos
  entries : ∀ e ∈ s.queue, e.Ok
  total : s.queueTotalSize = (bytesOf s.queue).length
  closed : s.streamState = .closed → ∀ d ∈ s.pendingPullIntos, d.elementSize ∣ d.bytesFilled

/-- The bytes stay where they are or move on. -/
structure Kept (s s' : State) : Prop where
  shape : Shape s'
  content : s'.content = s.content
  supplied : s'.supplied = s.supplied
  kind : s'.kind = s.kind
  requests : numReadRequests s' ≤ numReadRequests s

theorem Kept.trans {s'' : State} (h : Kept s s') (h' : Kept s' s'') : Kept s s'' :=
  ⟨h'.shape, h'.content.trans h.content, h'.supplied.trans h.supplied, h'.kind.trans h.kind,
    Nat.le_trans h'.requests h.requests⟩

theorem Kept.refl (h : Shape s) : Kept s s := ⟨h, rfl, rfl, rfl, Nat.le_refl _⟩

/-! ### Empty queues and empty descriptors -/

theorem bytesOf_eq_nil {q : List QueueEntry} (hq : ∀ e ∈ q, e.Ok) (h : (bytesOf q).length = 0) :
    q = [] := by
  cases q with
  | nil => rfl
  | cons e es =>
    have he : e.Ok := hq e (by simp)
    have hl := he.length_bytes
    have hp := he.nonempty
    rw [bytesOf_cons, length_append] at h
    omega

theorem Shape.queue_eq_nil (h : Shape s) (ht : s.queueTotalSize = 0) : s.queue = [] :=
  bytesOf_eq_nil h.entries (h.total ▸ ht)

theorem Shape.total_of_nil (h : Shape s) (hq : s.queue = []) : s.queueTotalSize = 0 := by
  rw [h.total, hq]
  rfl

variable {d : PullIntoDescriptor} {ds : List PullIntoDescriptor} {k : Option ReaderType}
    {b : List UInt8} {n : ℕ}

theorem PullIntoDescriptor.filled_eq_nil (h : d.bytesFilled = 0) :
    d.filled = [] := by
  rw [PullIntoDescriptor.filled, h, window_zero]

theorem flatMap_filled_eq_nil (h : ∀ d ∈ ds, d.bytesFilled = 0) :
    ds.flatMap PullIntoDescriptor.filled = [] :=
  List.flatMap_eq_nil_iff.mpr fun d hd => PullIntoDescriptor.filled_eq_nil (h d hd)

theorem Lined.rest (h : Lined k (d :: ds)) : Lined k ds := by
  cases ds with
  | nil => trivial
  | cons d' ds => exact ⟨.inr (h.2 d' (by simp)).1, fun d'' h' => h.2 d'' (by simp [h'])⟩

theorem Lined.type (h : Lined k ds) (hd : d ∈ ds) :
    d.readerType = .none ∨ k = some d.readerType := by
  cases ds with
  | nil => simp at hd
  | cons d' ds =>
    rcases mem_cons.mp hd with rfl | hd
    · exact h.1
    · exact .inr (h.2 d hd).1

theorem Lined.flatMap_filled (h : Lined k (d :: ds)) :
    (d :: ds).flatMap PullIntoDescriptor.filled = d.filled := by
  rw [List.flatMap_cons, flatMap_filled_eq_nil fun d' h' => (h.2 d' h').2, append_nil]

theorem Lined.append (h : Lined k ds) (hk : k = some d.readerType) (hd : d.bytesFilled = 0) :
    Lined k (ds ++ [d]) := by
  cases ds with
  | nil => exact ⟨.inr hk, by simp⟩
  | cons d' ds =>
    exact ⟨h.1, forall_mem_append.mpr ⟨h.2, forall_mem_singleton.mpr ⟨hk, hd⟩⟩⟩

/-! ### The first descriptor -/

section

variable (h : Shape s) (hp : s.pendingPullIntos = d :: ds)

include h hp

theorem Shape.lined_cons : Lined s.kind (d :: ds) := hp ▸ h.lined

theorem Shape.rest_filled : ds.flatMap PullIntoDescriptor.filled = [] :=
  flatMap_filled_eq_nil fun x hx => ((h.lined_cons hp).2 x hx).2

theorem Shape.shift : Shape { s with pendingPullIntos := ds } := by
  have hsub : ∀ x ∈ ds, x ∈ s.pendingPullIntos := by
    intro x hx
    rw [hp]
    exact .tail _ hx
  exact ⟨fun x hx => h.descriptors x (hsub x hx), (h.lined_cons hp).rest, h.entries, h.total,
    fun hc x hx => h.closed hc x (hsub x hx)⟩

/-- Another descriptor in the place of the first one. -/
theorem Shape.replace (d' : PullIntoDescriptor) (ht : d'.readerType = d.readerType)
    (hd : d'.Ok ∧ d'.bytesFilled < d'.minimumFill)
    (hc : s.streamState = .closed → d'.elementSize ∣ d'.bytesFilled) :
    Shape { s with pendingPullIntos := d' :: ds } :=
  { h with
    descriptors := forall_mem_cons.mpr ⟨hd, (h.shift hp).descriptors⟩
    lined := ⟨ht.symm ▸ (h.lined_cons hp).1, (h.lined_cons hp).2⟩
    closed := fun hs => forall_mem_cons.mpr ⟨hc hs, (h.shift hp).closed hs⟩ }

theorem Shape.content_cons : s.content = s.deliveredBytes ++ d.filled ++ s.queueBytes := by
  rw [State.content, State.filledBytes, hp, (h.lined_cons hp).flatMap_filled]

theorem Shape.content_shift :
    ({ s with pendingPullIntos := ds } : State).content = s.deliveredBytes ++ s.queueBytes := by
  show s.deliveredBytes ++ ds.flatMap PullIntoDescriptor.filled ++ s.queueBytes = _
  rw [h.rest_filled hp, append_nil]

end

theorem shift_eq_ok (h : shiftPendingPullInto s = .ok (d, s')) :
    ∃ ds, s.pendingPullIntos = d :: ds ∧ s' = { s with pendingPullIntos := ds } := by
  unfold shiftPendingPullInto at h
  split at h
  · next hp =>
    cases h
    exact ⟨_, hp, rfl⟩
  · cases h

theorem PullIntoDescriptor.Ok.refill (h : d.Ok) (hlen : b.length = d.buffer.length) (n : ℕ) :
    ({ d with buffer := b, bytesFilled := n } : PullIntoDescriptor).Ok :=
  { h with inBounds := hlen.symm ▸ h.inBounds, buffer := hlen.symm ▸ h.buffer }

/-! ### Bookkeeping -/

theorem deliveredBytes_resolve (s : State) (r : ℕ) (x : ReadResult) :
    (resolve s r x).deliveredBytes = s.deliveredBytes ++ x.bytes := by
  simp [State.deliveredBytes, resolve]

/-- Calling `pull` changes nothing but the two flags about it. -/
theorem exists_callPullIfNeeded (c : Config) (s : State) :
    ∃ p a, callPullIfNeeded c s = { s with pulling := p, pullAgain := a } := by
  unfold callPullIfNeeded
  split_ifs
  · exact ⟨s.pulling, true, rfl⟩
  · exact ⟨true, s.pullAgain, rfl⟩
  · exact ⟨s.pulling, s.pullAgain, rfl⟩

theorem kept_callPullIfNeeded (h : Shape s) : Kept s (callPullIfNeeded c s) := by
  obtain ⟨p, a, hc⟩ := exists_callPullIfNeeded c s
  rw [hc]
  exact ⟨{ h with }, rfl, rfl, rfl, Nat.le_refl _⟩

theorem deliveredBytes_streamClose (s : State) :
    (streamClose s).deliveredBytes = s.deliveredBytes := by
  unfold streamClose
  split
  · next rs hr =>
    simp [State.deliveredBytes, List.flatMap_map, ReadResult.bytes]
  · rfl

theorem streamClose_pending (s : State) :
    (streamClose s).pendingPullIntos = s.pendingPullIntos ∧ (streamClose s).queue = s.queue := by
  unfold streamClose
  split
  all_goals exact ⟨rfl, rfl⟩

theorem kept_streamClose (h : Shape s)
    (ha : ∀ d ∈ s.pendingPullIntos, d.elementSize ∣ d.bytesFilled) : Kept s (streamClose s) := by
  have hcontent : (streamClose s).content = s.content := by
    rw [State.content, deliveredBytes_streamClose, State.filledBytes, State.queueBytes,
      (streamClose_pending s).1, (streamClose_pending s).2]
    rfl
  unfold streamClose at hcontent ⊢
  split
  · next rs hr =>
    have hk : s.kind = some .default := by simp [State.kind, hr, Reader.type]
    have hl : Lined (some .default) s.pendingPullIntos := hk ▸ h.lined
    rw [hr] at hcontent
    exact ⟨{ h with lined := hl, closed := fun _ => ha }, hcontent, rfl, hk.symm, Nat.zero_le _⟩
  · exact ⟨{ h with closed := fun _ => ha }, rfl, rfl, rfl, Nat.le_refl _⟩

/-! ### Out of the queue -/

theorem kept_handleQueueDrain (h : Shape s) (hz : ∀ d ∈ s.pendingPullIntos, d.bytesFilled = 0) :
    Kept s (handleQueueDrain c s) ∧
      (handleQueueDrain c s).deliveredBytes = s.deliveredBytes ∧
      (handleQueueDrain c s).pendingPullIntos = s.pendingPullIntos ∧
      (handleQueueDrain c s).queue = s.queue := by
  unfold handleQueueDrain
  split_ifs
  · refine ⟨kept_streamClose h fun d hd => ?_, deliveredBytes_streamClose s, streamClose_pending s⟩
    rw [hz d hd]
    exact Nat.dvd_zero _
  · refine ⟨kept_callPullIfNeeded h, ?_⟩
    obtain ⟨p, a, hc⟩ := exists_callPullIfNeeded c s
    rw [hc]
    exact ⟨rfl, rfl, rfl⟩

/-- A stream is closed here only after `close`, and with an empty queue. -/
theorem streamState_handleQueueDrain (h : Shape s) :
    (s.closeRequested = false → (handleQueueDrain c s).streamState = s.streamState ∧
      (handleQueueDrain c s).closeRequested = false) ∧
    ((handleQueueDrain c s).streamState = .closed → s.streamState = .closed ∨ s.queue = []) := by
  unfold handleQueueDrain
  split_ifs with hd
  · exact ⟨fun hc => absurd (hc.symm.trans hd.2) (by simp), fun _ => .inr (h.queue_eq_nil hd.1)⟩
  · obtain ⟨p, a, hc⟩ := exists_callPullIfNeeded c s
    rw [hc]
    exact ⟨fun h => ⟨rfl, h⟩, fun h => .inl h⟩

theorem kept_fillReadRequestFromQueue {r : ℕ} (h : Shape s)
    (hz : ∀ d ∈ s.pendingPullIntos, d.bytesFilled = 0)
    (hok : fillReadRequestFromQueue c s r = .ok s') :
    Kept s s' ∧ s'.pendingPullIntos = s.pendingPullIntos ∧ (∃ e, s.queue = e :: s'.queue) ∧
      (s.closeRequested = false → s'.streamState = s.streamState ∧ s'.closeRequested = false) ∧
      (s'.streamState = .closed → s.streamState = .closed ∨ s'.queue = []) := by
  unfold fillReadRequestFromQueue at hok
  split at hok
  · next e es hq =>
    cases hok
    have hsub : ∀ e' ∈ es, e'.Ok := fun e' h' => h.entries e' (by simp [hq, h'])
    have he : e.Ok := h.entries e (by simp [hq])
    set t : State :=
      { s with queue := es, queueTotalSize := s.queueTotalSize - e.byteLength } with ht
    have htotal : t.queueTotalSize = (bytesOf es).length := by
      show s.queueTotalSize - e.byteLength = _
      rw [h.total, hq, bytesOf_cons, length_append, he.length_bytes, Nat.add_sub_cancel_left]
    have hshape : Shape t := { h with entries := hsub, total := htotal }
    obtain ⟨hkept, hdel, hp, hqueue⟩ := kept_handleQueueDrain (c := c) hshape hz
    obtain ⟨hopen, hdrained⟩ := streamState_handleQueueDrain (c := c) hshape
    refine ⟨⟨{ hkept.shape with }, ?_, hkept.supplied, hkept.kind, hkept.requests⟩, hp,
      ⟨e, hq.trans (congrArg (e :: ·) hqueue.symm)⟩, hopen,
      fun hc => (hdrained hc).imp_right hqueue.trans⟩
    -- no descriptor has bytes, so the chunk is the next in order
    have hfill : s.filledBytes = [] := flatMap_filled_eq_nil hz
    have hfill' : (handleQueueDrain c t).filledBytes = [] := by
      rw [State.filledBytes, hp]
      exact hfill
    rw [State.content, deliveredBytes_resolve, hdel]
    show s.deliveredBytes ++ e.bytes ++ (handleQueueDrain c t).filledBytes ++
      (handleQueueDrain c t).queueBytes = _
    rw [hfill', State.queueBytes, hqueue, State.content, hfill, State.queueBytes, hq]
    simp [ht]
  · cases hok

/-- The reads that wait at a default reader are given chunks, until one of the two runs out. -/
theorem kept_processReadRequestsLoop (n : ℕ) (h : Shape s)
    (hz : ∀ d ∈ s.pendingPullIntos, d.bytesFilled = 0) (hk : s.kind = some .default)
    (hcr : s.closeRequested = false) (hn : numReadRequests s ≤ n)
    (hok : processReadRequestsLoop c n s = .ok s') :
    Kept s s' ∧ s'.pendingPullIntos = s.pendingPullIntos ∧ s'.streamState = s.streamState ∧
      (numReadRequests s' = 0 ∨ s'.queue = []) := by
  fun_induction processReadRequestsLoop c n s with
  | case1 =>
    cases hok
    exact ⟨.refl h, rfl, rfl, .inl (by omega)⟩
  | case2 n s ht =>
    cases hok
    exact ⟨.refl h, rfl, rfl, .inr (h.queue_eq_nil ht)⟩
  | case3 n s ht r rs hr ih =>
    obtain ⟨t, hf, hloop⟩ := bind_eq_ok.mp hok
    set u : State := { s with reader := some (.default rs) } with hu
    have hku : u.kind = s.kind := hk.symm
    have hsu : Shape u := { h with lined := hku ▸ h.lined }
    obtain ⟨hkept, hp, -, hopen, -⟩ := kept_fillReadRequestFromQueue hsu hz hf
    obtain ⟨hst, hcr'⟩ := hopen hcr
    have hreq : numReadRequests s = rs.length + 1 := by simp [numReadRequests, hr]
    have hrequ : numReadRequests u = rs.length := rfl
    have hrt := hkept.requests
    obtain ⟨hkept', hp', hst', hend⟩ := ih t hkept.shape (by rw [hp]; exact hz)
      (hkept.kind.trans (hku.trans hk)) hcr' (by omega) hloop
    refine ⟨⟨hkept'.shape, hkept'.content.trans hkept.content,
      hkept'.supplied.trans hkept.supplied, hkept'.kind.trans (hkept.kind.trans hku), ?_⟩,
      hp'.trans hp, hst'.trans hst, hend⟩
    have := hkept'.requests
    omega
  | case4 n s ht hne =>
    cases hok
    refine ⟨.refl h, rfl, rfl, .inl ?_⟩
    unfold numReadRequests
    split
    · next rs hr =>
      cases rs with
      | nil => rfl
      | cons r rs => exact absurd hr (hne r rs)
    · rfl

/-! ### Into the queue -/

variable {o : ℕ} {d' : PullIntoDescriptor} {t : State}

/-- The bytes `b` are put at the end of the queue. -/
structure Appended (s s' : State) (b : List UInt8) : Prop where
  state : s' = { s with queue := s'.queue, queueTotalSize := s'.queueTotalSize }
  bytes : bytesOf s'.queue = bytesOf s.queue ++ b
  entries : (∀ e ∈ s.queue, e.Ok) → ∀ e ∈ s'.queue, e.Ok
  total : s.queueTotalSize = (bytesOf s.queue).length →
    s'.queueTotalSize = (bytesOf s'.queue).length

theorem appended_enqueueChunkToQueue (hb : o + n ≤ b.length) (hn : 0 < n) :
    Appended s (enqueueChunkToQueue s b o n) (window b o n) := by
  have hw : bytesOf [⟨b, o, n⟩] = window b o n := append_nil _
  refine ⟨rfl, ?_, fun h => ?_, fun h => ?_⟩
  · show bytesOf (s.queue ++ _) = _
    rw [bytesOf_append, hw]
  · exact forall_mem_append.mpr ⟨h, forall_mem_singleton.mpr ⟨hb, hn⟩⟩
  · show s.queueTotalSize + n = (bytesOf (s.queue ++ _)).length
    rw [bytesOf_append, hw, length_append, h, length_window hb]

theorem appended_of_enqueueClonedIfAny (hok : enqueueClonedIfAny s b o n = .ok s') :
    Appended s s' (window b o n) := by
  unfold enqueueClonedIfAny enqueueClonedChunkToQueue at hok
  split_ifs at hok with hn hb
  · cases hok
    have hl : 0 + n ≤ (window b o n).length := by
      rw [length_window hb]
      omega
    have happ := appended_enqueueChunkToQueue (s := s) hl hn
    rwa [window_window] at happ
  · cases hok
    have hz : n = 0 := by omega
    rw [hz]
    exact ⟨rfl, by rw [window_zero, append_nil], fun h => h, fun h => h⟩

/-- The first descriptor is taken away and its bytes are put at the end of the queue. -/
theorem appended_of_enqueueDetached (hp : s.pendingPullIntos = d :: ds)
    (hok : enqueueDetachedPullIntoToQueue s = .ok s') :
    Appended { s with pendingPullIntos := ds } s' d.filled := by
  unfold enqueueDetachedPullIntoToQueue firstDescriptor at hok
  rw [hp] at hok
  obtain ⟨first, hfirst, hok⟩ := bind_eq_ok.mp hok
  cases hfirst
  obtain ⟨t, ht, hok⟩ := bind_eq_ok.mp hok
  obtain ⟨⟨d', u⟩, hu, hok⟩ := bind_eq_ok.mp hok
  cases hok
  have happ := appended_of_enqueueClonedIfAny ht
  have hpt : t.pendingPullIntos = d :: ds :=
    ((congrArg State.pendingPullIntos happ.state :)).trans hp
  obtain ⟨_, hp', rfl⟩ := shift_eq_ok hu
  cases hpt.symm.trans hp'
  refine ⟨?_, happ.bytes, happ.entries, happ.total⟩
  exact congrArg (fun x : State => { x with pendingPullIntos := ds }) happ.state

theorem Appended.exists_eq (h : Appended s s' b) :
    ∃ q n, s' = { s with queue := q, queueTotalSize := n } := ⟨_, _, h.state⟩

theorem Appended.shape (h : Shape s) (ha : Appended s s' b) : Shape s' := by
  obtain ⟨q, n, rfl⟩ := ha.exists_eq
  exact { h with entries := ha.entries h.entries, total := ha.total h.total }

theorem Appended.content (ha : Appended s s' b) :
    s'.content = s.content ++ b := by
  obtain ⟨q, n, rfl⟩ := ha.exists_eq
  show _ ++ bytesOf q = _
  rw [ha.bytes, ← append_assoc]
  rfl

/-! ### Out of a descriptor -/

theorem convert_bytes (h : d.elementSize ∣ d.bytesFilled) :
    (convertPullIntoDescriptor d).bytes = d.filled := by
  show window _ _ (d.bytesFilled / d.elementSize * d.elementSize) = _
  rw [Nat.div_mul_cancel h]
  rfl

/-- A descriptor with whole elements is handed to the first read that waits. -/
structure Committed (s : State) (d : PullIntoDescriptor) (s' : State) : Prop where
  state : s' = { s with reader := s'.reader, delivered := s'.delivered }
  delivered : s'.deliveredBytes = s.deliveredBytes ++ d.filled
  kind : s'.kind = s.kind
  requests : numReadRequests s' ≤ numReadRequests s
  waiting : d.readerType = .default → 0 < numReadRequests s

theorem committed_of_commit (ha : d.elementSize ∣ d.bytesFilled)
    (hd : d.readerType = .default → s.streamState ≠ .closed)
    (hok : commitPullIntoDescriptor s d = .ok s') : Committed s d s' := by
  have hb := convert_bytes ha
  unfold commitPullIntoDescriptor fulfillReadRequest fulfillReadIntoRequest at hok
  split at hok
  · next hdef =>
    rw [if_neg (by simpa using hd hdef)] at hok
    split at hok <;> cases hok
    next r rs hr =>
    refine ⟨rfl, (deliveredBytes_resolve _ _ _).trans (congrArg _ hb), ?_, ?_, fun _ => ?_⟩
    · rw [State.kind, State.kind, hr]; rfl
    · rw [numReadRequests, numReadRequests, hr]; exact Nat.le_succ _
    · simp [numReadRequests, hr]
  · next hdef =>
    split at hok <;> cases hok
    next r rs hr =>
    refine ⟨rfl, (deliveredBytes_resolve _ _ _).trans (congrArg _ (Eq.trans ?_ hb)), ?_,
      Nat.zero_le _, fun h => absurd h hdef⟩
    · split_ifs <;> rfl
    · rw [State.kind, State.kind, hr]; rfl

theorem Committed.exists_eq (h : Committed s d s') :
    ∃ r rs, s' = { s with reader := r, delivered := rs } := ⟨_, _, h.state⟩

theorem Committed.shape (h : Shape s) (hc : Committed s d s') : Shape s' := by
  have hk := hc.kind
  obtain ⟨r, rs, rfl⟩ := hc.exists_eq
  exact { h with lined := hk.symm ▸ h.lined }

theorem Committed.content (hc : Committed s d s') :
    s'.content = s.deliveredBytes ++ d.filled ++ s.filledBytes ++ s.queueBytes := by
  rw [State.content, hc.delivered]
  obtain ⟨r, rs, rfl⟩ := hc.exists_eq
  rfl

theorem processPullIntoLoop_of_total (h : s.queueTotalSize = 0) :
    processPullIntoLoop n s = .ok s := by
  fun_cases processPullIntoLoop n s
  case case4 hne => exact absurd h hne
  all_goals rfl

theorem Filled.exists_eq {ready : Bool} (h : Filled s d ready d' s') :
    (∃ q n, s' = { s with queue := q, queueTotalSize := n }) ∧
      ∃ b n, d' = { d with buffer := b, bytesFilled := n } := ⟨⟨_, _, h.state⟩, _, _, h.descriptor⟩

theorem Filled.kept_ready (h : Shape s) (hp : s.pendingPullIntos = d :: ds)
    (hs : s.streamState ≠ .closed) (hf : Filled s d true d' t)
    (hok : commitPullIntoDescriptor { t with pendingPullIntos := ds } d' = .ok s') :
    Kept s s' ∧ s'.streamState = s.streamState ∧ s'.pendingPullIntos = ds := by
  obtain ⟨⟨q, n, rfl⟩, b, k, rfl⟩ := hf.exists_eq
  have hshape : Shape { s with queue := q, queueTotalSize := n, pendingPullIntos := ds } :=
    { h.shift hp with entries := hf.entries, total := hf.total, closed := fun hc => absurd hc hs }
  have hcm := committed_of_commit (hf.whenReady rfl).2 (fun _ => by exact hs) hok
  have hcontent := hcm.content
  have hsh := hcm.shape hshape
  obtain ⟨r, rs, rfl⟩ := hcm.exists_eq
  refine ⟨⟨hsh, ?_, rfl, hcm.kind, hcm.requests⟩, rfl, rfl⟩
  -- the bytes of the first descriptor are the next ones in order
  rw [hcontent, h.content_cons hp]
  show s.deliveredBytes ++ _ ++ ds.flatMap PullIntoDescriptor.filled ++ bytesOf q = _
  rw [h.rest_filled hp, append_nil, append_assoc, hf.bytes, ← append_assoc]
  rfl

/-- The state when the first descriptor has used up the queue and is not ready. -/
theorem Filled.kept_not (h : Shape s) (hp : s.pendingPullIntos = d :: ds)
    (hs : s.streamState ≠ .closed) (hf : Filled s d false d' t) :
    Kept s { t with pendingPullIntos := d' :: ds } := by
  obtain ⟨⟨q, n, rfl⟩, b, k, rfl⟩ := hf.exists_eq
  have hok := (h.descriptors d (by simp [hp])).1.refill hf.length k
  have hset := h.replace hp { d with buffer := b, bytesFilled := k } rfl
    ⟨hok, (hf.whenNot rfl).1⟩ fun hc => absurd hc hs
  refine ⟨{ hset with entries := hf.entries, total := hf.total }, ?_, rfl, rfl, Nat.le_refl _⟩
  rw [h.content_cons hp]
  show s.deliveredBytes ++ (_ :: ds).flatMap PullIntoDescriptor.filled ++ bytesOf q = _
  rw [(hset.lined_cons rfl).flatMap_filled, append_assoc, hf.bytes, ← append_assoc]
  rfl

/-- The descriptors are filled and handed out, until they or the queue run out. -/
theorem kept_processPullIntoLoop (n : ℕ) (h : Shape s) (hs : s.streamState ≠ .closed)
    (hn : s.pendingPullIntos.length ≤ n) (hok : processPullIntoLoop n s = .ok s') :
    Kept s s' ∧ s'.streamState = s.streamState ∧ (s'.pendingPullIntos = [] ∨ s'.queue = []) := by
  fun_induction processPullIntoLoop n s with
  | case1 =>
    cases hok
    exact ⟨.refl h, rfl, .inl (List.length_eq_zero_iff.mp (by omega))⟩
  | case2 n s hp =>
    cases hok
    exact ⟨.refl h, rfl, .inl hp⟩
  | case3 n s d ds hp ht =>
    cases hok
    exact ⟨.refl h, rfl, .inr (h.queue_eq_nil ht)⟩
  | case4 n s d ds hp ht ih =>
    obtain ⟨⟨ready, d', t⟩, hf, hok⟩ := bind_eq_ok.mp hok
    have hd := h.descriptors d (by rw [hp]; simp)
    have hfill := filled_of_fill hd.1 hd.2 h.entries h.total hf
    cases ready with
    | true =>
      obtain ⟨u, hc, hok⟩ := bind_eq_ok.mp hok
      obtain ⟨hkept, hst, hpu⟩ := hfill.kept_ready h hp hs hc
      have hlen : u.pendingPullIntos.length ≤ n := by
        rw [hpu]
        rw [hp, List.length_cons] at hn
        omega
      obtain ⟨hkept', hst', hend⟩ := ih u hkept.shape (by rw [hst]; exact hs) hlen hok
      exact ⟨hkept.trans hkept', hst'.trans hst, hend⟩
    | false =>
      have hkept := hfill.kept_not h hp hs
      have hzero := (hfill.whenNot rfl).2
      have hend : processPullIntoLoop n { t with pendingPullIntos := d' :: ds } = .ok _ :=
        processPullIntoLoop_of_total hzero
      cases hend.symm.trans hok
      exact ⟨hkept, (congrArg State.streamState hfill.state :),
        .inr (hkept.shape.queue_eq_nil hzero)⟩

/-- On a closed stream the reads that wait at a BYOB reader get what their descriptors have. -/
theorem kept_closedLoop (n : ℕ) (h : Shape s) (hs : s.streamState = .closed)
    (ht : ∀ d ∈ s.pendingPullIntos, d.readerType ≠ .default) (hok : closedLoop n s = .ok s') :
    Kept s s' ∧ s'.queue = s.queue := by
  fun_induction closedLoop n s with
  | case1 =>
    cases hok
    exact ⟨.refl h, rfl⟩
  | case2 n s ih =>
    obtain ⟨⟨d, t⟩, hsh, hok⟩ := bind_eq_ok.mp hok
    obtain ⟨u, hc, hloop⟩ := bind_eq_ok.mp hok
    obtain ⟨ds, hp, rfl⟩ := shift_eq_ok hsh
    have hcm := committed_of_commit (h.closed hs d (by simp [hp]))
      (fun e => absurd e (ht d (by simp [hp]))) hc
    have hcontent := hcm.content
    have hshape := hcm.shape (h.shift hp)
    obtain ⟨r, rs, rfl⟩ := hcm.exists_eq
    obtain ⟨hkept, hq⟩ := ih _ hshape hs (fun x hx => ht x (hp ▸ List.mem_cons_of_mem _ hx)) hloop
    refine ⟨Kept.trans ⟨hshape, ?_, rfl, hcm.kind, hcm.requests⟩ hkept, hq⟩
    rw [hcontent, h.content_cons hp]
    show s.deliveredBytes ++ d.filled ++ ds.flatMap PullIntoDescriptor.filled ++ s.queueBytes = _
    rw [h.rest_filled hp, append_nil]

end RasterRuntime.ByteStream
