import RasterRuntime.ByteStream.Invariant

/-! # The bytes of the source

Between two operations the bytes that the source supplied are, in their order, those that reads were
resolved with, those in the descriptors and those in the queue (`Conserved`). The order needs more
than the shape of the state: while the queue has chunks, the first descriptor must be empty and must
not be the next to be handed out (`Ordered`). -/

namespace RasterRuntime.ByteStream

variable {c : Config} {s s' : State}

/-- What is in the queue is the next to be handed out, unless the queue is empty. -/
def Ordered (s : State) : Prop :=
  s.queue = [] ∨ ∀ d ∈ s.pendingPullIntos.head?, d.bytesFilled = 0 ∧ d.readerType ≠ .byob ∧
    (d.readerType = .default → numReadRequests s = 0)

/-- What holds between two operations. -/
structure Conserved (s : State) : Prop where
  shape : Shape s
  ordered : Ordered s
  drained : s.streamState = .closed → s.queue = []
  bytes : s.content = s.supplied

def State.isErrored (s : State) : Bool :=
  match s.streamState with
  | .errored _ => true
  | _ => false

theorem Conserved.of_kept (h : Conserved s) (hk : Kept s s') (ho : Ordered s')
    (hd : s'.streamState = .closed → s'.queue = []) : Conserved s' :=
  ⟨hk.shape, ho, hd, by rw [hk.content, hk.supplied]; exact h.bytes⟩

theorem ordered_of_end (h : s.pendingPullIntos = [] ∨ s.queue = []) : Ordered s := by
  rcases h with h | h
  · exact .inr (by simp [h])
  · exact .inl h

/-- While the queue has chunks, no descriptor has bytes. -/
theorem Conserved.zero (h : Conserved s) (hq : s.queue ≠ []) :
    ∀ d ∈ s.pendingPullIntos, d.bytesFilled = 0 := by
  have ho := h.ordered.resolve_left hq
  have hl := h.shape.lined
  cases hp : s.pendingPullIntos with
  | nil => simp
  | cons d ds =>
    rw [hp] at ho hl
    exact List.forall_mem_cons.mpr ⟨(ho d rfl).1, fun d' hd' => (hl.2 d' hd').2⟩

theorem conserved_callPullIfNeeded (h : Conserved s) : Conserved (callPullIfNeeded c s) := by
  have hk : Kept s (callPullIfNeeded c s) := kept_callPullIfNeeded h.shape
  obtain ⟨p, a, hc⟩ := exists_callPullIfNeeded c s
  rw [hc] at hk ⊢
  exact h.of_kept hk h.ordered h.drained

/-! ### `enqueue` -/

variable {ds : List PullIntoDescriptor} {d : PullIntoDescriptor} {chunk : View}

/-- A default reader's descriptors never have bytes. -/
theorem zero_of_default {k : Option ReaderType} (hl : Lined k ds)
    (hd : ∀ d ∈ ds, d.Ok ∧ d.bytesFilled < d.minimumFill) (hk : k = some .default)
    (hn : ∀ d ∈ ds.head?, d.readerType ≠ .none) :
    ∀ d ∈ ds, d.bytesFilled = 0 ∧ d.readerType = .default := by
  have htype : ∀ d ∈ ds, d.readerType = .default := by
    subst hk
    cases ds with
    | nil => simp
    | cons d ds =>
      exact List.forall_mem_cons.mpr
        ⟨(Option.some.inj (hl.1.resolve_left (hn d rfl))).symm,
          fun d' h' => (Option.some.inj (hl.2 d' h').1).symm⟩
  intro d h
  have hm := (hd d h).1.default (htype d h)
  have hlt := (hd d h).2
  exact ⟨by omega, htype d h⟩

/-- The bytes of the first descriptor can be put behind the queue: one of the two is empty. -/
theorem Ordered.swap (h : Ordered s) (hp : s.pendingPullIntos = d :: ds) :
    d.filled ++ s.queueBytes = s.queueBytes ++ d.filled := by
  rcases h with hq | hq
  · rw [State.queueBytes, hq]
    simp
  · rw [hp] at hq
    rw [PullIntoDescriptor.filled_eq_nil (hq d rfl).1]
    simp

theorem Lined.rest_ne_none (h : Lined s.kind (d :: ds)) : ∀ x ∈ ds, x.readerType ≠ .none := by
  intro x hx hn
  have hk := (h.2 x hx).1
  rw [State.kind, hn] at hk
  obtain ⟨r, -, hr⟩ := Option.map_eq_some_iff.mp hk
  cases r <;> cases hr

/-- After the first part of `enqueue`, no descriptor is left over from another reader. -/
theorem kept_detachFirst {t : State} (hs : Shape s) (ho : Ordered s)
    (hok : detachFirst s = .ok t) :
    Kept s t ∧ t.streamState = s.streamState ∧ t.closeRequested = s.closeRequested ∧
      ∀ d ∈ t.pendingPullIntos.head?, d.readerType ≠ .none := by
  have hinv : Shape (invalidateByobRequest s) := { hs with }
  revert hok
  fun_cases detachFirst s
  · next hp =>
    rintro ⟨⟩
    exact ⟨.refl hs, rfl, rfl, by simp [hp]⟩
  · next d ds hp ht =>
    intro hok
    have happ := appended_of_enqueueDetached (s := invalidateByobRequest s) hp hok
    have hcontent := happ.content
    have hshape := happ.shape (hinv.shift hp)
    obtain ⟨q, n, rfl⟩ := happ.exists_eq
    refine ⟨⟨hshape, ?_, rfl, rfl, Nat.le_refl _⟩, rfl, rfl,
      fun x hx => (hs.lined_cons hp).rest_ne_none x (List.mem_of_mem_head? hx)⟩
    rw [hcontent, hinv.content_shift hp, hs.content_cons hp, List.append_assoc,
      List.append_assoc, ho.swap hp]
    rfl
  · next d ds hp ht =>
    rintro ⟨⟩
    refine ⟨⟨hinv, rfl, rfl, rfl, Nat.le_refl _⟩, rfl, rfl, ?_⟩
    show ∀ x ∈ s.pendingPullIntos.head?, _
    simpa [hp] using ht

theorem Shape.supply (h : Shape s) (b : List UInt8) : Shape { s with supplied := b } := { h with }

/-- A state of an operation with new bytes `new`: they come after all others. -/
structure Placed (s s' : State) (new : List UInt8) : Prop where
  shape : Shape s'
  ordered : Ordered s'
  streamState : s'.streamState = s.streamState
  content : s'.content = s.content ++ new
  supplied : s'.supplied = s.supplied

theorem placed_fulfillReadRequest {b : List UInt8} (h : Shape s)
    (hz : ∀ d ∈ s.pendingPullIntos, d.bytesFilled = 0) (hq : s.queue = [])
    (hok : fulfillReadRequest s ⟨.uint8Array, b⟩ false = .ok s') : Placed s s' b := by
  have hfill : s.filledBytes = [] := flatMap_filled_eq_nil hz
  have hqueue : s.queueBytes = [] := by rw [State.queueBytes, hq]; rfl
  unfold fulfillReadRequest at hok
  split at hok
  · next r rs hr =>
    have hk : s.kind = some .default := by simp [State.kind, hr, Reader.type]
    have hl : Lined (some .default) s.pendingPullIntos := hk ▸ h.lined
    cases hok
    refine ⟨{ h with lined := hl }, .inl hq, rfl, ?_, rfl⟩
    rw [State.content, deliveredBytes_resolve]
    show s.deliveredBytes ++ b ++ s.filledBytes ++ s.queueBytes =
      s.deliveredBytes ++ s.filledBytes ++ s.queueBytes ++ b
    simp [hfill, hqueue]
  all_goals cases hok

theorem kept_shift (h : Shape s) (hp : s.pendingPullIntos = d :: ds) (hd : d.bytesFilled = 0) :
    Kept s { s with pendingPullIntos := ds } := by
  refine ⟨h.shift hp, ?_, rfl, rfl, Nat.le_refl _⟩
  rw [h.content_shift hp, h.content_cons hp, PullIntoDescriptor.filled_eq_nil hd, List.append_nil]

theorem Placed.of_kept {t : State} {b : List UInt8} (h : Kept s t)
    (hs : t.streamState = s.streamState) (h' : Placed t s' b) : Placed s s' b :=
  ⟨h'.shape, h'.ordered, h'.streamState.trans hs, by rw [h'.content, h.content],
    h'.supplied.trans h.supplied⟩

theorem placed_default {rs : List ℕ} (h : Shape s) (hr : s.reader = some (.default rs))
    (hcr : s.closeRequested = false) (hn : ∀ d ∈ s.pendingPullIntos.head?, d.readerType ≠ .none)
    (hc : 0 < chunk.byteLength) (hok : placeChunk c s chunk = .ok s') :
    Placed s s' chunk.bytes := by
  have hk : s.kind = some .default := by simp [State.kind, hr, Reader.type]
  have hz := zero_of_default h.lined h.descriptors hk hn
  unfold placeChunk at hok
  rw [hr] at hok
  obtain ⟨t, ht, hok⟩ := bind_eq_ok.mp hok
  obtain ⟨hkept, hp, hst, hend⟩ := kept_processReadRequestsLoop _ h (fun d hd => (hz d hd).1) hk hcr
    (Nat.le_refl _) ht
  have hzt : ∀ d ∈ t.pendingPullIntos, d.bytesFilled = 0 ∧ d.readerType = .default := by
    rw [hp]
    exact hz
  split_ifs at hok with hreq hpt
  · -- no read waits
    cases hok
    have happ := appended_enqueueChunkToQueue (s := t) chunk.inBounds hc
    refine ⟨happ.shape hkept.shape, .inr fun d hd => ?_, hst, ?_, hkept.supplied⟩
    · obtain ⟨h0, h1⟩ := hzt d (List.mem_of_mem_head? hd)
      exact ⟨h0, by rw [h1]; simp, fun _ => hreq⟩
    · exact happ.content.trans (congrArg (· ++ _) hkept.content)
  · have hq := hend.resolve_left hreq
    exact .of_kept hkept hst
      (placed_fulfillReadRequest hkept.shape (fun d hd => (hzt d hd).1) hq hok)
  · have hq := hend.resolve_left hreq
    obtain ⟨⟨d, u⟩, hu, hok⟩ := bind_eq_ok.mp hok
    obtain ⟨ds, hpd, rfl⟩ := shift_eq_ok hu
    rw [hpd] at hzt
    have hsh := kept_shift hkept.shape hpd (hzt d (by simp)).1
    exact .of_kept (hkept.trans hsh) hst (placed_fulfillReadRequest hsh.shape
      (fun x hx => (hzt x (.tail _ hx)).1) hq hok)

theorem placed_placeChunk (h : Shape s) (hs : s.streamState ≠ .closed)
    (hcr : s.closeRequested = false) (hn : ∀ d ∈ s.pendingPullIntos.head?, d.readerType ≠ .none)
    (hc : 0 < chunk.byteLength) (hok : placeChunk c s chunk = .ok s') :
    Placed s s' chunk.bytes := by
  have happ := appended_enqueueChunkToQueue (s := s) chunk.inBounds hc
  have hsq := happ.shape h
  have hcq := happ.content
  cases hr : s.reader with
  | none =>
    unfold placeChunk at hok
    rw [hr] at hok
    cases hok
    refine ⟨hsq, ordered_of_end (.inl ?_), rfl, hcq, rfl⟩
    -- without a reader only a released descriptor can wait
    show s.pendingPullIntos = []
    have hl := h.lined
    rw [State.kind, hr] at hl
    cases hp : s.pendingPullIntos with
    | nil => rfl
    | cons d ds =>
      rw [hp] at hl hn
      exact absurd (hl.1.resolve_right (by simp)) (hn d rfl)
  | some rd =>
    cases rd with
    | default rs => exact placed_default h hr hcr hn hc hok
    | byob rs =>
      unfold placeChunk at hok
      rw [hr] at hok
      obtain ⟨hkept, hst, hend⟩ := kept_processPullIntoLoop _ hsq hs (Nat.le_refl _) hok
      exact ⟨hkept.shape, ordered_of_end hend, hst, hkept.content.trans hcq, hkept.supplied⟩

theorem conserved_refused {e r : Reply} (h : Conserved s)
    (hok : (.ok (e, s) : Except Panic (Reply × State)) = .ok (r, s')) : Conserved s' := by
  cases hok
  exact h

theorem conserved_enqueue {r : Reply} (h : Conserved s) (hok : enqueue c s chunk = .ok (r, s')) :
    Conserved s' := by
  unfold enqueue at hok
  split_ifs at hok with h1 h2 h3 h4
  iterate 4 exact conserved_refused h hok
  obtain ⟨t, ht, hok⟩ := bind_eq_ok.mp hok
  cases hok
  obtain ⟨u, hu, ht⟩ := bind_eq_ok.mp ht
  obtain ⟨v, hv, ht⟩ := bind_eq_ok.mp ht
  cases ht
  have hstate : s.streamState = .readable := not_not.mp h4
  have hsup := h.shape.supply (s.supplied ++ chunk.bytes)
  obtain ⟨hkept, hst, hcr, hn⟩ := kept_detachFirst hsup h.ordered hu
  have hopen : u.streamState ≠ .closed := by
    rw [hst]
    simp [hstate]
  have hplaced := placed_placeChunk hkept.shape hopen (hcr.trans (by simpa using h3)) hn
    (by omega) hv
  refine conserved_callPullIfNeeded ⟨hplaced.shape, hplaced.ordered,
    fun hc => absurd (hplaced.streamState.symm.trans hc) hopen, ?_⟩
  rw [hplaced.content, hplaced.supplied, hkept.content, hkept.supplied]
  show s.content ++ chunk.bytes = s.supplied ++ chunk.bytes
  rw [h.bytes]

/-! ### Responses -/

theorem fillHead_filled (d : PullIntoDescriptor) (n : ℕ) :
    (fillHeadPullIntoDescriptor n d).filled =
      d.filled ++ window d.buffer (d.byteOffset + d.bytesFilled) n :=
  (window_append d.buffer d.byteOffset d.bytesFilled n).symm

theorem conserved_processPullInto (h : Shape s) (hb : s.content = s.supplied)
    (hs : s.streamState ≠ .closed)
    (hok : processPullIntoDescriptorsUsingQueue s = .ok s') : Conserved s' := by
  obtain ⟨hkept, hst, hend⟩ := kept_processPullIntoLoop _ h hs (Nat.le_refl _) hok
  exact ⟨hkept.shape, ordered_of_end hend, fun hc => absurd (hst.symm.trans hc) hs,
    by rw [hkept.content, hkept.supplied, hb]⟩

/-- A descriptor that has its minimum is handed out in whole elements, and the rest is queued. `s`
is the state without it. -/
theorem conserved_commitFilled (h : Shape s) (hs : s.streamState ≠ .closed)
    (hz : s.filledBytes = []) (hq : (d.readerType = .default → 0 < numReadRequests s) →
      s.queue = [] ∧ s.deliveredBytes ++ d.filled = s.supplied) (hok : commitFilled s d = .ok s') :
    Conserved s' := by
  obtain ⟨t, ht, hok⟩ := bind_eq_ok.mp hok
  obtain ⟨u, hu, hok⟩ := bind_eq_ok.mp hok
  have happ := appended_of_enqueueClonedIfAny ht
  have hshape := happ.shape h
  have hqueue := happ.bytes
  obtain ⟨q, n, rfl⟩ := happ.exists_eq
  have hcm := committed_of_commit (Nat.dvd_sub_mod d.bytesFilled) (fun _ => by exact hs) hu
  obtain ⟨hnil, hb⟩ := hq hcm.waiting
  have hcontent := hcm.content
  have hsh := hcm.shape hshape
  obtain ⟨r, rs, rfl⟩ := hcm.exists_eq
  refine conserved_processPullInto hsh ?_ hs hok
  have hle : d.bytesFilled % d.elementSize ≤ d.bytesFilled := Nat.mod_le _ _
  -- the two parts of the descriptor are next to each other
  have hsplit : window d.buffer d.byteOffset (d.bytesFilled - d.bytesFilled % d.elementSize) ++
      window d.buffer (d.byteOffset + d.bytesFilled - d.bytesFilled % d.elementSize)
        (d.bytesFilled % d.elementSize) = d.filled := by
    rw [Nat.add_sub_assoc hle, window_append, Nat.sub_add_cancel hle]
    rfl
  rw [hcontent]
  show s.deliveredBytes ++ _ ++ s.filledBytes ++ bytesOf q = s.supplied
  rw [hz, hqueue, hnil, ← hb, ← hsplit]
  simp [PullIntoDescriptor.filled]

/-- **Responses on a readable stream**: the bytes that were written come after all bytes before. -/
theorem conserved_respondInReadableState {n : ℕ} (h : Conserved s) (hs : s.streamState ≠ .closed)
    (hp : s.pendingPullIntos = d :: ds) (hn : 0 < n) (hok : respondInReadableState s n = .ok s') :
    Conserved s' := by
  have hsh := h.shape
  have hdok := hsh.descriptors d (by simp [hp])
  have hfill := fillHead_filled d n
  have hcons := hsh.content_cons hp
  have hbytes := h.bytes
  unfold respondInReadableState at hok
  rw [hp] at hok
  dsimp only at hok
  have hshift := hsh.shift hp
  have hrest := hsh.rest_filled hp
  set w := window d.buffer (d.byteOffset + d.bytesFilled) n with hw
  -- what is in the queue is after the first descriptor's bytes, for each type of reader
  have hqueue : d.readerType ≠ .none → (d.readerType = .default → 0 < numReadRequests s) →
      s.queue = [] := by
    intro hnone hwait
    refine h.ordered.resolve_right fun hq => ?_
    rw [hp] at hq
    obtain ⟨-, h1, h2⟩ := hq d rfl
    cases ht : d.readerType with
    | none => exact hnone ht
    | byob => exact h1 ht
    | default =>
      have := hwait ht
      have := h2 ht
      omega
  split_ifs at hok with h1 h2
  · -- the reader was released: all bytes go to the queue
    obtain ⟨t, ht, hok⟩ := bind_eq_ok.mp hok
    have happ := appended_of_enqueueDetached (d := fillHeadPullIntoDescriptor n d) rfl ht
    have hcontent := happ.content
    have hshape := happ.shape (hshift.supply _)
    obtain ⟨q, k, rfl⟩ := happ.exists_eq
    refine conserved_processPullInto hshape ?_ hs hok
    rw [hcontent]
    show s.deliveredBytes ++ ds.flatMap PullIntoDescriptor.filled ++ s.queueBytes ++ _ =
      s.supplied ++ w
    rw [← hbytes, hcons, hfill, hrest, List.append_nil, List.append_assoc s.deliveredBytes d.filled,
      h.ordered.swap hp]
    simp only [List.append_assoc]
  · -- the minimum is not reached
    cases hok
    have hdef : d.readerType ≠ .default := by
      intro hd
      have hm := hdok.1.default hd
      replace h2 : d.bytesFilled + n < d.minimumFill := h2
      omega
    have hnil := hqueue h1 fun hd => absurd hd hdef
    have hset := hsh.replace hp (fillHeadPullIntoDescriptor n d) rfl ⟨{ hdok.1 with }, h2⟩
      fun hc => absurd hc hs
    refine ⟨hset.supply _, .inl hnil, fun hc => absurd hc hs, (hset.content_cons rfl).trans ?_⟩
    show s.deliveredBytes ++ (fillHeadPullIntoDescriptor n d).filled ++ s.queueBytes =
      s.supplied ++ w
    rw [hfill, ← hbytes, hcons, State.queueBytes, hnil]
    simp
  · -- the descriptor is handed out
    obtain ⟨⟨d', t⟩, ht, hok⟩ := bind_eq_ok.mp hok
    cases ht
    refine conserved_commitFilled (hshift.supply _) hs hrest (fun hwait => ?_) hok
    have hnil := hqueue h1 hwait
    refine ⟨hnil, ?_⟩
    show s.deliveredBytes ++ (fillHeadPullIntoDescriptor n d).filled = s.supplied ++ w
    rw [hfill, ← hbytes, hcons, State.queueBytes, hnil]
    simp

end RasterRuntime.ByteStream
