import RasterRuntime.ByteStream.Operations

/-! # Filling a descriptor from the queue

* `Copied`, `copied_of_copyFromQueue`: the loop moves the first bytes of the queue behind the bytes
  that the descriptor has.
* `Filled`, `filled_of_fill`: a descriptor that is ready has its minimum, in whole elements; one
  that is not has less than its minimum, and the queue is empty. -/

namespace RasterRuntime.ByteStream

/-- The bytes of a queue. -/
def bytesOf (q : List QueueEntry) : List UInt8 := q.flatMap QueueEntry.bytes

@[simp] theorem bytesOf_nil : bytesOf [] = [] := rfl

@[simp] theorem bytesOf_cons (e : QueueEntry) (q : List QueueEntry) :
    bytesOf (e :: q) = e.bytes ++ bytesOf q := rfl

@[simp] theorem bytesOf_append (p q : List QueueEntry) :
    bytesOf (p ++ q) = bytesOf p ++ bytesOf q := List.flatMap_append

/-- An entry of the queue is inside its buffer and not empty. -/
structure QueueEntry.Ok (e : QueueEntry) : Prop where
  inBounds : e.byteOffset + e.byteLength ≤ e.buffer.length
  nonempty : 0 < e.byteLength

theorem QueueEntry.Ok.length_bytes {e : QueueEntry} (h : e.Ok) : e.bytes.length = e.byteLength :=
  length_window h.inBounds

/-- A descriptor as it was made: inside its buffer, with a minimum and a length of whole
elements. -/
structure PullIntoDescriptor.Ok (d : PullIntoDescriptor) : Prop where
  inBounds : d.byteOffset + d.byteLength ≤ d.buffer.length
  buffer : d.bufferByteLength = d.buffer.length
  minimum_le : d.minimumFill ≤ d.byteLength
  element_pos : 0 < d.elementSize
  minimum_whole : d.elementSize ∣ d.minimumFill
  length_whole : d.elementSize ∣ d.byteLength
  default : d.readerType = .default → d.minimumFill = 1

/-! ### Copying -/

variable {b b' p : List UInt8} {i j n : ℕ} {d : PullIntoDescriptor}

theorem copyDataBlockBytes_ok (h : copyDataBlockBytes b i p j n = .ok b') :
    i + n ≤ b.length ∧ j + n ≤ p.length ∧ b' = b.take i ++ window p j n ++ b.drop (i + n) := by
  unfold copyDataBlockBytes at h
  split_ifs at h with hb
  cases h
  exact ⟨hb.1, hb.2, rfl⟩

theorem length_copyDataBlockBytes (h : copyDataBlockBytes b i p j n = .ok b') :
    b'.length = b.length := by
  obtain ⟨hi, hj, rfl⟩ := copyDataBlockBytes_ok h
  have hw : (window p j n).length = n := length_window hj
  simp only [List.length_append, List.length_take, List.length_drop, hw]
  omega

/-- What is before the copied bytes stays, and they follow it. -/
theorem window_copyDataBlockBytes {o m : ℕ} (h : copyDataBlockBytes b (o + m) p j n = .ok b') :
    window b' o (m + n) = window b o m ++ window p j n := by
  obtain ⟨hi, hj, rfl⟩ := copyDataBlockBytes_ok h
  have hw : (window p j n).length = n := length_window hj
  have hdrop : (b.take (o + m)).drop o = window b o m := by
    unfold window
    rw [List.drop_take, Nat.add_sub_cancel_left]
  have hlen : (window b o m).length = m := length_window (by omega)
  have ho : o ≤ (b.take (o + m)).length := by
    rw [List.length_take]
    omega
  rw [window, List.append_assoc, List.drop_append_of_le_length ho, hdrop, ← List.append_assoc,
    List.take_left' (by rw [List.length_append, hlen, hw])]

/-- What the loop leaves after it has copied `n` bytes. -/
structure Copied (q : List QueueEntry) (n total : ℕ) (d d' : PullIntoDescriptor)
    (q' : List QueueEntry) (total' : ℕ) : Prop where
  descriptor : d' = { d with buffer := d'.buffer, bytesFilled := d.bytesFilled + n }
  length : d'.buffer.length = d.buffer.length
  filled : d'.filled = d.filled ++ (bytesOf q).take n
  queue : bytesOf q' = (bytesOf q).drop n
  entries : ∀ e ∈ q', e.Ok
  total : total' = total - n

theorem copied_of_copyFromQueue {q q' : List QueueEntry} {total total' : ℕ}
    {d' : PullIntoDescriptor}
    (hq : ∀ e ∈ q, e.Ok) (h : copyFromQueue q n total d = .ok (d', q', total')) :
    Copied q n total d d' q' total' := by
  fun_induction copyFromQueue q n total d with
  | case1 =>
    cases h
    exact ⟨rfl, rfl, by simp, rfl, hq, rfl⟩
  | case2 => cases h
  | case3 e es n total d m ih =>
    subst m
    obtain ⟨b, hb, h⟩ := bind_eq_ok.mp h
    have he : e.Ok := hq e (by simp)
    have hes : ∀ e ∈ es, e.Ok := fun e' h' => hq e' (.tail _ h')
    have hlen := he.length_bytes
    have hw := window_copyDataBlockBytes hb
    split_ifs at h with hm
    · -- the whole entry is used
      have hc := ih b hes h
      have hmin : min (n + 1) e.byteLength ≤ n + 1 := Nat.min_le_left _ _
      refine ⟨?_, ?_, ?_, ?_, hc.entries, ?_⟩
      · rw [hc.descriptor]
        simp only [fillHeadPullIntoDescriptor, PullIntoDescriptor.mk.injEq, and_true, true_and]
        omega
      · rw [hc.length]
        exact length_copyDataBlockBytes hb
      · rw [hc.filled]
        show window b d.byteOffset (d.bytesFilled + min (n + 1) e.byteLength) ++ _ = _
        rw [hw, bytesOf_cons, List.take_append, hlen, ← hm,
          List.take_of_length_le (by omega : e.bytes.length ≤ n + 1), List.append_assoc]
        rfl
      · rw [hc.queue, bytesOf_cons, List.drop_append, hlen, ← hm,
          List.drop_of_length_le (by omega : e.bytes.length ≤ n + 1), List.nil_append]
      · rw [hc.total]
        omega
    · -- the entry has more than is left
      cases h
      have hmin : min (n + 1) e.byteLength = n + 1 := by omega
      rw [hmin] at hw hb hm ⊢
      have hlt : n + 1 < e.byteLength := by omega
      refine ⟨rfl, length_copyDataBlockBytes hb, ?_, ?_, ?_, rfl⟩
      · show window b d.byteOffset (d.bytesFilled + (n + 1)) = _
        rw [hw, bytesOf_cons, List.take_append_of_le_length (by omega)]
        show _ = _ ++ (window e.buffer e.byteOffset e.byteLength).take (n + 1)
        rw [take_window _ _ _ _ (Nat.le_of_lt hlt)]
        rfl
      · rw [bytesOf_cons, bytesOf_cons, List.drop_append_of_le_length (by omega)]
        show _ = (window e.buffer e.byteOffset e.byteLength).drop (n + 1) ++ _
        rw [drop_window]
        rfl
      · have hin := he.inBounds
        refine List.forall_mem_cons.mpr ⟨⟨?_, ?_⟩, hes⟩
        · show e.byteOffset + (n + 1) + (e.byteLength - (n + 1)) ≤ e.buffer.length
          omega
        · show 0 < e.byteLength - (n + 1)
          omega

/-! ### One descriptor -/

/-- What filling the descriptor `d` from the queue leaves. -/
structure Filled (s : State) (d : PullIntoDescriptor) (ready : Bool) (d' : PullIntoDescriptor)
    (s' : State) : Prop where
  descriptor : d' = { d with buffer := d'.buffer, bytesFilled := d'.bytesFilled }
  state : s' = { s with queue := s'.queue, queueTotalSize := s'.queueTotalSize }
  length : d'.buffer.length = d.buffer.length
  bytes : d'.filled ++ bytesOf s'.queue = d.filled ++ bytesOf s.queue
  entries : ∀ e ∈ s'.queue, e.Ok
  total : s'.queueTotalSize = (bytesOf s'.queue).length
  le : d'.bytesFilled ≤ d.byteLength
  whenReady : ready = true → d.minimumFill ≤ d'.bytesFilled ∧ d.elementSize ∣ d'.bytesFilled
  whenNot : ready = false → d'.bytesFilled < d.minimumFill ∧ s'.queueTotalSize = 0

/-- The number of bytes copied: up to whole elements if that reaches the minimum, and otherwise the
whole queue. -/
theorem copied_bytes (hd : d.Ok) (hf : d.bytesFilled < d.minimumFill) (total n : ℕ)
    (hn : n = if d.minimumFill ≤ maxAlignedBytes total d then
      maxAlignedBytes total d - d.bytesFilled else min total (d.byteLength - d.bytesFilled)) :
    n ≤ total ∧ d.bytesFilled + n ≤ d.byteLength ∧
    (d.minimumFill ≤ maxAlignedBytes total d →
      d.minimumFill ≤ d.bytesFilled + n ∧ d.elementSize ∣ d.bytesFilled + n) ∧
    (¬ d.minimumFill ≤ maxAlignedBytes total d → d.bytesFilled + n < d.minimumFill ∧
      n = total) := by
  have hmin := hd.minimum_le
  set m := d.bytesFilled + min total (d.byteLength - d.bytesFilled) with hm
  have ha : maxAlignedBytes total d = m - m % d.elementSize := rfl
  have hle : m % d.elementSize ≤ m := Nat.mod_le _ _
  rw [ha] at hn ⊢
  split_ifs at hn with h
  · have hsum : d.bytesFilled + n = m - m % d.elementSize := by omega
    refine ⟨by omega, by omega, fun _ => ⟨by omega, ?_⟩, fun h' => absurd h h'⟩
    rw [hsum]
    exact Nat.dvd_sub_mod m
  · -- a full descriptor would be ready, and so would one that has its minimum
    have hlt : m < d.minimumFill := by
      by_contra hge
      obtain ⟨k, hk⟩ := hd.minimum_whole
      have hdiv : k ≤ m / d.elementSize := by
        rw [Nat.le_div_iff_mul_le hd.element_pos, Nat.mul_comm, ← hk]
        omega
      have hmul : d.elementSize * k ≤ d.elementSize * (m / d.elementSize) :=
        Nat.mul_le_mul_left _ hdiv
      have hmod := Nat.div_add_mod m d.elementSize
      omega
    have htotal : min total (d.byteLength - d.bytesFilled) = total := by omega
    exact ⟨by omega, by omega, fun h' => absurd h' h, fun _ => ⟨by omega, by omega⟩⟩

theorem filled_of_fill {s s' : State} {d' : PullIntoDescriptor} {ready : Bool}
    (hd : d.Ok) (hf : d.bytesFilled < d.minimumFill) (hq : ∀ e ∈ s.queue, e.Ok)
    (ht : s.queueTotalSize = (bytesOf s.queue).length)
    (h : fillPullIntoDescriptorFromQueue s d = .ok (ready, d', s')) : Filled s d ready d' s' := by
  unfold fillPullIntoDescriptorFromQueue at h
  dsimp only at h
  obtain ⟨⟨d1, q1, t1⟩, hc, h⟩ := bind_eq_ok.mp h
  cases h
  have hcopied := copied_of_copyFromQueue hq hc
  obtain ⟨hn, hle, hready, hnot⟩ := copied_bytes hd hf s.queueTotalSize _ rfl
  have hfilled : d1.bytesFilled = d.bytesFilled + _ :=
    congrArg PullIntoDescriptor.bytesFilled hcopied.descriptor
  refine ⟨?_, rfl, hcopied.length, ?_, hcopied.entries, ?_, ?_, ?_, ?_⟩
  · rw [hfilled]
    exact hcopied.descriptor
  · rw [hcopied.filled, hcopied.queue, List.append_assoc, List.take_append_drop]
  · rw [hcopied.total, hcopied.queue, List.length_drop, ht]
  · rw [hfilled]
    exact hle
  · intro hr
    rw [hfilled]
    exact hready (of_decide_eq_true hr)
  · intro hr
    obtain ⟨h1, h2⟩ := hnot (of_decide_eq_false hr)
    refine ⟨by rw [hfilled]; exact h1, ?_⟩
    show t1 = 0
    rw [hcopied.total]
    omega

end RasterRuntime.ByteStream
