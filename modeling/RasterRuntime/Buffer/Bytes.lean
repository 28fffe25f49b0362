import RasterRuntime.Buffer.Write

/-! # Making a `Buffer` and reading from it

`alloc` repeats a fill, `toString` encodes a range of bytes, `subarray` is a view of a range and
`concat` puts buffers together. A result `none` is a panic. The buffers that are read are not
detached.

* `bytes_iff`: which calls give what is asked for. A fill without bytes and a range that ends before
  it begins panic, and `concat` does not fill up to the length asked for. -/

namespace RasterRuntime.Buffer.Bytes

open Text Encoding

/-- `&bytes[start..stop]`. -/
def slice (bytes : List UInt8) (start stop : ℕ) : Option (List UInt8) :=
  if start ≤ stop ∧ stop ≤ bytes.length then some ((bytes.take stop).drop start) else none

/-- The fill, as `as_string`, `as_int` and `from_array_buffer` see it; `other` is also a missing
one. -/
inductive Fill where
  | text (string : List Char)
  | int (value : Int32)
  | bytes (bytes : Except String (List UInt8))
  | other

/-- `value as u8`. -/
def asU8 (value : Int32) : UInt8 := UInt8.ofNat (value.toInt % 256).toNat

/-- The encoded fill; there is none of another value. -/
def encoded [Codecs] : Fill → Option String → Except String (List UInt8)
  | .text string, some encoding => do decodeFromString (← fromStr encoding) string
  | .text string, none => .ok (Utf8.encode string)
  | .int value, _ => .ok [asU8 value]
  | .bytes bytes, _ => bytes
  | .other, _ => .ok []

/-- `alloc_byte_ref`; without bytes there is no remainder. -/
def allocByteRef (byteRef : List UInt8) (length : ℕ) : Option (List UInt8) :=
  (List.range length).mapM fun i => byteRef[i % byteRef.length]?

def alloc [Codecs] (length : ℕ) (fill : Fill) (encoding : Option String) :
    Option (Except String (List UInt8)) :=
  match fill with
  | .int value => some (.ok (List.replicate length (asU8 value)))
  | .other => some (.ok (List.replicate length 0))
  | fill =>
    match encoded fill encoding with
    | .ok bytes => (allocByteRef bytes length).map .ok
    | .error e => some (.error e)

/-- An index into the bytes that are encoded. -/
def clamp (bytes : List UInt8) (index : Option Int32) (default : ℕ) : ℕ :=
  min ((index.map fun i => (max i.toInt 0).toNat).getD default) bytes.length

def encode [Codecs] (encoding : Option String) (bytes : List UInt8) :
    Except String (List Char) := do
  encodeToString (← fromOptionalStr encoding) bytes true

def toString [Codecs] (bytes : List UInt8) (encoding : Option String) (start stop : Option Int32) :
    Option (Except String (List Char)) :=
  (slice bytes (clamp bytes start 0) (clamp bytes stop bytes.length)).map (encode encoding)

/-- An index into the view of `subarray`; a negative one counts from the end. -/
def index (viewLength : ℕ) (i : Option ℤ) (default : ℤ) : ℤ :=
  (i.map fun i : ℤ => if i < 0 then max (viewLength + i) 0 else min i viewLength).getD default

/-- The offset and the length of the view that `subarray` makes. -/
def subarray (r : Region) (start stop : Option ℤ) : ℕ × ℕ :=
  let startIndex := index r.byteLength start 0
  let endIndex := index r.byteLength stop r.byteLength
  ((max (r.byteOffset + startIndex) 0).toNat, (max (endIndex - startIndex) 0).toNat)

/-- The loop of `concat`. -/
def concatLoop (checks : Bool) (maxLength : Option ℕ) (bytes : List UInt8) (totalLength : ℕ) :
    List (List UInt8) → Option (List UInt8)
  | [] => some bytes
  | bytesRef :: list =>
    if bytesRef.length = 0 then concatLoop checks maxLength bytes totalLength list
    else
      match maxLength with
      | some max =>
        if totalLength + bytesRef.length > max then do
          let diff ← subUsize checks max (totalLength + bytesRef.length - bytesRef.length)
          return bytes ++ (← slice bytesRef 0 diff)
        else concatLoop checks maxLength (bytes ++ bytesRef) (totalLength + bytesRef.length) list
      | none => concatLoop checks maxLength (bytes ++ bytesRef) totalLength list

def concat (checks : Bool) (list : List (List UInt8)) (maxLength : Option ℕ) :
    Option (List UInt8) :=
  concatLoop checks maxLength [] 0 list

/-! ### What is asked for -/

/-- The fill over and over, or zeros. -/
def repeated (length : ℕ) (fill : List UInt8) : List UInt8 :=
  (List.range length).map fun i => fill.getD (i % fill.length) 0

/-- The bytes of a view. -/
def view (memory : List UInt8) (offset length : ℕ) : List UInt8 := (memory.drop offset).take length

def cut (bytes : List UInt8) (start stop : ℕ) : List UInt8 := (bytes.take stop).drop start

/-- The view of this offset and length has the bytes of the region from `start` to `stop`. -/
def IsView (r : Region) (start stop : ℕ) : ℕ × ℕ → Prop
  | (offset, length) => offset + length ≤ r.byteOffset + r.byteLength ∧
    ∀ memory, view memory offset length = cut (view memory r.byteOffset r.byteLength) start stop

def padded (bytes : List UInt8) : Option ℕ → List UInt8
  | some total => bytes.take total ++ List.replicate (total - bytes.length) 0
  | none => bytes

/-! ### What is given -/

theorem allocByteRef_eq {byteRef : List UInt8} (length : ℕ) (h : byteRef ≠ []) :
    allocByteRef byteRef length = some (repeated length byteRef) := by
  have hget : ∀ i, byteRef[i % byteRef.length]? = some (byteRef.getD (i % byteRef.length) 0) := by
    intro i
    have hlt := Nat.mod_lt i (List.length_pos_iff.mpr h)
    simp [hlt]
  rw [allocByteRef, funext hget]
  exact List.mapM_pure

theorem repeated_singleton (length : ℕ) (b : UInt8) :
    repeated length [b] = List.replicate length b := by
  simp [repeated, Nat.mod_one]

theorem repeated_nil (length : ℕ) : repeated length [] = List.replicate length 0 := by
  simp [repeated]

theorem alloc_iff [Codecs] (length : ℕ) (fill : Fill) (encoding : Option String) :
    alloc length fill encoding = some ((encoded fill encoding).map (repeated length)) ↔
      (fill ≠ .other → encoded fill encoding = .ok [] → length = 0) := by
  unfold alloc
  split
  · simp [encoded, Except.map, repeated_singleton]
  · simp [encoded, Except.map, repeated_nil]
  · next hother =>
    rw [forall_prop_of_true hother]
    rcases encoded fill encoding with e | _ | ⟨byte, bytes⟩
    · simp [Except.map]
    · cases length with
      | zero => exact iff_of_true rfl fun _ => rfl
      | succ n => simp [allocByteRef, List.range_succ_eq_map]
    · simp [allocByteRef_eq, Except.map]

theorem concatLoop_none {checks : Bool} {bytes : List UInt8} {list : List (List UInt8)} :
    concatLoop checks none bytes 0 list = some (bytes ++ list.flatten) := by
  induction list generalizing bytes with
  | nil => simp [concatLoop]
  | cons bytesRef list ih =>
    rw [concatLoop]
    split_ifs with h
    · rw [ih, List.eq_nil_of_length_eq_zero h]
      rfl
    · rw [ih, List.flatten_cons, List.append_assoc]

theorem concatLoop_some {checks : Bool} {bytes : List UInt8} {max : ℕ} {list : List (List UInt8)}
    (h : bytes.length ≤ max) :
    concatLoop checks (some max) bytes bytes.length list =
      some ((bytes ++ list.flatten).take max) := by
  induction list generalizing bytes with
  | nil => simp [concatLoop, List.take_of_length_le h]
  | cons bytesRef list ih =>
    rw [concatLoop]
    split_ifs with h0 hmax
    · rw [ih h, List.eq_nil_of_length_eq_zero h0]
      rfl
    · have hdiff : max - bytes.length ≤ bytesRef.length := by omega
      rw [Nat.add_sub_cancel, subUsize, if_pos h]
      simp [slice, List.take_append, List.take_of_length_le h, hdiff]
    · rw [← List.length_append] at hmax ⊢
      rw [ih (Nat.le_of_not_lt hmax), List.flatten_cons, List.append_assoc]

theorem concat_iff (checks : Bool) (list : List (List UInt8)) (total : Option ℕ) :
    concat checks list total = some (padded list.flatten total) ↔
      ∀ n ∈ total, n ≤ list.flatten.length := by
  unfold concat
  cases total with
  | none => simp [concatLoop_none, padded]
  | some n =>
    rw [show concatLoop checks (some n) [] 0 list = _ from concatLoop_some (Nat.zero_le n)]
    simp [padded]
    omega

theorem index_mem {length default : ℕ} (i : Option ℤ) (h : default ≤ length) :
    ∃ n ≤ length, index length i default = (n : ℕ) := by
  unfold index
  cases i with
  | none => exact ⟨default, h, rfl⟩
  | some i =>
    refine ⟨_, ?_, (Int.toNat_of_nonneg ?_).symm⟩
    all_goals
      dsimp only [Option.map_some, Option.getD_some]
      split_ifs <;> omega

theorem subarray_isView (r : Region) (start stop : Option ℤ) :
    IsView r (index r.byteLength start 0).toNat (index r.byteLength stop r.byteLength).toNat
      (subarray r start stop) := by
  obtain ⟨a, hale, ha⟩ := index_mem start r.byteLength.zero_le
  obtain ⟨b, hble, hb⟩ := index_mem stop (Nat.le_refl r.byteLength)
  have hoffset : (max (r.byteOffset + a : ℤ) 0).toNat = r.byteOffset + a := by omega
  have hlength : (max (b - a : ℤ) 0).toNat = b - a := by omega
  rw [subarray, hb, show index r.byteLength start 0 = a from ha]
  dsimp only [Int.toNat_natCast]
  rw [hoffset, hlength]
  refine ⟨by omega, fun memory => ?_⟩
  simp only [cut, view, List.take_take, Nat.min_eq_left hble, List.drop_take, List.drop_drop]

end RasterRuntime.Buffer.Bytes
