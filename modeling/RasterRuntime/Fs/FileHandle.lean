import Mathlib.Algebra.Group.Nat.Defs
import Mathlib.Data.List.Basic

/-! # Reads and writes of a file handle

`read` and `write` of `file_handle.rs`, on an open handle and without I/O errors. A positional call
seeks to the position and back. The number of bytes a read gives is up to the system (`Available`).

* `read` copies the whole temporary buffer to what follows `offset`: that panics if a `length`
  leaves room, and writes zeros after a short read.
* `write` takes the bytes from `offset` to `length`, not to `offset + length`. -/

namespace RasterRuntime.Fs

open List (length_drop length_take replicate)

abbrev Bytes := List UInt8

/-- A file that is open, with its cursor. -/
structure File where
  content : Bytes
  cursor : ℕ
  deriving DecidableEq, Repr

def File.seek (position : ℕ) (f : File) : File := { f with cursor := position }

/-- `file.read` into a buffer of zeros, where the system gives `n` bytes. -/
def File.read (length n : ℕ) (f : File) : Bytes × File :=
  ((f.content.drop f.cursor).take n ++ replicate (length - n) 0,
    { f with cursor := f.cursor + n })

/-- Bytes put into a file at a place; a gap before it is filled with zeros. -/
def overwrite (content : Bytes) (start : ℕ) (data : Bytes) : Bytes :=
  if data = [] then content
  else content.take start ++ replicate (start - content.length) 0 ++ data ++
    content.drop (start + data.length)

def File.writeAll (data : Bytes) (f : File) : File :=
  ⟨overwrite f.content f.cursor data, f.cursor + data.length⟩

/-- The file when it is used at a position, if one is given. -/
def File.goto (position : Option ℕ) (f : File) : File := position.elim f (f.seek ·)

/-- The file at its old place again, if it was used at a position. -/
def File.reset (position : Option ℕ) (cursor : ℕ) (f : File) : File :=
  position.elim f fun _ => f.seek cursor

/-- How a call ends. -/
inductive Outcome where
  | panic
  | rangeError (message : String)
  | done (count : ℕ)
  deriving DecidableEq, Repr

/-- A subtraction of `usize`, which panics with overflow checks and wraps without. -/
def usizeSub (checks : Bool) (a b : ℕ) : Option ℕ :=
  if b ≤ a then some (a - b) else if checks then none else some (2 ^ 64 + a - b)

def validateLengthOffset (length offset bufferLength : ℕ) : Option String :=
  if bufferLength < offset then some s!"offset ({offset}) <= {bufferLength}"
  else if bufferLength - offset < length then some s!"length ({length}) <= {bufferLength - offset}"
  else none

/-- The arguments are to be refused. -/
def Refused (length : Option ℕ) (offset bufferLength : ℕ) : Prop :=
  bufferLength < offset ∨ ∃ l ∈ length, bufferLength - offset < l

variable {checks : Bool} {f : File} {n : ℕ}

theorem validate_given {l offset len : ℕ} :
    (validateLengthOffset l offset len).isSome ↔ Refused (some l) offset len := by
  unfold validateLengthOffset Refused
  split_ifs <;> simp_all

theorem accepted {length : Option ℕ} {offset len : ℕ} (h : ¬ Refused length offset len) :
    offset ≤ len ∧ length.getD (len - offset) ≤ len - offset ∧
      validateLengthOffset (length.getD (len - offset)) offset len = none := by
  have hle : offset ≤ len := Nat.le_of_not_lt fun hlt => h (.inl hlt)
  have hw : length.getD (len - offset) ≤ len - offset := by
    cases length with
    | none => exact Nat.le_refl _
    | some l => exact Nat.le_of_not_lt fun hlt => h (.inr ⟨l, rfl, hlt⟩)
  rw [validateLengthOffset, if_neg (by omega), if_neg (by omega)]
  exact ⟨hle, hw, rfl⟩

/-! ### Reading -/

def defaultBufferSize : ℕ := 16384

structure ReadOptions where
  buffer : Option Bytes
  offset : Option ℕ
  length : Option ℕ
  position : Option ℕ

def ReadOptions.default : ReadOptions := ⟨none, none, none, none⟩

/-- The arguments of `read`. -/
structure ReadArgs where
  bufferOrOptions : Option (Bytes ⊕ ReadOptions)
  optionsOrOffset : Option (ReadOptions ⊕ ℕ)
  length : Option ℕ
  position : Option (Option ℕ)

namespace ReadArgs

def options1 (a : ReadArgs) : ReadOptions :=
  match a.bufferOrOptions with
  | some (.inl buffer) => { ReadOptions.default with buffer := some buffer }
  | some (.inr options) => options
  | none => .default

def options2 (a : ReadArgs) : ReadOptions :=
  match a.optionsOrOffset with
  | some (.inl options) => options
  | some (.inr offset) => { ReadOptions.default with offset := some offset }
  | none => .default

def buffer (a : ReadArgs) : Bytes :=
  (a.options1.buffer.or a.options2.buffer).getD (replicate defaultBufferSize 0)

def offset (a : ReadArgs) : ℕ := (a.options1.offset.or a.options2.offset).getD 0

def givenLength (a : ReadArgs) : Option ℕ := (a.options1.length.or a.options2.length).or a.length

def givenPosition (a : ReadArgs) : Option ℕ :=
  (a.options1.position.or a.options2.position).or a.position.join

/-- The length that is asked for. -/
def wanted (a : ReadArgs) : ℕ := a.givenLength.getD (a.buffer.length - a.offset)

end ReadArgs

/-- `FileHandle::read`: how it ends, with the file and the buffer after it. -/
def read (checks : Bool) (n : ℕ) (a : ReadArgs) (f : File) : Outcome × File × Bytes :=
  match a.givenLength.or (usizeSub checks a.buffer.length a.offset) with
  | none => (.panic, f, a.buffer)
  | some length =>
    match validateLengthOffset length a.offset a.buffer.length with
    | some message => (.rangeError message, f, a.buffer)
    | none =>
      let (buf, file) := (f.goto a.givenPosition).read length n
      let file := file.reset a.givenPosition f.cursor
      if (a.buffer.drop a.offset).length = buf.length then
        (.done n, file, a.buffer.take a.offset ++ buf)
      else (.panic, file, a.buffer)

/-- The system gives `n` bytes: not more than asked for or left, and one at least if there is
one. -/
structure Available (length n : ℕ) (f : File) : Prop where
  le : n ≤ length
  left : n ≤ f.content.length - f.cursor
  pos : 0 < length → f.cursor < f.content.length → 0 < n

/-- What is to hold after a read. -/
def ReadConforms (a : ReadArgs) (f : File) : Outcome × File × Bytes → Prop
  | (.panic, _) => False
  | (.rangeError _, f', buffer) =>
    Refused a.givenLength a.offset a.buffer.length ∧ f' = f ∧ buffer = a.buffer
  | (.done m, f', buffer) =>
    ¬ Refused a.givenLength a.offset a.buffer.length ∧ m ≤ a.wanted ∧
      buffer.length = a.buffer.length ∧
      (buffer.drop a.offset).take m =
        (f.content.drop (a.givenPosition.getD f.cursor)).take m ∧
      m ≤ f.content.length - a.givenPosition.getD f.cursor ∧
      (∀ i, i < a.offset ∨ a.offset + m ≤ i → buffer[i]? = a.buffer[i]?) ∧
      f' = { f with cursor := a.givenPosition.elim (f.cursor + m) fun _ => f.cursor }

variable {a : ReadArgs}

theorem goto_eq (position : Option ℕ) : f.goto position = ⟨f.content, position.getD f.cursor⟩ := by
  cases position <;> rfl

theorem read_refused (h : Refused a.givenLength a.offset a.buffer.length) :
    ReadConforms a f (read checks n a f) ↔ ¬ (checks ∧ a.givenLength = none) := by
  unfold read
  cases hl : a.givenLength with
  | some l =>
    rw [hl] at h
    obtain ⟨m, hm⟩ := Option.isSome_iff_exists.mp (validate_given.mpr h)
    simp [hm, ReadConforms, hl, h]
  | none =>
    rw [hl] at h
    have hlt : a.buffer.length < a.offset := by simpa [Refused] using h
    rw [Option.none_or, usizeSub, if_neg (by omega)]
    cases checks <;> simp [ReadConforms, validateLengthOffset, hlt, hl, h]

theorem read_accepted (h : ¬ Refused a.givenLength a.offset a.buffer.length) :
    a.offset ≤ a.buffer.length ∧ a.wanted ≤ a.buffer.length - a.offset ∧
    read checks n a f =
      let buf := ((f.content.drop (a.givenPosition.getD f.cursor)).take n ++
        replicate (a.wanted - n) 0)
      let file : File :=
        { f with cursor := a.givenPosition.elim (f.cursor + n) fun _ => f.cursor }
      if a.buffer.length - a.offset = buf.length then
        (.done n, file, a.buffer.take a.offset ++ buf)
      else (.panic, file, a.buffer) := by
  obtain ⟨hle, hw, hv⟩ := accepted h
  have hlen : a.givenLength.or (usizeSub checks a.buffer.length a.offset) = some a.wanted := by
    rw [usizeSub, if_pos hle, ReadArgs.wanted]
    cases a.givenLength <;> rfl
  rw [← ReadArgs.wanted] at hw hv
  refine ⟨hle, hw, ?_⟩
  simp only [read, hlen, hv, goto_eq, File.read, length_drop]
  cases a.givenPosition <;> rfl

structure WriteOptions where
  offset : Option ℕ
  length : Option ℕ
  position : Option ℕ

def WriteOptions.default : WriteOptions := ⟨none, none, none⟩

/-- The arguments of `write`; a string comes as the bytes its encoding gives. -/
structure WriteArgs where
  isBuffer : Bool
  bytes : Bytes
  offsetOrOptions : Option (Option ℕ ⊕ WriteOptions)
  lengthOrEncoding : Option (ℕ ⊕ String)
  position : Option (Option ℕ)

namespace WriteArgs

def options (a : WriteArgs) : WriteOptions :=
  let options := match a.offsetOrOptions with
    | some (.inl (some offset)) =>
      if a.isBuffer then { WriteOptions.default with offset := some offset } else .default
    | some (.inr options) => options
    | _ => .default
  match a.lengthOrEncoding with
  | some (.inl length) => { options with length := some length }
  | _ => options

def offset (a : WriteArgs) : ℕ := a.options.offset.getD 0

def givenPosition (a : WriteArgs) : Option ℕ := a.options.position.or a.position.join

/-- The length that is asked for. -/
def wanted (a : WriteArgs) : ℕ := a.options.length.getD (a.bytes.length - a.offset)

end WriteArgs

/-- `FileHandle::write`: how it ends, with the file after it. The difference of the lengths is taken
even if a length is given. -/
def write (checks : Bool) (a : WriteArgs) (f : File) : Outcome × File :=
  match usizeSub checks a.bytes.length a.offset with
  | none => (.panic, f)
  | some rest =>
    let length := a.options.length.getD rest
    match validateLengthOffset length a.offset a.bytes.length with
    | some message => (.rangeError message, f)
    | none =>
      let file := f.goto a.givenPosition
      if a.offset ≤ length ∧ length ≤ a.bytes.length then
        let file := file.writeAll ((a.bytes.take length).drop a.offset)
        (.done length, file.reset a.givenPosition f.cursor)
      else (.panic, file)

/-- What is to hold after a write. -/
def WriteConforms (a : WriteArgs) (f : File) : Outcome × File → Prop
  | (.panic, _) => False
  | (.rangeError _, f') => Refused a.options.length a.offset a.bytes.length ∧ f' = f
  | (.done m, f') =>
    ¬ Refused a.options.length a.offset a.bytes.length ∧ m = a.wanted ∧
      f' = ⟨overwrite f.content (a.givenPosition.getD f.cursor)
          ((a.bytes.drop a.offset).take a.wanted),
        a.givenPosition.elim (f.cursor + a.wanted) fun _ => f.cursor⟩

section

variable {a : WriteArgs}

theorem write_refused (h : Refused a.options.length a.offset a.bytes.length) :
    WriteConforms a f (write checks a f) ↔ ¬ (checks ∧ a.bytes.length < a.offset) := by
  unfold write usizeSub
  by_cases hlt : a.bytes.length < a.offset
  · rw [if_neg (by omega)]
    cases checks <;> simp [WriteConforms, validateLengthOffset, hlt, h]
  · obtain ⟨l, hl, hgt⟩ := h.resolve_left hlt
    rw [if_pos (by omega)]
    have hl := Option.mem_def.mp hl
    simp [WriteConforms, validateLengthOffset, hlt, hl, hgt, hl ▸ h]

theorem write_accepted (h : ¬ Refused a.options.length a.offset a.bytes.length) :
    a.offset ≤ a.bytes.length ∧ a.wanted ≤ a.bytes.length - a.offset ∧
    write checks a f =
      if a.offset ≤ a.wanted then
        (.done a.wanted, ⟨overwrite f.content (a.givenPosition.getD f.cursor)
            ((a.bytes.drop a.offset).take (a.wanted - a.offset)),
          a.givenPosition.elim (f.cursor + (a.wanted - a.offset)) fun _ => f.cursor⟩)
      else (.panic, f.goto a.givenPosition) := by
  obtain ⟨hle, hw, hv⟩ := accepted h
  refine ⟨hle, hw, ?_⟩
  rw [← WriteArgs.wanted] at hw hv
  have hlen : ((a.bytes.drop a.offset).take (a.wanted - a.offset)).length =
      a.wanted - a.offset := by
    rw [length_take, length_drop]; omega
  unfold write usizeSub
  dsimp only
  rw [if_pos hle]
  dsimp only
  rw [← WriteArgs.wanted, hv]
  simp only [List.drop_take, goto_eq, File.writeAll, hlen, and_iff_left (by omega :
    a.wanted ≤ a.bytes.length)]
  split_ifs
  · cases a.givenPosition <;> rfl
  · rfl

end

end RasterRuntime.Fs
