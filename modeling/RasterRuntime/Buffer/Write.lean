import RasterRuntime.Encoding.Encoder
import RasterRuntime.Fallible
import Mathlib.Algebra.Group.Int.Defs

/-! # `Buffer.prototype.write`

A `Buffer` is a view of an `ArrayBuffer`: `byteLength` bytes from `byteOffset` on. `write` reads an
offset, a length and an encoding from its arguments (`getWriteParameters`), cuts the encoded text
to the length (`sourceSlice`) and copies it into the bytes of the `ArrayBuffer` (`copyFromSlice`).

The source indexes those bytes with the offset into the view, takes the whole length of the view as
the bound where no length is given, reads numbers only if the engine holds them as integers, and
encodes Latin-1 as UTF-8. What the method is for is `Conforms`: only bytes of the view change, from
the offset on, and they become the longest run of whole encoded characters that fits.
`write_conforms_iff` says for which arguments that holds whatever the memory holds.

`usize` has 64 bits; whether a subtraction that goes below zero panics or wraps depends on the build
(`checks`). -/

namespace RasterRuntime.Buffer

open Text Encoding

/-! ### The machine's arithmetic -/

/-- `i as usize`. -/
def asUsize (i : Int32) : ℕ := (i.toInt % 2 ^ 64).toNat

/-- `a - b`; `none` is a panic. -/
def subUsize (checks : Bool) (a b : ℕ) : Option ℕ :=
  if b ≤ a then some (a - b) else if checks then none else some (a + 2 ^ 64 - b)

/-- `a + b`; `none` is a panic. -/
def addUsize (checks : Bool) (a b : ℕ) : Option ℕ :=
  if a + b < 2 ^ 64 then some (a + b) else if checks then none else some (a + b - 2 ^ 64)

/-! ### The source -/

/-- An argument after the text. The engine holds some numbers as 32-bit integers and the others as
floating point numbers, `2 ** 32` and `2 * 0.5` among them; `whole` is the value of such a number if
it is a whole one. -/
inductive Arg where
  | text (s : String)
  | int (i : Int32)
  | float (whole : Option ℤ)
  | other
  deriving DecidableEq, Repr

/-- `as_int`. -/
def Arg.asInt : Arg → Option Int32
  | .int i => some i
  | _ => none

/-- Where a `Buffer` lies in its `ArrayBuffer` of `size` bytes. `extra` counts the enumerable
properties it has besides its elements. -/
structure Region where
  size : ℕ
  byteOffset : ℕ
  byteLength : ℕ
  extra : ℕ
  inside : byteOffset + byteLength ≤ size
  addressable : size + extra < 2 ^ 63

/-- `this.0.len()`: the number of enumerable properties. -/
def Region.len (r : Region) : ℕ := r.byteLength + r.extra

/-- The encoding from the arguments after the length on. -/
def encodingArg : List Arg → String
  | .text s :: _ => s
  | _ => "utf8"

/-- `get_write_parameters`: the offset, the length and the encoding; `none` is a panic. -/
def getWriteParameters (checks : Bool) (args : List Arg) (len : ℕ) : Option (ℕ × ℕ × String) :=
  match args with
  | [] => some (0, len, "utf8")
  | .text s :: _ => some (0, len, s)
  | v1 :: args =>
    let offset := (v1.asInt.map asUsize).getD 0
    match args with
    | [] => some (offset, len, "utf8")
    | .text s :: _ => (subUsize checks len offset).map fun rest => (offset, rest, s)
    | v2 :: args =>
      (subUsize checks len offset).map fun rest =>
        let length := (v2.asInt.map fun l => min (asUsize l) rest).getD rest
        (offset, length, encodingArg args)

/-- The positions of `char_indices`, counted from `i`. -/
def charIndices (i : ℕ) : List Char → List ℕ
  | [] => []
  | c :: cs => i :: charIndices (i + (String.utf8EncodeChar c).length) cs

/-- `safe_byte_slice`. -/
def safeByteSlice (s : List Char) (stop : ℕ) : List UInt8 × ℕ :=
  let bytes := Utf8.encode s
  if bytes.length ≤ stop then (bytes, bytes.length)
  else
    let validEnd := ((charIndices 0 s).reverse.find? (· ≤ stop)).getD 0
    (bytes.take validEnd, validEnd)

/-- The bytes that `write` copies, with `writable_length`. -/
def sourceSlice [Codecs] (encoder : Encoder) (string : List Char) (length : ℕ) :
    Except String (List UInt8 × ℕ) :=
  if encoder.asLabel = "utf-8" then
    .ok (safeByteSlice string (min length (Utf8.encode string).length))
  else
    (decodeFromString encoder string).map fun decodeBytes =>
      let writableLength := min length decodeBytes.length
      (decodeBytes.take writableLength, writableLength)

/-- `target_bytes[offset..offset + writable_length].copy_from_slice(source)`; `none` is a panic. -/
def copyFromSlice (checks : Bool) (target : List UInt8) (offset writableLength : ℕ)
    (source : List UInt8) : Option (List UInt8) :=
  (addUsize checks offset writableLength).bind fun stop =>
    if offset ≤ stop ∧ stop ≤ target.length ∧ stop - offset = source.length then
      some (target.take offset ++ source ++ target.drop stop)
    else none

/-- How a call ends. -/
inductive Outcome where
  | panics
  | throws (message : String)
  | returns (count : ℕ) (memory : List UInt8)
  deriving DecidableEq, Repr

/-- `write`, on the bytes of the `ArrayBuffer`. -/
def write (checks : Bool) [Codecs] (r : Region) (memory : List UInt8)
    (string : List Char) (args : List Arg) : Outcome :=
  match getWriteParameters checks args r.len with
  | none => .panics
  | some (offset, length, encoding) =>
    match fromStr encoding with
    | .error message => .throws message
    | .ok encoder =>
      match sourceSlice encoder string length with
      | .error message => .throws message
      | .ok (source, writableLength) =>
        match copyFromSlice checks memory offset writableLength source with
        | none => .panics
        | some memory' => .returns writableLength memory'

/-! ### What `write` is for -/

/-- The offset a call asks for; a number that is not whole is no offset. -/
def offsetOf : List Arg → Option ℤ
  | .int i :: _ => some i.toInt
  | .float whole :: _ => whole
  | _ => some 0

/-- The room a call has from an offset on: the rest of the view, and the length it asks for; a
number that is not whole is no length. -/
def roomFrom (r : Region) (args : List Arg) (k : ℤ) : Option ℤ :=
  match args with
  | .text _ :: _ => some (r.byteLength - k)
  | _ :: .int l :: _ => some (min l.toInt (r.byteLength - k))
  | _ :: .float whole :: _ => whole.map (min · (r.byteLength - k))
  | _ => some (r.byteLength - k)

/-- The encoding a call asks for. -/
def encodingOf : List Arg → String
  | .text s :: _ => s
  | _ :: .text s :: _ => s
  | _ :: _ :: .text s :: _ => s
  | _ => "utf8"

/-- A character in Latin-1: a byte for each of its code units. -/
def latin1EncodeChar (c : Char) : List UInt8 :=
  (Utf16.encodeChar c).map fun u => UInt8.ofNat (u.toNat % 256)

/-- The encoded characters of a text; in `hex` and `base64` a digit is less than a byte, and a text
counts as the bytes it stands for. -/
def characters [Codecs] : Encoder → List Char → Except String (List (List UInt8))
  | .utf8, string => .ok (string.map String.utf8EncodeChar)
  | .windows1252, string => .ok (string.map latin1EncodeChar)
  | .utf16le, string => .ok (string.map fun c => (Utf16.encodeChar c).flatMap (u16ToBytes .little))
  | .utf16be, string => .ok (string.map fun c => (Utf16.encodeChar c).flatMap (u16ToBytes .big))
  | encoder, string => (decodeFromString encoder string).map (·.map ([·]))

/-- The encoded characters of a text under the label of an encoding. -/
def charactersIn [Codecs] (encoding : String) (string : List Char) :
    Except String (List (List UInt8)) :=
  fromStr encoding >>= fun encoder => characters encoder string

/-- A run of whole characters from the start of the text. -/
def Whole (pieces : List (List UInt8)) (source : List UInt8) : Prop :=
  ∃ j, source = (pieces.take j).flatten

/-- The longest run of whole characters among those of at most `room` bytes. -/
structure LongestFit (room : ℤ) (pieces : List (List UInt8)) (source : List UInt8) : Prop where
  whole : Whole pieces source
  fits : (source.length : ℤ) ≤ room
  longest : ∀ other, Whole pieces other → (other.length : ℤ) ≤ room →
    other.length ≤ source.length

/-- **What a call of `write` has to do**: it may throw and change nothing, or it returns the number
of bytes it has put at the offset into the view, the longest run of whole characters that fits, and
leaves every other byte of the memory alone. -/
def Conforms [Codecs] (r : Region) (memory : List UInt8) (string : List Char)
    (args : List Arg) : Outcome → Prop
  | .panics => False
  | .throws _ => True
  | .returns count memory' =>
    ∃ (k : ℕ) (room : ℤ) (pieces : List (List UInt8)) (source : List UInt8),
      offsetOf args = some ↑k ∧ roomFrom r args k = some room ∧
      charactersIn (encodingOf args) string = .ok pieces ∧
      source.length = count ∧ LongestFit room pieces source ∧
      memory' = memory.take (r.byteOffset + k) ++ source ++ memory.drop (r.byteOffset + k + count)

/-! ### The calls that conform -/

/-- The offset that counts: a first argument that the engine holds as an integer. -/
def readOffset : List Arg → ℤ
  | .int i :: _ => i.toInt
  | _ => 0

/-- The bytes that a text is cut to. An offset alone does not lower them. -/
def limitOf (r : Region) (args : List Arg) : ℤ :=
  match args with
  | [] | .text _ :: _ | [_] => r.len
  | _ :: .int l :: _ => min l.toInt (r.len - readOffset args)
  | _ => r.len - readOffset args

/-- An offset comes with a length or an encoding, and is not within the view. -/
def Overflows (r : Region) (args : List Arg) : Prop :=
  match args with
  | [] | .text _ :: _ | [_] => False
  | _ => ¬ (0 ≤ readOffset args ∧ readOffset args ≤ r.len)

/-- No run of whole characters is within the limit and longer than the room. -/
def NoneBetween (limit room : ℤ) (pieces : List (List UInt8)) : Prop :=
  ∀ run, Whole pieces run → (run.length : ℤ) ≤ limit → (run.length : ℤ) ≤ room

/-- What is left of a text that is cut to the limit is a run of whole characters that fits the room:
in Latin-1 if the first bytes of the text in UTF-8 are such a run, in UTF-16 if the limit is between
two characters or the text is within it. -/
def Keeps (encoder : Encoder) (limit room : ℤ) (string : List Char) (pieces : List (List UInt8)) :
    Prop :=
  match encoder with
  | .windows1252 => Whole pieces ((Utf8.encode string).take limit.toNat) ∧
      min limit (Utf8.encode string).length ≤ room
  | .utf16le | .utf16be => NoneBetween limit room pieces ∧
      ((pieces.flatten.length : ℤ) ≤ limit ∨ ∃ run, Whole pieces run ∧ (run.length : ℤ) = limit)
  | _ => NoneBetween limit room pieces

/-- Not even the first character fits. -/
def NothingFits (room : ℤ) (pieces : List (List UInt8)) : Prop :=
  ∀ run, Whole pieces run → (run.length : ℤ) ≤ room → run = []

/-- The calls that `write` carries out as it should. -/
def Fits (checks : Bool) [Codecs] (r : Region) (string : List Char) (args : List Arg) :
    Prop :=
  match fromStr (encodingOf args) with
  | .error _ => checks = true → ¬ Overflows r args
  | .ok encoder =>
    match characters encoder string with
    | .error _ => checks = true → ¬ Overflows r args
    | .ok pieces =>
      ∃ (k : ℕ) (room : ℤ), offsetOf args = some ↑k ∧ roomFrom r args k = some room ∧ 0 ≤ room ∧
        Keeps encoder (limitOf r args) room string pieces ∧
        (NothingFits room pieces ∨ r.byteOffset = 0 ∧ readOffset args = k)

/-! ### The cut -/

theorem utf8_encode_take (s : List Char) (j : ℕ) :
    Utf8.encode (s.take j) = ((s.map String.utf8EncodeChar).take j).flatten := by
  unfold Utf8.encode
  rw [← List.map_take, List.flatMap_def]

theorem utf8_encode_eq_flatten (s : List Char) :
    Utf8.encode s = (s.map String.utf8EncodeChar).flatten := List.flatMap_def ..

theorem mem_charIndices {x i : ℕ} {s : List Char} : x ∈ charIndices i s ↔
    ∃ j < s.length, x = i + (Utf8.encode (s.take j)).length := by
  fun_induction charIndices i s with
  | case1 => simp
  | case2 i c cs ih =>
    rw [List.mem_cons, ih, List.length_cons, Nat.exists_lt_succ_left]
    simp [Utf8.encode, Nat.add_assoc]

theorem pairwise_charIndices (i : ℕ) (s : List Char) : (charIndices i s).Pairwise (· ≤ ·) := by
  fun_induction charIndices i s with
  | case1 => exact .nil
  | case2 i c cs ih =>
    refine .cons (fun x hx => ?_) ih
    obtain ⟨j, -, rfl⟩ := mem_charIndices.1 hx
    omega

/-- `rfind` in an ascending list finds the largest element that passes. -/
theorem le_of_find?_reverse {l : List ℕ} (hl : l.Pairwise (· ≤ ·)) {p : ℕ → Bool} {a b : ℕ}
    (ha : l.reverse.find? p = some a) (hb : b ∈ l) (hp : p b) : b ≤ a := by
  rw [← List.head?_filter] at ha
  obtain ⟨rest, hrest⟩ := List.head?_eq_some_iff.1 ha
  have hsorted := (List.pairwise_reverse.2 hl).filter p
  have hmem : b ∈ l.reverse.filter p := List.mem_filter.2 ⟨List.mem_reverse.2 hb, hp⟩
  rw [hrest] at hsorted hmem
  rcases List.mem_cons.1 hmem with rfl | h
  · exact Nat.le_refl _
  · exact (List.pairwise_cons.1 hsorted).1 b h

variable {pieces : List (List UInt8)} {source : List UInt8} {encoder : Encoder}
    {string : List Char} {length offset : ℕ} {checks : Bool}

theorem Whole.length_le (h : Whole pieces source) : source.length ≤ pieces.flatten.length := by
  obtain ⟨j, rfl⟩ := h
  rw [← List.take_append_drop j pieces, List.flatten_append, List.length_append,
    List.take_append_drop]
  exact Nat.le_add_right _ _

/-- The second component is the length of the first. -/
theorem safeByteSlice_length (s : List Char) (stop : ℕ) :
    (safeByteSlice s stop).2 = (safeByteSlice s stop).1.length := by
  unfold safeByteSlice
  dsimp only
  split_ifs with h
  · rfl
  · cases hfind : (charIndices 0 s).reverse.find? (· ≤ stop) with
    | none => simp
    | some a =>
      have ha : a ≤ stop := by simpa using List.find?_some hfind
      simp only [Option.getD_some, List.length_take]
      omega

/-- **`safe_byte_slice`** cuts at the last boundary between characters that is not past the end. -/
theorem safeByteSlice_longestFit (s : List Char) (stop : ℕ) :
    LongestFit stop (s.map String.utf8EncodeChar) (safeByteSlice s stop).1 := by
  unfold safeByteSlice
  dsimp only
  split_ifs with h
  · refine ⟨⟨s.length, ?_⟩, by exact_mod_cast h, fun other hother _ => ?_⟩
    · rw [← utf8_encode_take, List.take_length]
    · rw [utf8_encode_eq_flatten]
      exact hother.length_le
  · have hzero : s ≠ [] := by
      rintro rfl
      exact h (Nat.zero_le _)
    -- Position 0 passes, so the search finds something.
    have hsome : ∃ a, (charIndices 0 s).reverse.find? (· ≤ stop) = some a := by
      refine Option.isSome_iff_exists.1 (List.find?_isSome.2 ⟨0, ?_, by simp⟩)
      exact List.mem_reverse.2 (mem_charIndices.2 ⟨0, List.length_pos_iff.2 hzero, rfl⟩)
    obtain ⟨a, ha⟩ := hsome
    have hstop : a ≤ stop := by simpa using List.find?_some ha
    obtain ⟨j, -, hj⟩ := mem_charIndices.1 (List.mem_reverse.1 (List.mem_of_find?_eq_some ha))
    have hsplit : Utf8.encode s = Utf8.encode (s.take j) ++ Utf8.encode (s.drop j) := by
      unfold Utf8.encode
      rw [← List.flatMap_append, List.take_append_drop]
    have hcut : (Utf8.encode s).take a = Utf8.encode (s.take j) := by
      rw [hsplit, hj, Nat.zero_add, List.take_left']
      rfl
    rw [ha, Option.getD_some, hcut]
    dsimp only
    refine ⟨⟨j, utf8_encode_take s j⟩, by omega, ?_⟩
    rintro other ⟨i, rfl⟩ hother
    rw [← utf8_encode_take] at hother ⊢
    have hi : i < s.length := by
      by_contra hi
      rw [List.take_of_length_le (by omega)] at hother
      omega
    have := le_of_find?_reverse (pairwise_charIndices 0 s) ha
      (mem_charIndices.2 ⟨i, hi, rfl⟩) (by simpa using by omega)
    omega

theorem flatten_singletons (bytes : List UInt8) : (bytes.map ([·])).flatten = bytes := by
  rw [← List.flatMap_def, List.flatMap_singleton']

theorem flatten_utf16 (endian : Endian) (s : List Char) :
    (s.map fun c => (Utf16.encodeChar c).flatMap (u16ToBytes endian)).flatten =
      (Utf16.encode s).flatMap (u16ToBytes endian) := by
  unfold Utf16.encode
  rw [List.flatMap_assoc, List.flatMap_def]

/-- The encoded characters, one after the other, are the encoded text, except in Latin-1. -/
theorem characters_flatten [Codecs] (hlatin : encoder ≠ .windows1252)
    (h : characters encoder string = .ok pieces) :
    decodeFromString encoder string = .ok pieces.flatten := by
  cases encoder with
  | hex | base64 =>
    obtain ⟨bytes, hbytes, rfl⟩ := map_eq_ok.mp h
    rw [hbytes, flatten_singletons]
  | utf8 =>
    cases h
    exact congrArg Except.ok (utf8_encode_eq_flatten string)
  | windows1252 => exact absurd rfl hlatin
  | utf16le =>
    cases h
    exact congrArg Except.ok (flatten_utf16 .little string).symm
  | utf16be =>
    cases h
    exact congrArg Except.ok (flatten_utf16 .big string).symm

theorem sourceSlice_of_ne [Codecs] (h : encoder ≠ .utf8) :
    sourceSlice encoder string length =
      (decodeFromString encoder string).map fun bytes =>
        (bytes.take (min length bytes.length), min length bytes.length) := by
  have hlabel : encoder.asLabel ≠ "utf-8" := by
    cases encoder <;> first | exact absurd rfl h | decide
  rw [sourceSlice, if_neg hlabel]

theorem characters_of_sourceSlice [Codecs] (encoder : Encoder) (string : List Char)
    (length : ℕ) :
    (∃ message message', sourceSlice encoder string length = .error message ∧
      characters encoder string = .error message') ∨
    ∃ cut pieces, sourceSlice encoder string length = .ok cut ∧
      characters encoder string = .ok pieces := by
  have hmap {encoder : Encoder} (hne : encoder ≠ .utf8) (hchars : characters encoder string =
      (decodeFromString encoder string).map (·.map ([·]))) :
      (∃ message message', sourceSlice encoder string length = .error message ∧
        characters encoder string = .error message') ∨
      ∃ cut pieces, sourceSlice encoder string length = .ok cut ∧
        characters encoder string = .ok pieces := by
    rw [sourceSlice_of_ne hne, hchars]
    cases decodeFromString encoder string with
    | error message => exact .inl ⟨_, _, rfl, rfl⟩
    | ok bytes => exact .inr ⟨_, _, rfl, rfl⟩
  cases encoder with
  | hex | base64 => exact hmap (by decide) rfl
  | utf8 | windows1252 | utf16le | utf16be => exact .inr ⟨_, _, rfl, rfl⟩

theorem Whole.eq_take (h : Whole pieces source) : source = pieces.flatten.take source.length := by
  obtain ⟨j, rfl⟩ := h
  have hsplit : pieces.flatten = (pieces.take j).flatten ++ (pieces.drop j).flatten := by
    rw [← List.flatten_append, List.take_append_drop]
  rw [hsplit, List.take_left]

theorem latin1_length_le (string : List Char) :
    (string.map latin1EncodeChar).flatten.length ≤ (Utf8.encode string).length := by
  induction string with
  | nil => exact Nat.le_refl 0
  | cons c string ih =>
    have hc : (latin1EncodeChar c).length ≤ (String.utf8EncodeChar c).length := by
      unfold latin1EncodeChar Utf16.encodeChar
      rw [List.length_map, String.length_utf8EncodeChar]
      split_ifs with hsmall
      · exact c.utf8Size_pos
      · have hlarge : 0x10000 ≤ c.val.toNat := Nat.not_lt.mp hsmall
        unfold Char.utf8Size
        simp only [UInt32.le_iff_toNat_le]
        split_ifs with h1 h2 h3
        · exact absurd (Nat.le_trans hlarge h1) (by decide)
        · exact Nat.le_refl 2
        · exact absurd (Nat.le_trans hlarge h3) (by decide)
        · exact Nat.le_add_left 2 2
    unfold Utf8.encode at ih ⊢
    rw [List.map_cons, List.flatten_cons, List.length_append, List.flatMap_cons, List.length_append]
    omega

/-- What `write` copies: no run of whole characters within the length is longer, and it is one
itself that fits the room exactly if the text keeps to the room. -/
structure Cut (encoder : Encoder) (string : List Char) (pieces : List (List UInt8)) (length n : ℕ)
    (source : List UInt8) : Prop where
  count : n = source.length
  longest : ∀ run, Whole pieces run → run.length ≤ length → run.length ≤ source.length
  keeps : ∀ room : ℤ, Keeps encoder length room string pieces ↔
    Whole pieces source ∧ (source.length : ℤ) ≤ room

theorem noneBetween_iff (hwhole : Whole pieces source) (hlength : source.length ≤ length)
    (hlongest : ∀ run, Whole pieces run → run.length ≤ length → run.length ≤ source.length)
    (room : ℤ) :
    NoneBetween ↑length room pieces ↔ Whole pieces source ∧ (source.length : ℤ) ≤ room := by
  constructor
  · exact fun h => ⟨hwhole, h source hwhole (by omega)⟩
  · intro h run hrun hle
    have := hlongest run hrun (by omega)
    omega

theorem cut_utf8 (string : List Char) (length : ℕ) :
    Cut .utf8 string (string.map String.utf8EncodeChar) length
      (safeByteSlice string (min length (Utf8.encode string).length)).2
      (safeByteSlice string (min length (Utf8.encode string).length)).1 := by
  have hfit := safeByteSlice_longestFit string (min length (Utf8.encode string).length)
  have hlongest : ∀ run, Whole (string.map String.utf8EncodeChar) run → run.length ≤ length →
      run.length ≤ (safeByteSlice string (min length (Utf8.encode string).length)).1.length := by
    intro run hrun hle
    have := hrun.length_le
    rw [← utf8_encode_eq_flatten] at this
    exact hfit.longest run hrun (by omega)
  have hlength := hfit.fits
  exact ⟨safeByteSlice_length string _, hlongest, noneBetween_iff hfit.whole (by omega) hlongest⟩

/-- A text that is cut between bytes. -/
theorem longest_take (h : source = pieces.flatten.take (min length pieces.flatten.length)) :
    ∀ run, Whole pieces run → run.length ≤ length → run.length ≤ source.length := by
  intro run hrun hle
  have := hrun.length_le
  rw [h, List.length_take]
  omega

theorem cut_bytes (henc : encoder = .hex ∨ encoder = .base64) (string : List Char)
    (bytes : List UInt8) (length : ℕ) :
    Cut encoder string (bytes.map ([·])) length (min length bytes.length)
      (bytes.take (min length bytes.length)) := by
  have hlongest : ∀ run, Whole (bytes.map ([·])) run → run.length ≤ length →
      run.length ≤ (bytes.take (min length bytes.length)).length :=
    longest_take (by rw [flatten_singletons])
  have hwhole : Whole (bytes.map ([·])) (bytes.take (min length bytes.length)) :=
    ⟨min length bytes.length, by rw [← List.map_take, flatten_singletons]⟩
  refine ⟨by simp, hlongest, ?_⟩
  rcases henc with rfl | rfl
  all_goals exact noneBetween_iff hwhole (by rw [List.length_take]; omega) hlongest

theorem cut_utf16 (henc : encoder = .utf16le ∨ encoder = .utf16be) (string : List Char)
    (pieces : List (List UInt8)) (length : ℕ) :
    Cut encoder string pieces length (min length pieces.flatten.length)
      (pieces.flatten.take (min length pieces.flatten.length)) := by
  have hlongest : ∀ run, Whole pieces run → run.length ≤ length →
      run.length ≤ (pieces.flatten.take (min length pieces.flatten.length)).length :=
    longest_take rfl
  have hlength : (pieces.flatten.take (min length pieces.flatten.length)).length =
      min length pieces.flatten.length := by
    rw [List.length_take]
    omega
  refine ⟨hlength.symm, hlongest, fun room => ?_⟩
  have hkeeps : Keeps encoder length room string pieces ↔ NoneBetween length room pieces ∧
      ((pieces.flatten.length : ℤ) ≤ length ∨
        ∃ run, Whole pieces run ∧ (run.length : ℤ) = length) := by
    rcases henc with rfl | rfl <;> rfl
  rw [hkeeps]
  clear hkeeps
  constructor
  · rintro ⟨hnone, hend⟩
    have hwhole : Whole pieces (pieces.flatten.take (min length pieces.flatten.length)) := by
      rcases hend with hall | ⟨run, hrun, heq⟩
      · refine ⟨pieces.length, ?_⟩
        rw [List.take_length, List.take_of_length_le (by omega)]
      · have htake := hrun.eq_take
        have := hrun.length_le
        have hmin : min length pieces.flatten.length = run.length := by omega
        rw [hmin, ← htake]
        exact hrun
    exact (noneBetween_iff hwhole (by omega) hlongest room).mp hnone
  · rintro ⟨hwhole, hroom⟩
    refine ⟨(noneBetween_iff hwhole (by omega) hlongest room).mpr ⟨hwhole, hroom⟩, ?_⟩
    by_cases hall : pieces.flatten.length ≤ length
    · exact .inl (by omega)
    · exact .inr ⟨_, hwhole, by omega⟩

theorem cut_latin1 (string : List Char) (length : ℕ) :
    Cut .windows1252 string (string.map latin1EncodeChar) length
      (min length (Utf8.encode string).length)
      ((Utf8.encode string).take (min length (Utf8.encode string).length)) := by
  have hlength : ((Utf8.encode string).take (min length (Utf8.encode string).length)).length =
      min length (Utf8.encode string).length := by
    rw [List.length_take]
    omega
  refine ⟨hlength.symm, fun run hrun hle => ?_, fun room => ?_⟩
  · have := hrun.length_le
    have := latin1_length_le string
    omega
  · have htake : (Utf8.encode string).take (min length (Utf8.encode string).length) =
        (Utf8.encode string).take length := by
      rw [List.take_eq_take_iff]
      omega
    rw [hlength, htake]
    unfold Keeps
    rw [Int.toNat_natCast]
    exact and_congr_right fun _ => by omega

theorem sourceSlice_cut [Codecs] {n : ℕ} (h : sourceSlice encoder string length = .ok (source, n))
    (hpieces : characters encoder string = .ok pieces) :
    Cut encoder string pieces length n source := by
  cases encoder with
  | utf8 =>
    cases hpieces
    obtain ⟨rfl, rfl⟩ := Prod.mk.inj (Except.ok.inj h)
    exact cut_utf8 string length
  | windows1252 =>
    rw [sourceSlice_of_ne (by decide)] at h
    cases hpieces
    cases h
    exact cut_latin1 string length
  | utf16le | utf16be =>
    rw [sourceSlice_of_ne (by decide), characters_flatten (by decide) hpieces] at h
    cases h
    exact cut_utf16 (by simp) string pieces length
  | hex | base64 =>
    obtain ⟨bytes, hbytes, rfl⟩ := map_eq_ok.mp hpieces
    rw [sourceSlice_of_ne (by decide), hbytes] at h
    cases h
    exact cut_bytes (by simp) string bytes length

/-! ### The parameters -/

theorem asUsize_of_nonneg {i : Int32} (h : 0 ≤ i.toInt) : (asUsize i : ℤ) = i.toInt := by
  have := i.toInt_lt
  unfold asUsize
  omega

theorem asUsize_of_neg {i : Int32} (h : i.toInt < 0) : 2 ^ 63 ≤ asUsize i := by
  have := i.le_toInt
  unfold asUsize
  omega

theorem offset_spec (v : Arg) (rest : List Arg) (hv : ∀ s, v ≠ .text s) :
    (0 ≤ readOffset (v :: rest) →
        (((v.asInt.map asUsize).getD 0 : ℕ) : ℤ) = readOffset (v :: rest)) ∧
      (readOffset (v :: rest) < 0 → 2 ^ 63 ≤ (v.asInt.map asUsize).getD 0) := by
  cases v with
  | text s => exact absurd rfl (hv s)
  | int i => exact ⟨asUsize_of_nonneg, asUsize_of_neg⟩
  | float | other => exact ⟨fun _ => rfl, fun h => absurd h (Int.lt_irrefl 0)⟩

theorem subUsize_of_le {a b left : ℕ} (h : subUsize checks a b = some left) (hle : b ≤ a) :
    left = a - b := by
  unfold subUsize at h
  rw [if_pos hle] at h
  exact (Option.some.inj h).symm

theorem offset_le_iff (r : Region) (v : Arg) (rest : List Arg) (hv : ∀ s, v ≠ .text s) :
    (v.asInt.map asUsize).getD 0 ≤ r.len ↔
      0 ≤ readOffset (v :: rest) ∧ readOffset (v :: rest) ≤ r.len := by
  obtain ⟨hpos, hneg⟩ := offset_spec v rest hv
  have := r.inside
  have := r.addressable
  unfold Region.len
  by_cases h : 0 ≤ readOffset (v :: rest)
  · have := hpos h
    omega
  · have := hneg (by omega)
    omega

section Second

variable {v1 v2 : Arg} {rest : List Arg} (r : Region) (hv : ∀ s, v1 ≠ .text s)

include hv

theorem overflows_iff : Overflows r (v1 :: v2 :: rest) ↔
    ¬ (v1.asInt.map asUsize).getD 0 ≤ r.len := by
  rw [offset_le_iff r v1 (v2 :: rest) hv]
  cases v1 with
  | text s => exact absurd rfl (hv s)
  | int | float | other => exact Iff.rfl

theorem limitOf_second : limitOf r (v1 :: v2 :: rest) =
    (match v2 with
    | .int l => min l.toInt (r.len - readOffset (v1 :: v2 :: rest))
    | _ => r.len - readOffset (v1 :: v2 :: rest)) := by
  cases v1 with
  | text s => exact absurd rfl (hv s)
  | int | float | other => cases v2 <;> rfl

end Second

/-- **`get_write_parameters`** panics where the offset overflows in a build with checks. -/
theorem getWriteParameters_eq_none {args : List Arg} {r : Region} :
    getWriteParameters checks args r.len = none ↔ checks = true ∧ Overflows r args := by
  have hsub {offset : ℕ} : subUsize checks r.len offset = none ↔
      checks = true ∧ ¬ offset ≤ r.len := by
    unfold subUsize
    split_ifs with hle hchecks
    · simp [hle]
    · simp [hle, hchecks]
    · simp [hchecks]
  unfold getWriteParameters
  split
  case h_1 | h_2 => simp [Overflows]
  case h_3 v1 args hv1 =>
    dsimp only
    split
    · cases v1 <;> simp [Overflows]
    · rw [Option.map_eq_none_iff, hsub, overflows_iff r hv1]
    · rw [Option.map_eq_none_iff, hsub, overflows_iff r hv1]

/-- **`get_write_parameters`**: the encoding is the one asked for; an offset that is not negative is
the one that counts, and a negative one becomes larger than every memory; and if the offset and the
limit are in range, the length is the limit. -/
theorem getWriteParameters_spec {args : List Arg} {r : Region} {encoding : String}
    (h : getWriteParameters checks args r.len = some (offset, length, encoding)) :
    encoding = encodingOf args ∧
      ((0 ≤ readOffset args → (offset : ℤ) = readOffset args) ∧
        (readOffset args < 0 → 2 ^ 63 ≤ offset)) ∧
      (0 ≤ readOffset args → readOffset args ≤ r.len → 0 ≤ limitOf r args →
        (length : ℤ) = limitOf r args) := by
  unfold getWriteParameters at h
  split at h
  case h_1 | h_2 =>
    cases h
    exact ⟨rfl, ⟨fun _ => rfl, fun h => absurd h (Int.lt_irrefl 0)⟩, fun _ _ _ => rfl⟩
  case h_3 v1 args hv1 =>
    have hoffset := offset_spec v1 args hv1
    dsimp only at h
    split at h
    · cases h
      refine ⟨by cases v1 <;> first | rfl | exact absurd rfl (hv1 _), hoffset, fun _ _ _ => ?_⟩
      cases v1 <;> rfl
    · obtain ⟨left, hleft, hcall⟩ := Option.map_eq_some_iff.1 h
      cases hcall
      refine ⟨by cases v1 <;> first | rfl | exact absurd rfl (hv1 _), hoffset, fun h0 hle _ => ?_⟩
      have := hoffset.1 h0
      have := subUsize_of_le hleft (by omega)
      rw [limitOf_second r hv1]
      dsimp only
      omega
    · rename_i v2 rest hv2
      obtain ⟨left, hleft, hcall⟩ := Option.map_eq_some_iff.1 h
      cases hcall
      refine ⟨?_, hoffset, fun h0 hle hlimit => ?_⟩
      · cases v1 with
        | text s => exact absurd rfl (hv1 s)
        | int | float | other =>
          cases v2 with
          | text s => exact absurd rfl (hv2 s)
          | int | float | other =>
            cases rest with
            | nil => rfl
            | cons v3 rest => cases v3 <;> rfl
      · have := hoffset.1 h0
        have := subUsize_of_le hleft (by omega)
        rw [limitOf_second r hv1] at hlimit ⊢
        cases v2 with
        | text s => exact absurd rfl (hv2 s)
        | int l =>
          dsimp only at hlimit ⊢
          have := asUsize_of_nonneg (i := l) (by omega)
          show ((min (asUsize l) left : ℕ) : ℤ) = _
          omega
        | float | other =>
          show (left : ℤ) = r.len - _
          omega

theorem readOffset_le {args : List Arg} {k : ℕ} (hk : offsetOf args = some ↑k) :
    0 ≤ readOffset args ∧ readOffset args ≤ k := by
  unfold readOffset
  split
  · have := Option.some.inj hk
    omega
  · omega

/-- The room from an offset on is within the view and within the limit. -/
theorem room_le_limit {args : List Arg} {r : Region} {k : ℕ} {room : ℤ}
    (hk : offsetOf args = some ↑k) (hroom : roomFrom r args k = some room) :
    room ≤ r.byteLength - k ∧ room ≤ limitOf r args := by
  have hread := readOffset_le hk
  have hlen : r.len = r.byteLength + r.extra := rfl
  have hrest : room ≤ r.byteLength - k := by
    unfold roomFrom at hroom
    split at hroom
    · have := Option.some.inj hroom
      omega
    · have := Option.some.inj hroom
      omega
    · obtain ⟨l, -, rfl⟩ := Option.map_eq_some_iff.mp hroom
      omega
    · have := Option.some.inj hroom
      omega
  refine ⟨hrest, ?_⟩
  unfold limitOf
  split
  · omega
  · omega
  · omega
  · rename_i v1 l rest hv1
    have hasked : roomFrom r (v1 :: .int l :: rest) k = some (min l.toInt (r.byteLength - k)) := by
      cases v1 with
      | text s => exact absurd rfl (hv1 s)
      | int | float | other => rfl
    have := Option.some.inj (hasked.symm.trans hroom)
    omega
  · omega

/-! ### The copy -/

theorem copyFromSlice_of_le {target : List UInt8}
    (h : offset + source.length ≤ target.length) (hsize : target.length < 2 ^ 63) :
    copyFromSlice checks target offset source.length source =
      some (target.take offset ++ source ++ target.drop (offset + source.length)) := by
  unfold copyFromSlice addUsize
  rw [if_pos (by omega), Option.bind_some, if_pos (by omega)]

theorem copyFromSlice_eq_some {target target' : List UInt8}
    (h : copyFromSlice checks target offset source.length source = some target') :
    offset + source.length ≤ target.length ∧
      target' = target.take offset ++ source ++ target.drop (offset + source.length) := by
  unfold copyFromSlice addUsize at h
  obtain ⟨stop, hstop, hcopy⟩ := Option.bind_eq_some_iff.1 h
  split_ifs at hcopy with hin
  cases hcopy
  -- A sum that wraps around is off by the whole range.
  obtain rfl : stop = offset + source.length := by
    split_ifs at hstop <;> (have h' := Option.some.inj hstop; omega)
  exact ⟨hin.2.1, rfl⟩

/-- A memory in which the first byte copied shows. -/
def backdrop (size : ℕ) : List UInt8 → List UInt8
  | [] => List.replicate size 0
  | b :: _ => List.replicate size (b + 1)

theorem length_backdrop (size : ℕ) (source : List UInt8) :
    (backdrop size source).length = size := by
  cases source <;> exact List.length_replicate

/-- Bytes copied to two places of a memory of equal bytes show where they were copied to. -/
theorem eq_of_backdrop {size o k : ℕ} {source' : List UInt8}
    (hlength : source.length = source'.length) (hk : k + source.length ≤ size)
    (h : (backdrop size source).take k ++ source ++
      (backdrop size source).drop (k + source.length) =
      (backdrop size source).take (o + k) ++ source' ++
        (backdrop size source).drop (o + k + source.length)) :
    source = source' ∧ (o = 0 ∨ source = []) := by
  cases source with
  | nil => exact ⟨(List.length_eq_zero_iff.1 hlength.symm).symm, .inr rfl⟩
  | cons b source =>
    rcases Nat.eq_zero_or_pos o with rfl | ho
    · rw [Nat.zero_add] at h
      have h := List.append_inj_left h (by simp [hlength])
      exact ⟨List.append_cancel_left h, .inl rfl⟩
    · exfalso
      simp only [List.length_cons] at hk
      have htake : ((backdrop size (b :: source)).take k).length = k := by
        rw [List.length_take, length_backdrop]
        omega
      have hleft : ((backdrop size (b :: source)).take k ++ b :: source ++
          (backdrop size (b :: source)).drop (k + (b :: source).length))[k]? = some b := by
        rw [List.append_assoc, List.getElem?_append_right (Nat.le_of_eq htake), htake, Nat.sub_self]
        rfl
      have hright : ((backdrop size (b :: source)).take (o + k) ++ source' ++
          (backdrop size (b :: source)).drop (o + k + (b :: source).length))[k]? =
            some (b + 1) := by
        rw [List.append_assoc, List.getElem?_append_left, List.getElem?_take_of_lt (by omega)]
        · exact List.getElem?_replicate_of_lt (by omega)
        · rw [List.length_take, length_backdrop]
          omega
      rw [h, hright] at hleft
      have hbyte := congrArg UInt8.toNat (Option.some.inj hleft)
      rw [UInt8.toNat_add] at hbyte
      have := b.toNat_lt
      change (b.toNat + 1) % 256 = b.toNat at hbyte
      omega

/-! ### The calls that conform -/

/-- An offset within the view does not overflow. -/
theorem not_overflows {args : List Arg} {r : Region} (h0 : 0 ≤ readOffset args)
    (hle : readOffset args ≤ r.len) : ¬ Overflows r args := by
  unfold Overflows
  split
  case h_1 | h_2 | h_3 => exact not_false
  case h_4 => exact not_not_intro ⟨h0, hle⟩

theorem Fits.not_overflows [Codecs] {r : Region} {args : List Arg} (h : Fits checks r string args)
    (hchecks : checks = true) : ¬ Overflows r args := by
  unfold Fits at h
  split at h
  · exact h hchecks
  · split at h
    · exact h hchecks
    · obtain ⟨k, room, hk, hroom, h0, -⟩ := h
      have hread := readOffset_le hk
      have hle := room_le_limit hk hroom
      have hlen : r.len = r.byteLength + r.extra := rfl
      exact Buffer.not_overflows hread.1 (by omega)

section Accepted

variable [Codecs] {r : Region} {args : List Arg}
  (hoffset : 0 ≤ readOffset args → (offset : ℤ) = readOffset args)
  (hlength : 0 ≤ readOffset args → readOffset args ≤ r.len → 0 ≤ limitOf r args →
    (length : ℤ) = limitOf r args)
  (hin : charactersIn (encodingOf args) string = .ok pieces)
  (hcut : Cut encoder string pieces length source.length source)

include hoffset hlength hin hcut

/-- A call that does what it should on the memory that shows it has the room for it. -/
theorem fits_of_backdrop (hbound : offset + source.length ≤ r.size)
    (h : Conforms r (backdrop r.size source) string args (.returns source.length
      ((backdrop r.size source).take offset ++ source ++
        (backdrop r.size source).drop (offset + source.length)))) :
    ∃ (k : ℕ) (room : ℤ), offsetOf args = some ↑k ∧ roomFrom r args k = some room ∧ 0 ≤ room ∧
      Keeps encoder (limitOf r args) room string pieces ∧
      (NothingFits room pieces ∨ r.byteOffset = 0 ∧ readOffset args = k) := by
  obtain ⟨k, room, pieces', source', hk, hroom, hpieces', hcount, hfit, heq⟩ := h
  cases hin.symm.trans hpieces'
  have hlen : r.len = r.byteLength + r.extra := rfl
  have hread := readOffset_le hk
  have hroom' := room_le_limit hk hroom
  have hfits := hfit.fits
  have hplaced := hoffset hread.1
  have hlimit := hlength hread.1 (by omega) (by omega)
  -- The bytes should be `o` further on.
  obtain ⟨o, ho⟩ : ∃ o, r.byteOffset + k = o + offset := ⟨r.byteOffset + k - offset, by omega⟩
  rw [ho] at heq
  obtain ⟨rfl, hplace⟩ := eq_of_backdrop hcount.symm hbound heq
  refine ⟨k, room, hk, hroom, by omega, ?_, ?_⟩
  · rw [← hlimit]
    exact (hcut.keeps room).mpr ⟨hfit.whole, hfits⟩
  · rcases hplace with rfl | rfl
    · exact .inr ⟨by omega, by omega⟩
    · exact .inl fun run hrun hle =>
        List.length_eq_zero_iff.1 (Nat.le_zero.1 (hfit.longest run hrun hle))

/-- With the room for it a call stays in the memory and does what it should. -/
theorem conforms_of_room {k : ℕ} {room : ℤ} (hk : offsetOf args = some ↑k)
    (hroom : roomFrom r args k = some room) (h0 : 0 ≤ room)
    (hkeeps : Keeps encoder (limitOf r args) room string pieces)
    (hplace : NothingFits room pieces ∨ r.byteOffset = 0 ∧ readOffset args = k)
    (memory : List UInt8) :
    offset + source.length ≤ r.size ∧
      Conforms r memory string args (.returns source.length
        (memory.take offset ++ source ++ memory.drop (offset + source.length))) := by
  have hview := r.inside
  have hlen : r.len = r.byteLength + r.extra := rfl
  have hread := readOffset_le hk
  have hroom' := room_le_limit hk hroom
  have hplaced := hoffset hread.1
  have hlimit := hlength hread.1 (by omega) (by omega)
  rw [← hlimit] at hkeeps
  obtain ⟨hwhole, hfits⟩ := (hcut.keeps room).mp hkeeps
  refine ⟨by omega, k, room, pieces, source, hk, hroom, hin, rfl, ⟨hwhole, hfits, ?_⟩, ?_⟩
  · exact fun run hrun hle => hcut.longest run hrun (by omega)
  · rcases hplace with hnothing | ⟨hzero, hsame⟩
    · rw [hnothing source hwhole hfits]
      simp
    · obtain rfl : offset = k := by omega
      rw [hzero, Nat.zero_add]

end Accepted

/-- **`Buffer.write`**: a call does what it should, whatever the memory holds, exactly if its offset
does not overflow and, unless the encoding or the text is refused, its offset and its length are
whole numbers that leave room, the text that is cut to the limit keeps to that room, and nothing
fits it or the view starts where its `ArrayBuffer` does and the offset asked for is the one that
counts. -/
theorem write_conforms_iff (checks : Bool) [Codecs] (r : Region) (string : List Char)
    (args : List Arg) :
    (∀ memory, memory.length = r.size →
      Conforms r memory string args (write checks r memory string args)) ↔
      Fits checks r string args := by
  unfold write
  cases hparams : getWriteParameters checks args r.len with
  | none =>
    obtain ⟨hchecks, hover⟩ := getWriteParameters_eq_none.mp hparams
    exact iff_of_false (fun h => h _ (List.length_replicate (a := 0)))
      fun h => h.not_overflows hchecks hover
  | some params =>
    obtain ⟨offset, length, encoding⟩ := params
    obtain ⟨hencoding, ⟨hoffset, -⟩, hlength⟩ := getWriteParameters_spec hparams
    have hover (hchecks : checks = true) : ¬ Overflows r args := fun hover =>
      Option.some_ne_none _ (hparams.symm.trans (getWriteParameters_eq_none.mpr ⟨hchecks, hover⟩))
    unfold Fits
    rw [← hencoding]
    dsimp only
    cases hencoder : fromStr encoding with
    | error message => exact ⟨fun _ => hover, fun _ _ _ => trivial⟩
    | ok encoder =>
      dsimp only
      rcases characters_of_sourceSlice encoder string length with
        ⟨_, _, hslice, hpieces⟩ | ⟨⟨source, n⟩, pieces, hslice, hpieces⟩
      · rw [hslice, hpieces]
        exact ⟨fun _ => hover, fun _ _ _ => trivial⟩
      · have hcut := sourceSlice_cut hslice hpieces
        obtain rfl := hcut.count
        have hin : charactersIn (encodingOf args) string = .ok pieces := by
          unfold charactersIn
          rw [← hencoding, hencoder]
          exact hpieces
        have hsize := r.addressable
        rw [hslice, hpieces]
        dsimp only
        constructor
        · intro h
          have h := h _ (length_backdrop r.size source)
          split at h
          · exact h.elim
          next hcopy =>
          obtain ⟨hbound, rfl⟩ := copyFromSlice_eq_some hcopy
          rw [length_backdrop] at hbound
          exact fits_of_backdrop hoffset hlength hin hcut hbound h
        · rintro ⟨k, room, hk, hroom, h0, hkeeps, hplace⟩ memory hmemory
          obtain ⟨hbound, hconforms⟩ :=
            conforms_of_room hoffset hlength hin hcut hk hroom h0 hkeeps hplace memory
          rw [copyFromSlice_of_le (by omega) (by omega)]
          exact hconforms

/-- The second of two bytes. -/
def secondByte : Region := ⟨2, 1, 1, 0, by decide, by decide⟩

/-- Both of two bytes. -/
def bothBytes : Region := ⟨2, 0, 2, 0, by decide, by decide⟩

/-- A write into the second of two bytes changes the first; and two characters written at offset 1
of two bytes panic. -/
theorem write_misses_view :
    letI := standardCodecs
    write true secondByte [0, 0] ['a'] [] = .returns 1 [97, 0] ∧
      ¬ Conforms secondByte [0, 0] ['a'] [] (.returns 1 [97, 0]) ∧
      write false bothBytes [0, 0] ['a', 'b'] [.int 1] = .panics := by
  refine ⟨by decide, ?_, by decide⟩
  rintro ⟨k, room, pieces, source, -, -, -, -, -, heq⟩
  have hhead := congrArg List.head? heq
  rw [show secondByte.byteOffset + k = k + 1 from Nat.add_comm 1 k] at hhead
  cases hhead

end RasterRuntime.Buffer
