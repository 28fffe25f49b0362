import RasterRuntime.Text.Utf16

/-! # The encoders of `raster_runtime_encoding`

The encodings by label, and the functions that turn bytes into a text and a text into bytes. A Rust
`String` is the list of its characters; a fallible function returns `Except String`, with the text
of its error. -/

namespace RasterRuntime.Encoding

open Text

/-- `Encoder`. -/
inductive Encoder where
  | hex
  | base64
  | windows1252
  | utf8
  | utf16le
  | utf16be
  deriving DecidableEq, Repr

/-- `Endian`. -/
inductive Endian where
  | little
  | big
  deriving DecidableEq, Repr

/-! ### Labels -/

/-- `ENCODING_MAP`. -/
def encodingMap : List (String × Encoder) :=
  [("hex", .hex), ("base64", .base64), ("unicode-1-1-utf-8", .utf8), ("unicode11utf8", .utf8),
    ("unicode20utf8", .utf8), ("utf-8", .utf8), ("utf8", .utf8), ("x-unicode20utf8", .utf8),
    ("csunicode", .utf16le), ("iso-10646-ucs-2", .utf16le), ("ucs-2", .utf16le),
    ("ucs2", .utf16le), ("unicode", .utf16le), ("unicodefeff", .utf16le), ("utf-16", .utf16le),
    ("utf-16le", .utf16le), ("utf16le", .utf16le), ("unicodefffe", .utf16be),
    ("utf-16be", .utf16be), ("ansi_x3.4-1968", .windows1252), ("ascii", .windows1252),
    ("cp1252", .windows1252), ("cp819", .windows1252), ("csisolatin1", .windows1252),
    ("ibm819", .windows1252), ("iso-8859-1", .windows1252), ("iso-ir-100", .windows1252),
    ("iso8859-1", .windows1252), ("iso88591", .windows1252), ("iso_8859-1", .windows1252),
    ("iso_8859-1:1987", .windows1252), ("l1", .windows1252), ("latin1", .windows1252),
    ("us-ascii", .windows1252), ("windows-1252", .windows1252), ("x-cp1252", .windows1252)]

/-- `u8::is_ascii_whitespace`. -/
def isAsciiWhitespace (c : Char) : Bool :=
  c = ' ' || c = '\t' || c = '\n' || c = '\x0C' || c = '\r'

/-- `str::trim_ascii`. -/
def trimAscii (s : List Char) : List Char :=
  ((s.dropWhile isAsciiWhitespace).reverse.dropWhile isAsciiWhitespace).reverse

/-- `Encoder::from_str`. -/
def fromStr (encoding : String) : Except String Encoder :=
  match encodingMap.lookup (String.ofList ((trimAscii encoding.toList).map Char.toLower)) with
  | some e => .ok e
  | none => .error ("The \"" ++ encoding ++ "\" encoding is not supported")

/-- `Encoder::from_optional_str`. -/
def fromOptionalStr : Option String → Except String Encoder
  | some label => if label.isEmpty then .ok .utf8 else fromStr label
  | none => .ok .utf8

/-! ### The codecs of the libraries -/

/-- The functions of the `hex_simd` and `base64_simd` crates, with the texts of their errors. Base64
is encoded in groups of three bytes, and only the last group is padded. -/
class Codecs where
  hexEncode : List UInt8 → List Char
  base64Encode : List UInt8 → List Char
  hexDecode : List UInt8 → Except String (List UInt8)
  base64Decode : List UInt8 → Except String (List UInt8)
  base64Encode_append : ∀ a x, a.length % 3 = 0 →
    base64Encode (a ++ x) = base64Encode a ++ base64Encode x
  base64Encode_padded : ∀ bytes, ∃ digits k, k ≤ 2 ∧ '=' ∉ digits ∧
    base64Encode bytes = digits ++ List.replicate k '='

/-! ### From bytes to a text -/

/-- `bytes_to_hex_string`. -/
def bytesToHexString [Codecs] (bytes : List UInt8) : List Char := Codecs.hexEncode bytes

/-- `bytes_to_b64_string`. -/
def bytesToB64String [Codecs] (bytes : List UInt8) : List Char := Codecs.base64Encode bytes

/-- `bytes_to_utf8_string`. -/
def bytesToUtf8String (bytes : List UInt8) (lossy : Bool) : Except String (List Char) :=
  if lossy then .ok (Utf8.fromUtf8Lossy bytes)
  else (Utf8.fromUtf8 bytes).mapError Utf8.Utf8Error.toMessage

/-- `u16::from_le_bytes` and `u16::from_be_bytes`. -/
def u16FromBytes : Endian → UInt8 → UInt8 → UInt16
  | .little, x, y => UInt16.ofNat (x.toNat + 256 * y.toNat)
  | .big, x, y => UInt16.ofNat (256 * x.toNat + y.toNat)

/-- The code units of `bytes.chunks_exact(2)`: an odd last byte is left out. -/
def units (endian : Endian) : List UInt8 → List UInt16
  | x :: y :: r => u16FromBytes endian x y :: units endian r
  | _ => []

/-- The message of `FromUtf16Error`. -/
def fromUtf16Message : String := "invalid utf-16: lone surrogate found"

/-- The text of code units, as `String::from_utf16_lossy` or as `String::from_utf16`. -/
def utf16Text (us : List UInt16) (lossy : Bool) : Except String (List Char) :=
  if lossy then .ok (Utf16.fromUtf16Lossy us)
  else
    match Utf16.fromUtf16 us with
    | some cs => .ok cs
    | none => .error fromUtf16Message

/-- `bytes_to_utf16_string`. -/
def bytesToUtf16String (bytes : List UInt8) (endian : Endian) (lossy : Bool) :
    Except String (List Char) :=
  if !lossy && bytes.length % 2 != 0 then .error "Input byte slice length must be even"
  else utf16Text (units endian bytes) lossy

/-- `Encoder::encode_to_string`. -/
def encodeToString [Codecs] : Encoder → List UInt8 → Bool → Except String (List Char)
  | .hex, bytes, _ => .ok (bytesToHexString bytes)
  | .base64, bytes, _ => .ok (bytesToB64String bytes)
  | .utf8, bytes, lossy => bytesToUtf8String bytes lossy
  | .windows1252, bytes, lossy => bytesToUtf8String bytes lossy
  | .utf16le, bytes, lossy => bytesToUtf16String bytes .little lossy
  | .utf16be, bytes, lossy => bytesToUtf16String bytes .big lossy

/-! ### From a text to bytes -/

/-- `bytes_from_b64`: the digits of the URL-safe alphabet are replaced by those of the standard
one. -/
def bytesFromB64 [Codecs] (bytes : List UInt8) : Except String (List UInt8) :=
  Codecs.base64Decode (bytes.map fun b => if b = 45 then 43 else if b = 95 then 47 else b)

/-- `u16::to_le_bytes` and `u16::to_be_bytes`. -/
def u16ToBytes : Endian → UInt16 → List UInt8
  | .little, u => [UInt8.ofNat (u.toNat % 256), UInt8.ofNat (u.toNat / 256)]
  | .big, u => [UInt8.ofNat (u.toNat / 256), UInt8.ofNat (u.toNat % 256)]

/-- `Encoder::decode_from_string`. -/
def decodeFromString [Codecs] : Encoder → List Char → Except String (List UInt8)
  | .hex, string => Codecs.hexDecode (Utf8.encode string)
  | .base64, string => bytesFromB64 (Utf8.encode string)
  | .utf8, string => .ok (Utf8.encode string)
  | .windows1252, string => .ok (Utf8.encode string)
  | .utf16le, string => .ok ((Utf16.encode string).flatMap (u16ToBytes .little))
  | .utf16be, string => .ok ((Utf16.encode string).flatMap (u16ToBytes .big))

/-- `Encoder::as_label`. -/
def Encoder.asLabel : Encoder → String
  | .hex => "hex"
  | .base64 => "base64"
  | .windows1252 => "windows-1252"
  | .utf8 => "utf-8"
  | .utf16le => "utf-16le"
  | .utf16be => "utf-16be"

theorem length_units (endian : Endian) : ∀ bytes : List UInt8,
    (units endian bytes).length = bytes.length / 2
  | [] => rfl
  | [_] => by simp [units]
  | x :: y :: r => by
    rw [units, List.length_cons, length_units endian r]
    simp only [List.length_cons]
    omega

theorem units_append (endian : Endian) : ∀ (a b : List UInt8), a.length % 2 = 0 →
    units endian (a ++ b) = units endian a ++ units endian b
  | [], b, _ => rfl
  | [_], b, h => by cases h
  | x :: y :: r, b, h => by
    have ih := units_append endian r b (by simp only [List.length_cons] at h; omega)
    exact congrArg (_ :: ·) ih

/-! ### The standard digits -/

/-- The digit `d` of a lower-case hexadecimal number. -/
def hexDigit (d : ℕ) : Char := if d < 10 then Char.ofNat (48 + d) else Char.ofNat (87 + d)

/-- The digit `d` of the standard base64 alphabet. -/
def base64Digit (d : ℕ) : Char :=
  if d < 26 then Char.ofNat (65 + d)
  else if d < 52 then Char.ofNat (71 + d)
  else if d < 62 then Char.ofNat (d - 4)
  else if d = 62 then '+'
  else '/'

/-- Base64 with the standard alphabet, padded. -/
def base64Text : List UInt8 → List Char
  | [] => []
  | [a] => [base64Digit (a.toNat / 4), base64Digit (a.toNat % 4 * 16), '=', '=']
  | [a, b] =>
    [base64Digit (a.toNat / 4), base64Digit (a.toNat % 4 * 16 + b.toNat / 16),
      base64Digit (b.toNat % 16 * 4), '=']
  | a :: b :: c :: r =>
    base64Digit (a.toNat / 4) :: base64Digit (a.toNat % 4 * 16 + b.toNat / 16) ::
      base64Digit (b.toNat % 16 * 4 + c.toNat / 64) :: base64Digit (c.toNat % 64) :: base64Text r

/-- The encoding is cut after whole groups of three bytes. -/
theorem base64Text_append : ∀ (a x : List UInt8), a.length % 3 = 0 →
    base64Text (a ++ x) = base64Text a ++ base64Text x
  | [], x, _ => rfl
  | [_], x, h | [_, _], x, h => by simp at h
  | a :: b :: c :: r, x, h => by
    have hr : r.length % 3 = 0 := by simp only [List.length_cons] at h; omega
    simp only [List.cons_append, base64Text, base64Text_append r x hr]

theorem base64Digit_ne (d : ℕ) : base64Digit d ≠ '=' := by
  have h1 : ∀ d < 26, Char.ofNat (65 + d) ≠ '=' := by decide
  have h2 : ∀ d < 52, 26 ≤ d → Char.ofNat (71 + d) ≠ '=' := by decide
  have h3 : ∀ d < 62, 52 ≤ d → Char.ofNat (d - 4) ≠ '=' := by decide
  unfold base64Digit
  split_ifs with hd1 hd2 hd3
  · exact h1 d hd1
  · exact h2 d hd2 (by omega)
  · exact h3 d hd3 (by omega)
  · decide
  · decide

theorem base64Text_padded : ∀ bytes : List UInt8, ∃ digits k, k ≤ 2 ∧ '=' ∉ digits ∧
    base64Text bytes = digits ++ List.replicate k '='
  | [] => ⟨[], 0, by omega, List.not_mem_nil, rfl⟩
  | [a] => ⟨[_, _], 2, by omega, by simp [(base64Digit_ne _).symm], rfl⟩
  | [a, b] => ⟨[_, _, _], 1, by omega, by simp [(base64Digit_ne _).symm], rfl⟩
  | a :: b :: c :: r => by
    obtain ⟨digits, k, hk, hdigits, heq⟩ := base64Text_padded r
    refine ⟨_ :: _ :: _ :: _ :: digits, k, hk, ?_, by rw [base64Text, heq]; rfl⟩
    simp [(base64Digit_ne _).symm, hdigits]

/-- The standard encoders, with decoders that take no text. -/
@[reducible] def standardCodecs : Codecs where
  hexEncode bytes := bytes.flatMap fun b => [hexDigit (b.toNat / 16), hexDigit (b.toNat % 16)]
  base64Encode := base64Text
  hexDecode _ := .error "invalid"
  base64Decode _ := .error "invalid"
  base64Encode_append := base64Text_append
  base64Encode_padded := base64Text_padded

end RasterRuntime.Encoding
