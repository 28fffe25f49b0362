import RasterRuntime.Encoding.TextDecoder

/-! # Percent-encoding of the module querystring

Strings are lists of UTF-16 code units. `encodeStr` writes what has to be escaped as the bytes of
its UTF-8 encoding. `qsUnescape` is `decodeURIComponent`, and for what that throws on a decoder that
leaves broken escapes as they are. -/

namespace RasterRuntime.QueryString

abbrev Str := List UInt16

/-- The code units of an ASCII text. -/
def units (s : String) : Str := s.toList.map fun c => UInt16.ofNat c.toNat

/-! ### Tables -/

def hexDigit (d : ℕ) : UInt16 := if d < 10 then UInt16.ofNat (48 + d) else UInt16.ofNat (55 + d)

def hexTable (n : ℕ) : Str := [37, hexDigit (n / 16), hexDigit (n % 16)]

/-- The value of a hexadecimal digit; nothing where the table has -1. -/
def unhexTable (c : UInt16) : Option ℕ :=
  if 48 ≤ c ∧ c ≤ 57 then some (c.toNat - 48)
  else if 65 ≤ c ∧ c ≤ 70 then some (c.toNat - 55)
  else if 97 ≤ c ∧ c ≤ 102 then some (c.toNat - 87)
  else none

def isHexTable (c : UInt16) : Bool := (unhexTable c).isSome

/-- `! ' ( ) * - . _ ~`, the digits and the letters. -/
def noEscape (c : UInt16) : Bool :=
  c = 33 || (39 ≤ c && c ≤ 42) || c = 45 || c = 46 || (48 ≤ c && c ≤ 57) || (65 ≤ c && c ≤ 90) ||
    c = 95 || (97 ≤ c && c ≤ 122) || c = 126

/-! ### Encoding -/

/-- The loop of `encodeStr`: `pending` is what was read since `lastPos`. Nothing is returned where a
`URIError` is thrown. -/
def encodeLoop : Str → Str → Str → Option Str
  | [], pending, out => some (out ++ pending)
  | c :: rest, pending, out =>
    if c.toNat < 0x80 then
      if noEscape c then encodeLoop rest (pending ++ [c]) out
      else encodeLoop rest [] (out ++ pending ++ hexTable c.toNat)
    else if c.toNat < 0x800 then
      encodeLoop rest [] (out ++ pending ++ hexTable (0xC0 + c.toNat / 64) ++
        hexTable (0x80 + c.toNat % 64))
    else if c.toNat < 0xD800 || 0xE000 ≤ c.toNat then
      encodeLoop rest [] (out ++ pending ++ hexTable (0xE0 + c.toNat / 4096) ++
        hexTable (0x80 + c.toNat / 64 % 64) ++ hexTable (0x80 + c.toNat % 64))
    else
      match rest with
      | [] => none
      | d :: rest =>
        let code := 0x10000 + c.toNat % 1024 * 1024 + d.toNat % 1024
        encodeLoop rest [] (out ++ pending ++ hexTable (0xF0 + code / 262144) ++
          hexTable (0x80 + code / 4096 % 64) ++ hexTable (0x80 + code / 64 % 64) ++
          hexTable (0x80 + code % 64))

def encodeStr (str : Str) : Option Str := encodeLoop str [] []

/-! ### Decoding -/

/-- An escape, and what comes after it. -/
def hexByte : Str → Option (UInt8 × Str)
  | p :: h :: l :: rest =>
    if p = 37 then
      (unhexTable h).bind fun high => (unhexTable l).map fun low =>
        (UInt8.ofNat (16 * high + low), rest)
    else none
  | _ => none

def hexBytes : ℕ → Str → Option (List UInt8 × Str)
  | 0, s => some ([], s)
  | n + 1, s => (hexByte s).bind fun p => (hexBytes n p.2).map fun q => (p.1 :: q.1, q.2)

/-- The code units of the one character that bytes are. -/
def octetsUnits (octets : List UInt8) : Option Str :=
  match Text.Utf8.tokens octets with
  | [.char c _] => some (Text.Utf16.encodeChar c)
  | _ => none

def decodeLoop : ℕ → Str → Option Str
  | _, [] => some []
  | 0, _ => none
  | fuel + 1, c :: rest =>
    if c = 37 then
      (hexByte (c :: rest)).bind fun p =>
        (hexBytes (Text.Utf8.width p.1 - 1) p.2).bind fun q =>
          (octetsUnits (p.1 :: q.1)).bind fun u => (decodeLoop fuel q.2).map fun s => u ++ s
    else (decodeLoop fuel rest).map fun s => c :: s

/-- The function of the language; nothing is returned where a `URIError` is thrown. -/
def decodeURIComponent (s : Str) : Option Str := decodeLoop s.length s

/-- The bytes of `unescapeBuffer`. -/
def unescapeBytes (decodeSpaces : Bool) : Str → List UInt8
  | [] => []
  | c :: h :: l :: rest =>
    if c = 43 ∧ decodeSpaces then 32 :: unescapeBytes decodeSpaces (h :: l :: rest)
    else if c = 37 then
      match unhexTable h with
      | none => 37 :: unescapeBytes decodeSpaces (h :: l :: rest)
      | some high =>
        match unhexTable l with
        | none => 37 :: UInt8.ofNat h.toNat :: unescapeBytes decodeSpaces (l :: rest)
        | some low => UInt8.ofNat (16 * high + low) :: unescapeBytes decodeSpaces rest
    else UInt8.ofNat c.toNat :: unescapeBytes decodeSpaces (h :: l :: rest)
  | c :: rest =>
    if c = 43 ∧ decodeSpaces then 32 :: unescapeBytes decodeSpaces rest
    else UInt8.ofNat c.toNat :: unescapeBytes decodeSpaces rest

/-- The bytes go through a `TextDecoder` that is not fatal. -/
def unescapeBuffer [Encoding.Codecs] (s : Str) (decodeSpaces : Bool) : Option Str :=
  match ((Encoding.TextDecoder.fresh .utf8 false false).decodeBytes
      (unescapeBytes decodeSpaces s) false).1 with
  | .ok chars => some (Text.Utf16.encode chars)
  | .error _ => none

def qsUnescape [Encoding.Codecs] (s : Str) (decodeSpaces : Option Bool) : Option Str :=
  match decodeURIComponent s with
  | some text => some text
  | none => unescapeBuffer s (decodeSpaces ≠ some false)

/-- Of a string; other values are made strings first. -/
def qsEscape (str : Str) : Option Str := encodeStr str

end RasterRuntime.QueryString
