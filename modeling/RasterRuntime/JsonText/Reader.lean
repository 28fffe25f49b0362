import Mathlib.Data.List.Basic

/-! # A reader of JSON

The grammar of JSON as a reader of bytes. Strings are read to their UTF-8 bytes; two escapes that
are the halves of a surrogate pair are one code point, and a single half has three bytes. What
number a text is is left to a function. -/

namespace RasterRuntime.JsonText

abbrev Bytes := List UInt8

inductive Doc (N : Type)
  | null
  | bool (b : Bool)
  | number (x : N)
  | string (s : Bytes)
  | array (items : List (Doc N))
  | object (members : List (Bytes × Doc N))

def isSpace (b : UInt8) : Bool := b = 32 || b = 9 || b = 10 || b = 13

def skipSpace (text : Bytes) : Bytes := text.dropWhile isSpace

/-! ### Numbers -/

def isDigit (b : UInt8) : Bool := 48 ≤ b && b ≤ 57

def isExponent : Bytes → Bool
  | [] => true
  | b :: rest =>
    let power := if rest.head? = some 43 || rest.head? = some 45 then rest.tail else rest
    (b = 101 || b = 69) && !power.isEmpty && power.all isDigit

/-- What may follow the digits of the integer part. -/
def isFraction : Bytes → Bool
  | [] => true
  | b :: rest =>
    if b = 46 then !(rest.takeWhile isDigit).isEmpty && isExponent (rest.dropWhile isDigit)
    else isExponent (b :: rest)

/-- Digits, without a leading zero. -/
def isInteger (digits : Bytes) : Bool :=
  !digits.isEmpty && digits.all isDigit && (digits.length = 1 || digits.head? ≠ some 48)

def isUnsigned (text : Bytes) : Bool :=
  isInteger (text.takeWhile isDigit) && isFraction (text.dropWhile isDigit)

def isNumber (text : Bytes) : Bool :=
  if text.head? = some 45 then isUnsigned text.tail else isUnsigned text

/-- A byte that may be part of a number. -/
def isNumberByte (b : UInt8) : Bool := isDigit b || b = 43 || b = 45 || b = 46 || b = 69 || b = 101

/-! ### Strings -/

def isHigh (unit : ℕ) : Bool := 0xD800 ≤ unit && unit ≤ 0xDBFF
def isLow (unit : ℕ) : Bool := 0xDC00 ≤ unit && unit ≤ 0xDFFF

def utf8 (code : ℕ) : Bytes :=
  if code < 0x80 then [UInt8.ofNat code]
  else if code < 0x800 then [UInt8.ofNat (0xC0 + code / 64), UInt8.ofNat (0x80 + code % 64)]
  else if code < 0x10000 then
    [UInt8.ofNat (0xE0 + code / 4096), UInt8.ofNat (0x80 + code / 64 % 64),
      UInt8.ofNat (0x80 + code % 64)]
  else
    [UInt8.ofNat (0xF0 + code / 262144), UInt8.ofNat (0x80 + code / 4096 % 64),
      UInt8.ofNat (0x80 + code / 64 % 64), UInt8.ofNat (0x80 + code % 64)]

def hexValue (b : UInt8) : Option ℕ :=
  if isDigit b then some (b.toNat - 48)
  else if 97 ≤ b && b ≤ 102 then some (b.toNat - 87)
  else if 65 ≤ b && b ≤ 70 then some (b.toNat - 55)
  else none

/-- The byte that an escape of one letter stands for. -/
def simpleEscape (b : UInt8) : Option UInt8 :=
  if b = 34 || b = 92 || b = 47 then some b
  else if b = 98 then some 8
  else if b = 102 then some 12
  else if b = 110 then some 10
  else if b = 114 then some 13
  else if b = 116 then some 9
  else none

/-- The place in a string: `high` is the first half of a surrogate pair that is not yet written. -/
inductive Mode
  | plain (high : Option ℕ)
  | escape (high : Option ℕ)
  | hex (high : Option ℕ) (count value : ℕ)
  deriving DecidableEq, Repr

def flush (high : Option ℕ) : Bytes := high.elim [] utf8

def readSingle (unit : ℕ) : Bytes × Mode :=
  if isHigh unit then ([], .plain (some unit)) else (utf8 unit, .plain none)

def readUnit (high : Option ℕ) (unit : ℕ) : Bytes × Mode :=
  match high with
  | none => readSingle unit
  | some h =>
    if isLow unit then (utf8 (0x10000 + (h - 0xD800) * 1024 + (unit - 0xDC00)), .plain none)
    else (utf8 h ++ (readSingle unit).1, (readSingle unit).2)

/-- A byte inside a string. -/
def readByte : Mode → UInt8 → Option (Bytes × Mode)
  | .plain high, b =>
    if b = 92 then some ([], .escape high)
    else if b < 32 then none
    else some (flush high ++ [b], .plain none)
  | .escape high, b =>
    if b = 117 then some ([], .hex high 0 0)
    else (simpleEscape b).map fun c => (flush high ++ [c], .plain none)
  | .hex high count value, b =>
    (hexValue b).map fun d =>
      if count < 3 then ([], .hex high (count + 1) (16 * value + d))
      else readUnit high (16 * value + d)

/-- What is still to be written if the byte ends the string. -/
def Mode.ends : Mode → UInt8 → Option Bytes
  | .plain high, b => if b = 34 then some (flush high) else none
  | _, _ => none

/-- The rest of a string, after the quote. -/
def readString : Mode → Bytes → Option (Bytes × Bytes)
  | _, [] => none
  | mode, b :: rest =>
    match mode.ends b with
    | some last => some (last, rest)
    | none =>
      (readByte mode b).bind fun p => (readString p.2 rest).map fun q => (p.1 ++ q.1, q.2)

/-! ### Values -/

section Values

variable {N α : Type} (read : Bytes → N)

def parseScalar (text : Bytes) : Option (Doc N × Bytes) :=
  if [110, 117, 108, 108].isPrefixOf text then some (.null, text.drop 4)
  else if [116, 114, 117, 101].isPrefixOf text then some (.bool true, text.drop 4)
  else if [102, 97, 108, 115, 101].isPrefixOf text then some (.bool false, text.drop 5)
  else
    let token := text.takeWhile isNumberByte
    if isNumber token then some (.number (read token), text.dropWhile isNumberByte) else none

/-- Entries with commas between them, up to the closing byte. -/
def parseSeq (entry : Bytes → Option (α × Bytes)) (close : UInt8) :
    ℕ → Bytes → Option (List α × Bytes)
  | 0, _ => none
  | bound + 1, text =>
    (entry text).bind fun p =>
      match skipSpace p.2 with
      | [] => none
      | b :: rest =>
        if b = 44 then (parseSeq entry close bound rest).map fun q => (p.1 :: q.1, q.2)
        else if b = close then some ([p.1], rest)
        else none

/-- What follows the opening byte. -/
def parseList (entry : Bytes → Option (α × Bytes)) (close : UInt8) (text : Bytes) :
    Option (List α × Bytes) :=
  match skipSpace text with
  | [] => none
  | b :: rest => if b = close then some ([], rest) else parseSeq entry close text.length text

def parseMember (value : Bytes → Option (α × Bytes)) (text : Bytes) :
    Option ((Bytes × α) × Bytes) :=
  match skipSpace text with
  | [] => none
  | b :: rest =>
    if b = 34 then
      (readString (.plain none) rest).bind fun key =>
        match skipSpace key.2 with
        | [] => none
        | b :: rest => if b = 58 then (value rest).map fun p => ((key.1, p.1), p.2) else none
    else none

/-- A value; the bound is on the depth. -/
def parseValue : ℕ → Bytes → Option (Doc N × Bytes)
  | 0, _ => none
  | fuel + 1, text =>
    match skipSpace text with
    | [] => none
    | b :: rest =>
      if b = 91 then (parseList (parseValue fuel) 93 rest).map fun p => (.array p.1, p.2)
      else if b = 123 then
        (parseList (parseMember (parseValue fuel)) 125 rest).map fun p => (.object p.1, p.2)
      else if b = 34 then (readString (.plain none) rest).map fun p => (.string p.1, p.2)
      else parseScalar read (b :: rest)

/-- A text that is one value. -/
def parse (text : Bytes) : Option (Doc N) :=
  match parseValue read text.length text with
  | some (doc, rest) => if skipSpace rest = [] then some doc else none
  | none => none

end Values

/-! ### Spaces and ends -/

theorem skipSpace_append {space : Bytes} (hs : space.all isSpace) (text : Bytes) :
    skipSpace (space ++ text) = skipSpace text :=
  List.dropWhile_append_of_pos (List.all_eq_true.mp hs)

theorem skipSpace_cons {b : UInt8} (hb : isSpace b = false) (text : Bytes) :
    skipSpace (b :: text) = b :: text := List.dropWhile_cons_of_neg (by simp [hb])

/-- A comma or a closing byte comes next, or nothing. -/
def Ended (rest : Bytes) : Prop := ∀ b ∈ (skipSpace rest).head?, b = 44 ∨ b = 93 ∨ b = 125

theorem ended_nil : Ended [] := fun _ h => absurd h (by simp [skipSpace])

theorem ended_close {space : Bytes} (hs : space.all isSpace) {close : UInt8}
    (hc : close = 93 ∨ close = 125) (rest : Bytes) : Ended (space ++ close :: rest) := by
  intro b hb
  rw [skipSpace_append hs, skipSpace_cons (by rcases hc with rfl | rfl <;> rfl)] at hb
  obtain rfl : close = b := by simpa using hb
  exact .inr hc

theorem ended_comma (rest : Bytes) : Ended (44 :: rest) := by
  intro b hb
  rw [skipSpace_cons rfl] at hb
  exact .inl (by simpa using hb.symm)

theorem Ended.not_numberByte {rest : Bytes} (h : Ended rest) :
    ∀ b ∈ rest.head?, isNumberByte b = false := by
  intro b hb
  obtain ⟨rest, rfl⟩ := List.head?_eq_some_iff.mp hb
  cases hc : isSpace b with
  | true =>
    simp only [isSpace, Bool.or_eq_true, decide_eq_true_eq] at hc
    rcases hc with ((rfl | rfl) | rfl) | rfl <;> rfl
  | false =>
    have hh := h b (by rw [skipSpace_cons hc]; rfl)
    rcases hh with rfl | rfl | rfl <;> rfl

end RasterRuntime.JsonText
