import Mathlib.Data.List.Sort
import RasterRuntime.QueryString.Codec

/-! # The module querystring

`stringify` writes the properties of an object as pairs; a property with an array of values is
written once for each of them. `parse` goes through the text once, with places in it for what is not
yet copied (`lastPos`), for how much of a separator has been seen (`sepIdx`, `eqIdx`), and with a
count that says whether an escape has been seen (`encodeCheck`), so that only keys and values with
escapes are decoded. -/

namespace RasterRuntime.QueryString

/-! ### Objects -/

/-- A value as `stringify` distinguishes it; `small` says that a number is written without an
exponent. -/
inductive Prim
  | string (s : Str)
  | number (finite small : Bool) (text : Str)
  | bigint (text : Str)
  | bool (b : Bool)
  | other
  deriving DecidableEq, Repr

inductive Value
  | prim (v : Prim)
  | array (items : List Prim)
  deriving DecidableEq, Repr

/-- The own properties of an object, in the order in which they were added. -/
abbrev Obj := List (Str × Value)

/-- The number of a key that is an array index. -/
def arrayIndex (key : Str) : Option ℕ :=
  let n := key.foldl (fun n c => 10 * n + (c.toNat - 48)) 0
  if key ≠ [] ∧ (key.all fun c => 48 ≤ c && c ≤ 57) = true ∧
    (key.length = 1 ∨ key.head? ≠ some 48) ∧
      n < 4294967295 then some n
  else none

/-- `Object.keys`: array indices come first, by their number. -/
def Obj.keys (obj : Obj) : List Str :=
  let names := obj.map Prod.fst
  (names.filter fun k => (arrayIndex k).isSome).mergeSort
      (fun a b => (arrayIndex a).getD 0 ≤ (arrayIndex b).getD 0) ++
    names.filter fun k => (arrayIndex k).isNone

def Obj.get (obj : Obj) (key : Str) : Option Value := obj.lookup key

def Obj.set : Obj → Str → Value → Obj
  | [], key, value => [(key, value)]
  | (k, v) :: obj, key, value =>
    if k = key then (k, value) :: obj else (k, v) :: Obj.set obj key value

/-! ### `stringify` -/

def stringifyPrimitive : Prim → Str
  | .string s => s
  | .number finite _ text => if finite then text else []
  | .bigint text => text
  | .bool b => units (if b then "true" else "false")
  | .other => []

/-- A function that encodes; nothing is returned where it throws. -/
abbrev Codec := Str → Option Str

def encodeStringified (v : Prim) (encode : Codec) : Option Str :=
  match v with
  | .string s => if s = [] then some [] else encode s
  | .number finite small text =>
    if finite then (if small then some text else encode text) else some []
  | .bigint text => some text
  | .bool b => some (units (if b then "true" else "false"))
  | .other => some []

def encodeStringifiedCustom (v : Prim) (encode : Codec) : Option Str :=
  encode (stringifyPrimitive v)

/-- An argument that may be missing or empty. -/
def orDefault (s : Option Str) (default : Str) : Str :=
  match s with
  | some s => if s = [] then default else s
  | none => default

section Stringify

variable (sep eq : Str) (convert : Prim → Option Str)

def withSep (fields : Str) : Str := if fields = [] then fields else fields ++ sep

/-- The loop over the values of a property. -/
def arrayLoop (ks : Str) : Bool → List Prim → Str → Option Str
  | _, [], fields => some fields
  | first, v :: vs, fields =>
    (convert v).bind fun text =>
      arrayLoop ks false vs ((if first then fields else fields ++ sep) ++ ks ++ text)

/-- The loop over the keys. -/
def keysLoop (obj : Obj) : List Str → Str → Option Str
  | [], fields => some fields
  | k :: keys, fields =>
    (convert (.string k)).bind fun ks =>
      match (obj.get k).getD (.prim .other) with
      | .array vs =>
        if vs = [] then keysLoop obj keys fields
        else
          (arrayLoop sep convert (ks ++ eq) true vs (withSep sep fields)).bind fun fields =>
            keysLoop obj keys fields
      | .prim v =>
        (convert v).bind fun text => keysLoop obj keys (withSep sep fields ++ (ks ++ eq) ++ text)

end Stringify

/-- Of an object, or of something else. -/
def stringify (obj : Option Obj) (sep eq : Option Str) (encode : Option Codec) : Option Str :=
  let convert := fun v =>
    match encode with
    | some encode => encodeStringifiedCustom v encode
    | none => encodeStringified v qsEscape
  match obj with
  | some obj =>
    keysLoop (orDefault sep (units "&")) (orDefault eq (units "=")) convert obj obj.keys []
  | none => some []

/-! ### `parse` -/

/-- What does not change during a call. -/
structure Parsing where
  qs : Str
  sepCodes : Str
  eqCodes : Str
  decode : Codec
  customDecode : Bool

structure Scan where
  obj : Obj
  pairs : ℤ
  lastPos : ℕ
  sepIdx : ℕ
  eqIdx : ℕ
  key : Str
  value : Str
  keyEncoded : Bool
  valEncoded : Bool
  encodeCheck : ℕ

/-- The loop goes on, or the call returns an object, or an error is thrown. -/
abbrev Scanned := Except (Option Obj) Scan

variable [Encoding.Codecs]

def decodeStr (s : Str) (decoder : Codec) : Option Str :=
  match decoder s with
  | some text => some text
  | none => qsUnescape s (some true)

/-- A key or a value, decoded if it has to be. -/
def decodePart (part : Str) (encoded : Bool) (decode : Codec) : Option Str :=
  if 0 < part.length && encoded then decodeStr part decode else some part

def addValue (obj : Obj) (key value : Str) : Obj :=
  match obj.get key with
  | none => obj.set key (.prim (.string value))
  | some (.array items) => obj.set key (.array (items ++ [.string value]))
  | some (.prim v) => obj.set key (.array [v, .string value])

def addKeyVal (obj : Obj) (key value : Str) (keyEncoded valEncoded : Bool) (decode : Codec) :
    Option Obj :=
  (decodePart key keyEncoded decode).bind fun key =>
    (decodePart value valEncoded decode).map fun value => addValue obj key value

namespace Parsing

variable (p : Parsing)

def slice (start stop : ℕ) : Str := (p.qs.take stop).drop start

def plusChar : Str := if p.customDecode then units "%20" else units " "

/-- The pair is added. -/
def addPair (i : ℕ) (s : Scan) : Scanned :=
  match addKeyVal s.obj s.key s.value s.keyEncoded s.valEncoded p.decode with
  | none => .error none
  | some obj =>
    if s.pairs - 1 = 0 then .error (some obj)
    else
      .ok { obj := obj, pairs := s.pairs - 1, lastPos := i + 1, sepIdx := 0, eqIdx := 0, key := [],
            value := []
            keyEncoded := p.customDecode
            valEncoded := p.customDecode
            encodeCheck := 0 }

/-- A separator of pairs ends at the place `i`. -/
def atSep (i : ℕ) (s : Scan) : Scanned :=
  let stop := i + 1 - s.sepIdx
  if s.eqIdx < p.eqCodes.length then
    if s.lastPos < stop then p.addPair i { s with key := s.key ++ p.slice s.lastPos stop }
    else if s.key = [] then
      if s.pairs - 1 = 0 then .error (some s.obj)
      else .ok { s with pairs := s.pairs - 1, lastPos := i + 1, sepIdx := 0, eqIdx := 0 }
    else p.addPair i s
  else if s.lastPos < stop then p.addPair i { s with value := s.value ++ p.slice s.lastPos stop }
  else p.addPair i s

/-- A code unit that is taken for one of a value. -/
def scanValue (i : ℕ) (code : UInt16) (s : Scan) : Scan :=
  if code = 43 then
    { s with value := s.value ++ (if s.lastPos < i then p.slice s.lastPos i else []) ++ p.plusChar
             lastPos := i + 1 }
  else if s.valEncoded then s
  else if code = 37 then { s with encodeCheck := 1 }
  else if 0 < s.encodeCheck then
    if isHexTable code then
      { s with encodeCheck := s.encodeCheck + 1, valEncoded := s.encodeCheck + 1 = 3 }
    else { s with encodeCheck := 0 }
  else s

/-- A code unit of a key that is not one of the separator, after the check for escapes. -/
def scanKeyRest (i : ℕ) (code : UInt16) (s : Scan) : Scan :=
  if code = 43 then
    { s with key := s.key ++ (if s.lastPos < i then p.slice s.lastPos i else []) ++ p.plusChar
             lastPos := i + 1 }
  else p.scanValue i code s

def scanKey (i : ℕ) (code : UInt16) (s : Scan) : Scan :=
  if s.keyEncoded then p.scanKeyRest i code s
  else if code = 37 then { s with encodeCheck := 1 }
  else if 0 < s.encodeCheck then
    if isHexTable code then
      { s with encodeCheck := s.encodeCheck + 1, keyEncoded := s.encodeCheck + 1 = 3 }
    else p.scanKeyRest i code { s with encodeCheck := 0 }
  else p.scanKeyRest i code s

/-- A code unit of the separator between key and value. -/
def atEq (i : ℕ) (s : Scan) : Scan :=
  if s.eqIdx + 1 = p.eqCodes.length then
    let stop := i + 1 - (s.eqIdx + 1)
    { s with key := s.key ++ (if s.lastPos < stop then p.slice s.lastPos stop else [])
             eqIdx := s.eqIdx + 1, encodeCheck := 0, lastPos := i + 1 }
  else { s with eqIdx := s.eqIdx + 1 }

/-- The body of the loop. -/
def step (i : ℕ) (code : UInt16) (s : Scan) : Scanned :=
  if p.sepCodes[s.sepIdx]? = some code then
    if s.sepIdx + 1 = p.sepCodes.length then p.atSep i { s with sepIdx := s.sepIdx + 1 }
    else .ok { s with sepIdx := s.sepIdx + 1 }
  else if s.eqIdx < p.eqCodes.length then
    if p.eqCodes[s.eqIdx]? = some code then .ok (p.atEq i { s with sepIdx := 0 })
    else .ok (p.scanKey i code { s with sepIdx := 0, eqIdx := 0 })
  else .ok (p.scanValue i code { s with sepIdx := 0 })

def loop : ℕ → Str → Scan → Scanned
  | _, [], s => .ok s
  | i, code :: rest, s => p.step i code s >>= loop (i + 1) rest

/-- After the loop. -/
def finish (s : Scan) : Option Obj :=
  if s.lastPos < p.qs.length then
    if s.eqIdx < p.eqCodes.length then
      addKeyVal s.obj (s.key ++ p.slice s.lastPos p.qs.length) s.value s.keyEncoded
        s.valEncoded p.decode
    else if s.sepIdx < p.sepCodes.length then
      addKeyVal s.obj s.key (s.value ++ p.slice s.lastPos p.qs.length) s.keyEncoded
        s.valEncoded p.decode
    else addKeyVal s.obj s.key s.value s.keyEncoded s.valEncoded p.decode
  else if s.eqIdx = 0 ∧ s.key = [] then some s.obj
  else addKeyVal s.obj s.key s.value s.keyEncoded s.valEncoded p.decode

/-- The state before the loop. -/
def start (pairs : ℤ) : Scan where
  obj := []
  pairs := pairs
  lastPos := 0
  sepIdx := 0
  eqIdx := 0
  key := []
  value := []
  keyEncoded := p.customDecode
  valEncoded := p.customDecode
  encodeCheck := 0

def run (pairs : ℤ) : Option Obj :=
  match p.loop 0 p.qs (p.start pairs) with
  | .ok s => p.finish s
  | .error r => r

end Parsing

/-- Of a string; nothing is returned where an error is thrown. -/
def parse (qs : Str) (sep eq : Option Str) (maxKeys : Option ℤ) (decode : Option Codec) :
    Option Obj :=
  if qs = [] then some []
  else
    let p : Parsing := ⟨qs, orDefault sep (units "&"), orDefault eq (units "="),
      decode.getD fun s => qsUnescape s none, decode.isSome⟩
    p.run (maxKeys.elim 1000 fun n => if 0 < n then n else -1)

end RasterRuntime.QueryString
