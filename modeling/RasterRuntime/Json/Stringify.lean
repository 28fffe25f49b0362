import Mathlib.Data.Int.Notation
import RasterRuntime.Json.Escape

/-! # JSON.stringify

The text is written while the value is gone through. Every value first goes to `write_primitive`,
which runs the replacer, writes the comma, the key and a primitive, and says what is left to do.
Arrays and objects are then gone through by `iterate`, and an object with a method `toJSON` is
replaced by what the method returns. Reads of properties and calls of functions may run any code:
they are operations of the engine on a world.

The ancestors of an object are noted from a fixed depth on, the last one first here. The recursion
has a bound, and stops with `fuel` where it is reached. -/

namespace RasterRuntime.Json

/-- A value as the engine reports its type. Strings are given by their UTF-8 bytes, in which half of
a surrogate pair has three. A promise is an object of a type of its own, and nothing is read of
it. -/
inductive Val (F O : Type)
  | undefined
  | null
  | bool (b : Bool)
  | int (i : ℤ)
  | float (x : F)
  | string (s : Bytes)
  | bigint
  | symbol
  | function
  | promise
  | object (o : O)
  | array (o : O)
  deriving DecidableEq, Repr

/-- Floating point numbers and the text that is written for them. -/
class Numeral (F : Type) where
  isFinite : F → Bool
  ryu : F → Bytes

/-- What the engine does. -/
structure Engine (F O σ E : Type) where
  hasToJson : O → σ → Except E (Bool × σ)
  toJson : O → σ → Except E (Val F O × σ)
  keys : O → σ → List Bytes × σ
  get : O → Bytes → σ → Except E (Val F O × σ)
  length : O → σ → ℕ
  item : O → ℕ → σ → Except E (Val F O × σ)
  /-- A new object with the value under the empty key. -/
  holder : Val F O → σ → O × σ

/-- Why no text is returned. -/
inductive Stop (E : Type)
  /-- A read or a call has thrown. -/
  | thrown (e : E)
  | bigint
  | circular (message : Bytes)
  | panic
  | fuel
  deriving DecidableEq, Repr

/-- A function that replaces values. -/
abbrev ReplacerFn (F O σ E : Type) := O → Bytes → Val F O → σ → Except E (Val F O × σ)

/-- The two kinds of replacers; there is one of them at most. -/
structure Replacing (F O σ E : Type) where
  replacerFn : Option (ReplacerFn F O σ E)
  includeKeys : Option (List Bytes)

/-- The place of a value. -/
structure Slot (O : Type) where
  depth : ℕ
  indentation : Option Bytes
  key : Option Bytes
  index : Option ℕ
  parent : Option O

/-- The world, what has been written, and the ancestors with their keys, the last one first. -/
structure Writer (O σ : Type) where
  world : σ
  result : Bytes
  ancestors : List (O × Bytes)

inductive PrimitiveStatus (F O : Type)
  | written
  | ignored
  | iterate (newValue : Option (Val F O))

variable {F O σ E : Type}

def Writer.push (w : Writer O σ) (text : Bytes) : Writer O σ :=
  { w with result := w.result ++ text }

def circularRefDetectionDepth : ℕ := 20

/-- What a read or a call has thrown ends the writing. -/
def Stop.ofThrown {α : Type} : Except E α → Except (Stop E) α
  | .ok a => .ok a
  | .error e => .error (.thrown e)

def Stop.ofPanic {α : Type} : Option α → Except (Stop E) α
  | some a => .ok a
  | none => .error .panic

/-! ### Texts -/

/-- The digits of a number. -/
def digitsOf : ℕ → ℕ → Bytes
  | 0, _ => []
  | fuel + 1, n =>
    if n < 10 then [UInt8.ofNat (48 + n)] else digitsOf fuel (n / 10) ++ [UInt8.ofNat (48 + n % 10)]

def natText (n : ℕ) : Bytes := digitsOf (n + 1) n

def itoa (i : ℤ) : Bytes := if i < 0 then 45 :: natText i.natAbs else natText i.natAbs

/-- A text without a final `.0`. -/
def shorten (text : Bytes) : Bytes :=
  if text.drop (text.length - 2) = ascii ".0" then text.take (text.length - 2) else text

def floatText [Numeral F] (x : F) : Bytes :=
  if Numeral.isFinite x then shorten (Numeral.ryu x) else ascii "null"

def writeString (s : Bytes) : Option Bytes :=
  (escapeJsonString s).map fun text => ascii "\"" ++ text ++ ascii "\""

def writeKey (key : Bytes) (indent : Bool) : Option Bytes :=
  (escapeJsonString key).map fun text =>
    ascii "\"" ++ text ++ ascii "\":" ++ (if indent then ascii " " else [])

def writeSep (addComma hasIndentation : Bool) : Bytes :=
  (if addComma then ascii "," else []) ++ (if hasIndentation then ascii "\n" else [])

def repeated (indentation : Bytes) (n : ℕ) : Bytes := (List.replicate n indentation).flatten

def optionalKey (key : Option Bytes) (indent : Bool) : Option Bytes :=
  match key with
  | some key => writeKey key indent
  | none => some []

/-- What comes before a value. -/
def separators (slot : Slot O) (addComma : Bool) : Option Bytes :=
  match slot.indentation with
  | some indentation =>
    (optionalKey slot.key true).map fun key =>
      writeSep addComma true ++ repeated indentation slot.depth ++ key
  | none => (optionalKey slot.key false).map fun key => writeSep addComma false ++ key

def writeIndentation (indentation : Option Bytes) (depth : ℕ) : Bytes :=
  match indentation with
  | some indentation => ascii "\n" ++ repeated indentation (depth - 1)
  | none => []

def getKeyOrIndex (key : Option Bytes) (index : Option ℕ) : Bytes :=
  key.getD (natText (index.getD 0))

/-! ### Primitives -/

/-- The values that have no text. -/
def Val.isOmitted : Val F O → Bool
  | .symbol => true
  | .undefined => true
  | .function => true
  | _ => false

def Val.isBigint : Val F O → Bool
  | .bigint => true
  | _ => false

def Val.isNested : Val F O → Bool
  | .object _ => true
  | .array _ => true
  | _ => false

/-- The text of a primitive; nothing for what is left to `iterate`. -/
def primitiveText [Numeral F] : Val F O → Option (Option Bytes)
  | .null => some (some (ascii "null"))
  | .undefined => some (some (ascii "null"))
  | .bool b => some (some (ascii (if b then "true" else "false")))
  | .int i => some (some (itoa i))
  | .float x => some (some (floatText x))
  | .string s => (writeString s).map some
  | _ => some none

def writePrimitive2 [Numeral F] (replacing : Replacing F O σ E) (slot : Slot O) (value : Val F O)
    (addComma : Bool) (newValue : Option (Val F O)) (w : Writer O σ) :
    Except (Stop E) (PrimitiveStatus F O × Writer O σ) :=
  let v := newValue.getD value
  if slot.index.isNone && v.isOmitted then .ok (.ignored, w)
  else if v.isBigint then .error .bigint
  else if replacing.includeKeys.any (!·.contains (getKeyOrIndex slot.key slot.index)) then
    .ok (.ignored, w)
  else do
    let before ← Stop.ofPanic (separators slot addComma)
    match ← Stop.ofPanic (primitiveText v) with
    | some text => .ok (.written, (w.push before).push text)
    | none => .ok (.iterate newValue, w.push before)

def runReplacer [Numeral F] (engine : Engine F O σ E) (replacing : Replacing F O σ E)
    (replacerFn : ReplacerFn F O σ E) (slot : Slot O) (value : Val F O) (addComma : Bool)
    (w : Writer O σ) : Except (Stop E) (PrimitiveStatus F O × Writer O σ) := do
  let (parent, world) :=
    match slot.parent with
    | some parent => (parent, w.world)
    | none => engine.holder value w.world
  let (newValue, world) ←
    Stop.ofThrown (replacerFn parent (getKeyOrIndex slot.key slot.index) value world)
  writePrimitive2 replacing slot value addComma (some newValue) { w with world := world }

def writePrimitive [Numeral F] (engine : Engine F O σ E) (replacing : Replacing F O σ E)
    (slot : Slot O) (value : Val F O) (addComma : Bool) (w : Writer O σ) :
    Except (Stop E) (PrimitiveStatus F O × Writer O σ) :=
  match replacing.replacerFn with
  | some replacerFn => runReplacer engine replacing replacerFn slot value addComma w
  | none => writePrimitive2 replacing slot value addComma none w

/-! ### Circular references -/

def startsWithBracket (key : Bytes) : Bool := key.head? = some 91

/-- A key of the path in the message. -/
def dotted (key : Bytes) : Bytes := (if startsWithBracket key then [] else ascii ".") ++ key

/-- The message names the last four keys but the first, and then the first. -/
def circularMessage (keys : List Bytes) : Bytes :=
  let later := keys.tail
  ascii "Circular reference detected at: \".." ++
    (later.drop (later.length - 4)).flatMap dotted ++ dotted (keys.head?.getD []) ++ ascii "\""

def detectCircularReference [DecidableEq O] (slot : Slot O) (o : O) (w : Writer O σ) :
    Except (Stop E) (Writer O σ) :=
  let ancestors := w.ancestors.dropWhile fun a => some a.1 ≠ slot.parent
  if ancestors.any (·.1 = o) then
    .error (.circular (circularMessage (ancestors.reverse.map Prod.snd)))
  else
    let key := slot.key.getD (ascii "[" ++ natText (slot.index.getD 0) ++ ascii "]")
    .ok { w with ancestors := (o, key) :: ancestors }

/-- The reference is looked for at this depth. -/
def watchCircular [DecidableEq O] (slot : Slot O) (o : O) (w : Writer O σ) :
    Except (Stop E) (Writer O σ) :=
  if circularRefDetectionDepth < slot.depth then detectCircularReference slot o w else .ok w

/-! ### Arrays and objects -/

/-- A function that goes through an array or an object. -/
abbrev Iterate (F O σ E : Type) :=
  Slot O → Val F O → Option (Val F O) → Writer O σ → Except (Stop E) (Writer O σ)

section Nested

variable [Numeral F] [DecidableEq O] (engine : Engine F O σ E) (replacing : Replacing F O σ E)

def appendValue (iterate : Iterate F O σ E) (slot : Slot O) (value : Val F O) (addComma : Bool)
    (w : Writer O σ) : Except (Stop E) (Bool × Writer O σ) := do
  let (status, w) ← writePrimitive engine replacing slot value addComma w
  match status with
  | .written => .ok (true, w)
  | .ignored => .ok (false, w)
  | .iterate newValue => do
    let w ← iterate { slot with depth := slot.depth + 1 } value newValue w
    .ok (true, w)

/-- The members of an object. A comma comes before a member if one was written before. -/
def members (iterate : Iterate F O σ E) (slot : Slot O) (o : O) :
    List Bytes → Bool → Writer O σ → Except (Stop E) (Bool × Writer O σ)
  | [], valueWritten, w => .ok (valueWritten, w)
  | key :: keys, valueWritten, w => do
    let (value, world) ← Stop.ofThrown (engine.get o key w.world)
    let (addComma, w) ← appendValue engine replacing iterate
      { slot with key := some key, index := none, parent := some o } value valueWritten
      { w with world := world }
    members iterate slot o keys (valueWritten || addComma) w

/-- The elements of an array. A comma comes before an element if the one before it was written. -/
def elements (iterate : Iterate F O σ E) (slot : Slot O) (o : O) :
    List ℕ → Bool → Bool → Writer O σ → Except (Stop E) (Bool × Writer O σ)
  | [], _, valueWritten, w => .ok (valueWritten, w)
  | i :: is, addComma, valueWritten, w => do
    let (value, world) ← Stop.ofThrown (engine.item o i w.world)
    let (addComma, w) ← appendValue engine replacing iterate
      { slot with key := none, index := some i, parent := some o } value addComma
      { w with world := world }
    elements iterate slot o is addComma (valueWritten || addComma) w

def runToJson (iterate : Iterate F O σ E) (slot : Slot O) (o : O) (w : Writer O σ) :
    Except (Stop E) (Writer O σ) := do
  let (value, world) ← Stop.ofThrown (engine.toJson o w.world)
  let indentation := if value.isNested then slot.indentation else none
  let (_, w) ← appendValue engine replacing iterate
    { depth := slot.depth
      indentation := indentation
      key := none
      index := none
      parent := some o }
    value false { w with world := world }
  .ok w

/-- The end of an array or an object. -/
def closing (slot : Slot O) (valueWritten : Bool) (bracket : String) : Bytes :=
  (if valueWritten then writeIndentation slot.indentation slot.depth else []) ++ ascii bracket

def iterateObject (iterate : Iterate F O σ E) (slot : Slot O) (o : O) (w : Writer O σ) :
    Except (Stop E) (Writer O σ) := do
  let w ← watchCircular slot o w
  let (keys, world) := engine.keys o w.world
  let (valueWritten, w) ← members engine replacing iterate slot o keys false
    { w.push (ascii "\x7b") with world := world }
  .ok (w.push (closing slot valueWritten "\x7d"))

def iterateArray (iterate : Iterate F O σ E) (slot : Slot O) (o : O) (w : Writer O σ) :
    Except (Stop E) (Writer O σ) := do
  let w ← watchCircular slot o (w.push (ascii "["))
  let (valueWritten, w) ← elements engine replacing iterate slot o
    (List.range (engine.length o w.world)) false false w
  .ok (w.push (closing slot valueWritten "]"))

def iterate : ℕ → Iterate F O σ E
  | 0 => fun _ value newValue w =>
    if (newValue.getD value).isNested then .error .fuel else .ok w
  | fuel + 1 => fun slot value newValue w =>
    match newValue.getD value with
    | .object o => do
      let (has, world) ← Stop.ofThrown (engine.hasToJson o w.world)
      if has then runToJson engine replacing (iterate fuel) slot o { w with world := world }
      else iterateObject engine replacing (iterate fuel) slot o { w with world := world }
    | .array o => iterateArray engine replacing (iterate fuel) slot o w
    | _ => .ok w

end Nested

/-! ### The whole value -/

/-- A replacer as it is given. -/
inductive ReplacerArg (F O σ E : Type)
  | function (call : ReplacerFn F O σ E)
  | array (o : O)
  | other

/-- The key that an entry of an array of keys stands for. -/
def filterKey [Numeral F] : Val F O → Option Bytes
  | .string s => some s
  | .int i => some (itoa i)
  | .float x => some (Numeral.ryu x)
  | _ => none

def filterKeys [Numeral F] (engine : Engine F O σ E) (o : O) :
    List ℕ → σ → Except (Stop E) (List Bytes × σ)
  | [], world => .ok ([], world)
  | i :: is, world => do
    let (value, world) ← Stop.ofThrown (engine.item o i world)
    let (keys, world) ← filterKeys engine o is world
    .ok ((filterKey value).toList ++ keys, world)

def readReplacer [Numeral F] (engine : Engine F O σ E) (world : σ) :
    Option (ReplacerArg F O σ E) → Except (Stop E) (Replacing F O σ E × σ)
  | some (.function call) => .ok (⟨some call, none⟩, world)
  | some (.array o) => do
    let (keys, world) ← filterKeys engine o (List.range (engine.length o world)) world
    .ok (⟨none, some keys⟩, world)
  | _ => .ok (⟨none, none⟩, world)

def jsonStringifyReplacerSpace [Numeral F] [DecidableEq O] (fuel : ℕ) (engine : Engine F O σ E)
    (value : Val F O) (replacer : Option (ReplacerArg F O σ E)) (indentation : Option Bytes)
    (world : σ) : Except (Stop E) (Option Bytes) := do
  let (replacing, world) ← readReplacer engine world replacer
  let (status, w) ← writePrimitive engine replacing ⟨0, none, none, none, none⟩ value false
    ⟨world, [], []⟩
  match status with
  | .written => .ok (some w.result)
  | .ignored => .ok none
  | .iterate _ => do
    let w ← iterate engine replacing fuel ⟨1, indentation, none, none, none⟩ value none w
    .ok (some w.result)

def jsonStringify [Numeral F] [DecidableEq O] (fuel : ℕ) (engine : Engine F O σ E)
    (value : Val F O) (world : σ) : Except (Stop E) (Option Bytes) :=
  jsonStringifyReplacerSpace fuel engine value none none world

end RasterRuntime.Json
