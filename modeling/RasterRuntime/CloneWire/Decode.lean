import RasterRuntime.CloneWire.Encode

/-! # Decoding a node table

`decode_index` builds the value at an index. What it builds is kept in a cache, so that an index
that occurs again gives the same object; arrays and objects are cached before their contents are
built, maps and sets after. An array buffer is given the bytes of the first transfer, if there is
one. -/

namespace RasterRuntime.CloneWire

open RasterRuntime.Graph Js Text

/-- What the decoder asks of the engine: the number of `BigInt('…')`, whether `new RegExp` accepts a
source and flags, and whether a block of shared memory is registered and can be viewed. -/
structure Engine where
  bigInt : List Char → Option Int
  regExp : JsString → JsString → Bool
  sharedBlock : UInt64 → Bool
  sharedView : UInt64 → UInt32 → UInt32 → List Char → Bool

/-- The objects allocated so far, and what was built for each index. -/
structure DecodeState where
  heap : Heap
  cache : ℕ → Option (Value ℕ)

def DecodeState.init : DecodeState := ⟨[], fun _ => none⟩

abbrev Decoder (α : Type) := DecodeState → Except CloneError (α × DecodeState)

/-- A new object. -/
def alloc (o : Obj ℕ) (s : DecodeState) : Value ℕ × DecodeState :=
  (.ref s.heap.length, { s with heap := s.heap ++ [o] })

def DecodeState.fill (s : DecodeState) (idx : ℕ) (v : Value ℕ) : DecodeState :=
  { s with cache := fun i => if i = idx then some v else s.cache i }

/-- `array.set(i, v)`. -/
def DecodeState.setItem (s : DecodeState) (b i : ℕ) (v : Value ℕ) : DecodeState :=
  { s with heap := s.heap.setItem b i v }

/-- `object.set(key, v)`. -/
def DecodeState.setProp (s : DecodeState) (b : ℕ) (k : JsString) (v : Value ℕ) : DecodeState :=
  { s with heap := s.heap.setProp b k v }

section loops

variable (dec : ℕ → Decoder (Value ℕ))

/-- The loop over the contents of an array or an object: each is built and put in its place. -/
def decodeEach {κ : Type} (put : κ → Value ℕ → DecodeState → DecodeState) :
    List (κ × UInt32) → DecodeState → Except CloneError DecodeState
  | [], s => .ok s
  | (k, id) :: rest, s => do
    let (v, s1) ← dec id.toNat s
    decodeEach put rest (put k v s1)

/-- The elements of the array `b`, `indices.iter().enumerate()`. -/
def decodeItems (b : ℕ) (ids : List UInt32) : DecodeState → Except CloneError DecodeState :=
  decodeEach dec (fun i v s => s.setItem b i v) ((List.range ids.length).zip ids)

/-- The properties of the object `b`. -/
def decodeProps (b : ℕ) (props : List (List Char × UInt32)) :
    DecodeState → Except CloneError DecodeState :=
  decodeEach dec (fun k v s => s.setProp b (Utf16.encode k) v) props

/-- The entries of a map. -/
def decodePairs : List (UInt32 × UInt32) → Decoder (List (Value ℕ × Value ℕ))
  | [], s => .ok ([], s)
  | (k, v) :: pairs, s => do
    let (k', s1) ← dec k.toNat s
    let (v', s2) ← dec v.toNat s1
    let (es, s3) ← decodePairs pairs s2
    .ok ((k', v') :: es, s3)

/-- The items of a set. -/
def decodeValues : List UInt32 → Decoder (List (Value ℕ))
  | [], s => .ok ([], s)
  | id :: ids, s => do
    let (v, s1) ← dec id.toNat s
    let (vs, s2) ← decodeValues ids s1
    .ok (v :: vs, s2)

variable (e : Engine) (transfers : List (List UInt8))

/-- The match of `decode_at`, with `dec` for its recursive calls. -/
def decodeNode (idx : ℕ) : WireNode → Decoder (Value ℕ)
  | .ref id, s => dec id.toNat s
  | .undefined, s => .ok (.atom .undefined, s)
  | .null, s => .ok (.atom .null, s)
  | .bool b, s => .ok (.atom (.bool b), s)
  | .number n, s => .ok (.atom (.number n), s)
  | .string cs, s => .ok (.atom (.string (Utf16.encode cs)), s)
  | .bigInt cs, s =>
    match e.bigInt cs with
    | some n => .ok (.atom (.bigInt n), s)
    | none => .error .engine
  | .date t, s => .ok (alloc (.date t) s)
  | .regExp source flags, s =>
    if e.regExp (Utf16.encode source) (Utf16.encode flags) then
      .ok (alloc (.regExp (Utf16.encode source) (Utf16.encode flags)) s)
    else .error .engine
  | .error message, s => .ok (alloc (.error (Utf16.encode message)) s)
  | .arrayBufferCopy bytes, s => .ok (alloc (.arrayBuffer (transfers.headD bytes)) s)
  | .sharedArrayBuffer id, s =>
    if e.sharedBlock id then .ok (alloc (.sharedArrayBuffer id) s) else .error .engine
  | .sharedView id byteOffset byteLength viewName, s =>
    if e.sharedView id byteOffset byteLength viewName then
      .ok (alloc (.sharedView id byteOffset byteLength (Utf16.encode viewName)) s)
    else .error .engine
  | .array ids, s => do
    let (array, s1) := alloc (.array []) s
    let s2 ← decodeItems dec s.heap.length ids (s1.fill idx array)
    .ok (array, s2)
  | .object props, s => do
    let (object, s1) := alloc (.object []) s
    let s2 ← decodeProps dec s.heap.length props (s1.fill idx object)
    .ok (object, s2)
  | .map pairs, s => do
    let (entries, s1) ← decodePairs dec pairs s
    .ok (alloc (.map (mapFrom entries)) s1)
  | .set ids, s => do
    let (items, s1) ← decodeValues dec ids s
    .ok (alloc (.set (setFrom items)) s1)

end loops

/-- `if cache[idx].is_none() { cache[idx] = Some(value) }`. -/
def DecodeState.fillEmpty (s : DecodeState) (idx : ℕ) (v : Value ℕ) : DecodeState :=
  match s.cache idx with
  | none => s.fill idx v
  | some _ => s

section

variable (e : Engine) (nodes : List WireNode) (transfers : List (List UInt8))

/-- `decode_at`, to the depth `n` of its recursion. A reference to another index is not cached. -/
def decodeAt : ℕ → ℕ → Decoder (Value ℕ)
  | 0, _, _ => .error .stack
  | n + 1, idx, s =>
    match s.cache idx with
    | some v => .ok (v, s)
    | none =>
      match nodes[idx]? with
      | none => .error .panic
      | some (.ref id) => decodeAt n id.toNat s
      | some node => do
        let (v, s') ← decodeNode (decodeAt n) e transfers idx node s
        .ok (v, s'.fillEmpty idx v)

/-- `decode_index`. In a recursion that is deeper than this, an index comes again with no array or
object made in between, and it goes on for ever. -/
def decodeIndex (idx : UInt32) : Except CloneError (Value ℕ × DecodeState) :=
  decodeAt e nodes transfers ((nodes.length + 1) ^ 2) idx.toNat .init

end

end RasterRuntime.CloneWire
