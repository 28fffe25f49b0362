import RasterRuntime.Text.Utf8
import RasterRuntime.Wire.Reader

/-! # The structured-clone wire format

`serialize` writes a node table as bytes and `deserialize` reads it back: the magic, the root index,
the number of nodes, the nodes. A node is a tag and its fields; numbers are big-endian, strings and
byte vectors come after their length. Lengths are cast to 32 bits when they are written, so a node
is read back only if they fit (`WireNode.fits`). -/

namespace RasterRuntime.CloneWire

open Text Wire

/-- A node of the table. A double is its 64-bit pattern. -/
inductive WireNode where
  | ref (id : UInt32)
  | undefined
  | null
  | bool (b : Bool)
  | number (n : UInt64)
  | string (s : List Char)
  | bigInt (s : List Char)
  | array (items : List UInt32)
  | object (props : List (List Char × UInt32))
  | date (t : UInt64)
  | regExp (source flags : List Char)
  | error (msg : List Char)
  | arrayBufferCopy (bytes : List UInt8)
  | map (pairs : List (UInt32 × UInt32))
  | set (items : List UInt32)
  | sharedArrayBuffer (id : UInt64)
  | sharedView (id : UInt64) (byteOffset byteLength : UInt32) (viewName : List Char)
deriving DecidableEq, Repr

/-- A message between isolates: the body and the buffers that travel beside it. -/
structure CloneWirePayload where
  body : List UInt8
  transfers : List (List UInt8)
deriving DecidableEq, Repr

/-- What reading can throw: a conversion error of the engine, or a `TypeError`. -/
inductive WireError where
  | fromJs (source target message : String)
  | type (message : String)
deriving DecidableEq, Repr

/-- The errors of the node reader. -/
def decodeError (message : String) : WireError := .fromJs "clone_wire" "decode" message

/-- `b"RSC1"`. -/
def magic : List UInt8 := [82, 83, 67, 49]

/-! ### Writing -/

def writeU32 (v : UInt32) : List UInt8 := u32Bytes v

def writeU64 (v : UInt64) : List UInt8 := u64Bytes v

/-- The pattern of a double is written as it is. -/
def writeF64 (v : UInt64) : List UInt8 := u64Bytes v

/-- A length, cast to 32 bits. -/
def writeLen (n : ℕ) : List UInt8 := writeU32 (UInt32.ofNat n)

def writeBytes (bytes : List UInt8) : List UInt8 := writeLen bytes.length ++ bytes

def writeString (s : List Char) : List UInt8 := writeBytes (Utf8.encode s)

/-- One property of an object. -/
def writeProp (p : List Char × UInt32) : List UInt8 := writeString p.1 ++ writeU32 p.2

/-- One entry of a map. -/
def writePair (p : UInt32 × UInt32) : List UInt8 := writeU32 p.1 ++ writeU32 p.2

def writeNode : WireNode → List UInt8
  | .ref id => [1] ++ writeU32 id
  | .undefined => [2]
  | .null => [3]
  | .bool b => [4] ++ [if b then 1 else 0]
  | .number n => [5] ++ writeF64 n
  | .string s => [6] ++ writeString s
  | .bigInt s => [7] ++ writeString s
  | .array items => [8] ++ (writeLen items.length ++ items.flatMap writeU32)
  | .object props => [9] ++ (writeLen props.length ++ props.flatMap writeProp)
  | .date t => [10] ++ writeF64 t
  | .regExp source flags => [11] ++ (writeString source ++ writeString flags)
  | .error msg => [12] ++ writeString msg
  | .arrayBufferCopy bytes => [13] ++ writeBytes bytes
  | .map pairs => [14] ++ (writeLen pairs.length ++ pairs.flatMap writePair)
  | .set items => [15] ++ (writeLen items.length ++ items.flatMap writeU32)
  | .sharedArrayBuffer id => [16] ++ writeU64 id
  | .sharedView id byteOffset byteLength viewName =>
    [17] ++ (writeU64 id ++ (writeU32 byteOffset ++ (writeU32 byteLength ++ writeString viewName)))

/-- The body `serialize` makes of the root index and the table. -/
def writeBody (root : UInt32) (nodes : List WireNode) : List UInt8 :=
  magic ++ (writeU32 root ++ (writeLen nodes.length ++ nodes.flatMap writeNode))

/-! ### Reading -/

/-- The bytes and the position of the reader in them. -/
structure Cursor where
  data : List UInt8
  pos : ℕ
  le : pos ≤ data.length
deriving DecidableEq, Repr

instance : Feed Cursor where
  left c := c.data.drop c.pos
  After bs c c' := c'.data = c.data ∧ c'.pos = c.pos + bs.length
  left_of_after := by
    intro bs rest c c' hl h
    rw [h.1, h.2, ← List.drop_drop, hl, List.drop_left]
  after_nil _ := ⟨rfl, rfl⟩
  after_append := by
    intro a b c c' c'' h h'
    rw [h'.1, h'.2, h.1, h.2, List.length_append, Nat.add_assoc]
    exact ⟨rfl, rfl⟩

abbrev WireReader := Reader Cursor WireError

def readU8 : WireReader UInt8 := fun c =>
  if h : c.pos ≥ c.data.length then .error (decodeError "Unexpected end of wire")
  else .ok (c.data[c.pos], { c with pos := c.pos + 1, le := Nat.not_le.mp h })

/-- `data[pos..pos + n]`, with the test that all readers make before it. -/
def slice (n : ℕ) : WireReader (List UInt8) := fun c =>
  if h : c.pos + n > c.data.length then .error (decodeError "Unexpected end of wire")
  else .ok ((c.data.drop c.pos).take n, { c with pos := c.pos + n, le := Nat.not_lt.mp h })

def readU32 : WireReader UInt32 := u32 slice

def readU64 : WireReader UInt64 := u64 slice

def readF64 : WireReader UInt64 := u64 slice

def readVec : WireReader (List UInt8) := do
  let len ← readU32
  slice len.toNat

def readString : WireReader (List Char) := do
  let bytes ← readVec
  match Utf8.fromUtf8 bytes with
  | .ok s => pure s
  | .error _ => throw (decodeError "Invalid UTF-8")

/-- `n` parts after their number. -/
def readList {α : Type} (r : WireReader α) : WireReader (List α) := do
  let n ← readU32
  many r n.toNat

def readProp : WireReader (List Char × UInt32) := do
  let k ← readString
  let id ← readU32
  pure (k, id)

def readPair : WireReader (UInt32 × UInt32) := do
  let k ← readU32
  let v ← readU32
  pure (k, v)

def readRegExp : WireReader WireNode := do
  let source ← readString
  let flags ← readString
  pure (.regExp source flags)

def readSharedView : WireReader WireNode := do
  let id ← readU64
  let byteOffset ← readU32
  let byteLength ← readU32
  let viewName ← readString
  pure (.sharedView id byteOffset byteLength viewName)

/-- The fields of a node with the tag. -/
def readFields (tag : UInt8) : WireReader WireNode :=
  match tag.toNat with
  | 1 => .ref <$> readU32
  | 2 => pure .undefined
  | 3 => pure .null
  | 4 => (fun b => .bool (b != 0)) <$> readU8
  | 5 => .number <$> readF64
  | 6 => .string <$> readString
  | 7 => .bigInt <$> readString
  | 8 => .array <$> readList readU32
  | 9 => .object <$> readList readProp
  | 10 => .date <$> readF64
  | 11 => readRegExp
  | 12 => .error <$> readString
  | 13 => .arrayBufferCopy <$> readVec
  | 14 => .map <$> readList readPair
  | 15 => .set <$> readList readU32
  | 16 => .sharedArrayBuffer <$> readU64
  | 17 => readSharedView
  | _ => throw (decodeError "Unknown wire node tag")

def readNode : WireReader WireNode := do
  let tag ← readU8
  readFields tag

/-- What `deserialize` reads after the magic. -/
def readTable : WireReader (UInt32 × List WireNode) := do
  let root ← readU32
  let nodes ← readList readNode
  pure (root, nodes)

/-- The reading part of `deserialize`: the root, the table and where the reader stopped. -/
def readBody (body : List UInt8) : Except WireError ((UInt32 × List WireNode) × Cursor) :=
  if h : body.length < 4 ∨ body.take 4 ≠ magic then
    .error (.type "Invalid structured-clone wire payload")
  else readTable ⟨body, 4, Nat.not_lt.mp fun hl => h (Or.inl hl)⟩

/-! ### Reading back -/

theorem Cursor.length_left (c : Cursor) : (Feed.left c).length = c.data.length - c.pos :=
  List.length_drop

theorem reads_u8 (b : UInt8) : Reads readU8 [b] b where
  whole := fun c rest h => by
    have hl := c.length_left
    rw [h, List.length_append, List.length_singleton] at hl
    have hlt : c.pos < c.data.length := by omega
    have hb : c.data[c.pos] = b := by
      have hd : c.data.drop c.pos = b :: rest := h
      rw [List.drop_eq_getElem_cons hlt, List.cons.injEq] at hd
      exact hd.1
    refine ⟨{ c with pos := c.pos + 1, le := hlt }, ?_, rfl, rfl⟩
    unfold readU8
    rw [dif_neg (by omega), hb]
  short := fun c hp hne => by
    have hl := c.length_left
    have hlt := hp.length_le
    have hne' : (Feed.left c).length ≠ 1 := fun h => hne (hp.eq_of_length h)
    rw [List.length_singleton] at hlt
    unfold readU8
    exact ⟨_, dif_pos (by omega)⟩

theorem takes_slice : Takes slice := fun bs =>
  { whole := fun c rest h => by
      have hl := c.length_left
      rw [h, List.length_append] at hl
      have hle := c.le
      refine ⟨{ c with pos := c.pos + bs.length, le := by omega }, ?_, rfl, rfl⟩
      unfold slice
      rw [dif_neg (by omega), show c.data.drop c.pos = _ from h, List.take_left]
    short := fun c hp hne => by
      have hl := c.length_left
      have hlt := hp.length_le
      have hne' : (Feed.left c).length ≠ bs.length := fun h => hne (hp.eq_of_length h)
      unfold slice
      exact ⟨_, dif_pos (by omega)⟩ }

theorem reads_u32 (v : UInt32) : Reads readU32 (writeU32 v) v := Reads.u32 takes_slice v

theorem reads_u64 (v : UInt64) : Reads readU64 (writeU64 v) v := Reads.u64 takes_slice v

theorem reads_f64 (v : UInt64) : Reads readF64 (writeF64 v) v := Reads.u64 takes_slice v

theorem reads_vec {bytes : List UInt8} (h : bytes.length < 2 ^ 32) :
    Reads readVec (writeBytes bytes) bytes :=
  Reads.len takes_slice h (k := slice) (takes_slice bytes)

theorem reads_string {s : List Char} (h : (Utf8.encode s).length < 2 ^ 32) :
    Reads readString (writeString s) s :=
  (reads_vec h).last (by rw [Utf8.fromUtf8_encode]; exact Reads.pure s)

theorem reads_list {α : Type} {r : WireReader α} {enc : α → List UInt8} {xs : List α}
    (hn : xs.length < 2 ^ 32) (h : ∀ x ∈ xs, Reads r (enc x) x) :
    Reads (readList r) (writeLen xs.length ++ xs.flatMap enc) xs :=
  Reads.len takes_slice hn (k := many r) (Reads.many xs h)

theorem reads_prop {p : List Char × UInt32} (h : (Utf8.encode p.1).length < 2 ^ 32) :
    Reads readProp (writeProp p) p :=
  (reads_string h).bind ((reads_u32 p.2).last (Reads.pure p))

theorem reads_pair (p : UInt32 × UInt32) : Reads readPair (writePair p) p :=
  (reads_u32 p.1).bind ((reads_u32 p.2).last (Reads.pure p))

/-! ### Nodes and bodies -/

/-- The bytes of a string are fewer than 2^32. -/
def stringFits (s : List Char) : Bool := (Utf8.encode s).length < 2 ^ 32

/-- All lengths and counts of the node are below 2^32. -/
def WireNode.fits : WireNode → Bool
  | .string s | .bigInt s | .error s | .sharedView _ _ _ s => stringFits s
  | .array items | .set items => items.length < 2 ^ 32
  | .object props => props.length < 2 ^ 32 && props.all fun p => stringFits p.1
  | .regExp source flags => stringFits source && stringFits flags
  | .arrayBufferCopy bytes => bytes.length < 2 ^ 32
  | .map pairs => pairs.length < 2 ^ 32
  | .ref _ | .undefined | .null | .bool _ | .number _ | .date _ | .sharedArrayBuffer _ => true

theorem reads_tag (tag : UInt8) {bs : List UInt8} {n : WireNode} (h : Reads (readFields tag) bs n) :
    Reads readNode ([tag] ++ bs) n :=
  (reads_u8 tag).bind h

/-- **Every kind of node is read back.** -/
theorem reads_node (n : WireNode) (h : n.fits) : Reads readNode (writeNode n) n := by
  cases n with
  | ref id => exact reads_tag 1 ((reads_u32 id).map WireNode.ref)
  | undefined => exact reads_tag 2 (Reads.pure WireNode.undefined)
  | null => exact reads_tag 3 (Reads.pure WireNode.null)
  | bool b =>
    have hb := (reads_u8 (if b then 1 else 0)).map (fun b => WireNode.bool (b != 0))
    rw [show ((if b then 1 else 0 : UInt8) != 0) = b by cases b <;> rfl] at hb
    exact reads_tag 4 hb
  | number n => exact reads_tag 5 ((reads_f64 n).map WireNode.number)
  | string s => exact reads_tag 6 ((reads_string (of_decide_eq_true h)).map WireNode.string)
  | bigInt s => exact reads_tag 7 ((reads_string (of_decide_eq_true h)).map WireNode.bigInt)
  | array items =>
    exact reads_tag 8 ((reads_list (of_decide_eq_true h) fun x _ => reads_u32 x).map WireNode.array)
  | object props =>
    unfold WireNode.fits at h
    rw [Bool.and_eq_true, List.all_eq_true] at h
    have hp := reads_list (of_decide_eq_true h.1) fun p hp =>
      reads_prop (of_decide_eq_true (h.2 p hp))
    exact reads_tag 9 (hp.map WireNode.object)
  | date t => exact reads_tag 10 ((reads_f64 t).map WireNode.date)
  | regExp source flags =>
    unfold WireNode.fits at h
    rw [Bool.and_eq_true] at h
    refine reads_tag 11 ((reads_string (of_decide_eq_true h.1)).bind ?_)
    exact (reads_string (of_decide_eq_true h.2)).last (Reads.pure (WireNode.regExp source flags))
  | error msg => exact reads_tag 12 ((reads_string (of_decide_eq_true h)).map WireNode.error)
  | arrayBufferCopy bytes =>
    exact reads_tag 13 ((reads_vec (of_decide_eq_true h)).map WireNode.arrayBufferCopy)
  | map pairs =>
    exact reads_tag 14 ((reads_list (of_decide_eq_true h) fun p _ => reads_pair p).map WireNode.map)
  | set items =>
    exact reads_tag 15 ((reads_list (of_decide_eq_true h) fun x _ => reads_u32 x).map WireNode.set)
  | sharedArrayBuffer id => exact reads_tag 16 ((reads_u64 id).map WireNode.sharedArrayBuffer)
  | sharedView id byteOffset byteLength viewName =>
    refine reads_tag 17 ((reads_u64 id).bind ((reads_u32 byteOffset).bind
      ((reads_u32 byteLength).bind ?_)))
    exact (reads_string (of_decide_eq_true h)).last
      (Reads.pure (WireNode.sharedView id byteOffset byteLength viewName))

theorem reads_table (root : UInt32) {nodes : List WireNode} (hn : nodes.length < 2 ^ 32)
    (h : ∀ n ∈ nodes, n.fits) :
    Reads readTable (writeU32 root ++ (writeLen nodes.length ++ nodes.flatMap writeNode))
      (root, nodes) :=
  (reads_u32 root).bind
    ((reads_list hn fun n hm => reads_node n (h n hm)).last (Reads.pure (root, nodes)))

theorem readBody_magic (bs : List UInt8) : ∃ c : Cursor,
    readBody (magic ++ bs) = readTable c ∧ c.data = magic ++ bs ∧ c.pos = 4 ∧ Feed.left c = bs := by
  have hl : 4 ≤ (magic ++ bs).length := by
    rw [List.length_append]
    exact Nat.le_add_right 4 _
  refine ⟨⟨magic ++ bs, 4, hl⟩, ?_, rfl, rfl, rfl⟩
  unfold readBody
  rw [dif_neg]
  rintro (h | h)
  · omega
  · exact h rfl

theorem readBody_of_not_magic {bs : List UInt8} (h : ¬ magic <+: bs) :
    ∃ e, readBody bs = .error e := by
  refine ⟨_, dif_pos (.inr fun hm => h ?_)⟩
  rw [← hm]
  exact List.take_prefix 4 bs

/-- **A body is read back whole, to its end; every strict prefix of it is refused.** -/
theorem readBody_writeBody (root : UInt32) (nodes : List WireNode) (hn : nodes.length < 2 ^ 32)
    (h : ∀ n ∈ nodes, n.fits = true) :
    (∃ c, readBody (writeBody root nodes) = .ok ((root, nodes), c) ∧
      c.data = writeBody root nodes ∧ c.pos = (writeBody root nodes).length) ∧
    ∀ p, p <+: writeBody root nodes → p ≠ writeBody root nodes → ∃ e, readBody p = .error e := by
  have hr := reads_table root hn h
  refine ⟨?_, fun p hp hne => ?_⟩
  · obtain ⟨c, hc, hd, hpos, hl⟩ := readBody_magic
      (writeU32 root ++ (writeLen nodes.length ++ nodes.flatMap writeNode))
    obtain ⟨c', hok, hd', hpos'⟩ := hr.whole c [] (by rw [hl, List.append_nil])
    have hw : (writeBody root nodes).length =
        4 + (writeU32 root ++ (writeLen nodes.length ++ nodes.flatMap writeNode)).length :=
      List.length_append
    exact ⟨c', hc.trans hok, hd'.trans hd, by rw [hpos', hpos, hw]⟩
  · by_cases hm : magic <+: p
    · obtain ⟨q, rfl⟩ := hm
      unfold writeBody at hp hne
      obtain ⟨c, hc, _, _, hl⟩ := readBody_magic q
      rw [hc]
      refine hr.short c ?_ ?_
      · rw [hl]
        exact (List.prefix_append_right_inj magic).mp hp
      · rw [hl]
        exact fun he => hne (by rw [he])
    · exact readBody_of_not_magic hm

/-- A table with a cycle, a nested list and strings of several bytes. -/
theorem readBody_writeBody_cyclic :
    let nodes := [.object [("é".toList, 1), ([], 0)], .array [0, 2], .regExp "a".toList []]
    (∃ c, readBody (writeBody 0 nodes) = .ok ((0, nodes), c) ∧ c.data = writeBody 0 nodes ∧
      c.pos = (writeBody 0 nodes).length) ∧
    ∀ p, p <+: writeBody 0 nodes → p ≠ writeBody 0 nodes → ∃ e, readBody p = .error e :=
  readBody_writeBody 0 _ (by decide) (by decide)

end RasterRuntime.CloneWire
