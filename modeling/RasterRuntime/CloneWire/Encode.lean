import Mathlib.Data.Fintype.Card
import RasterRuntime.CloneWire.Codec
import RasterRuntime.Js.Strings

/-! # Encoding a value as a node table

`encode_index` gives every value an index in the node table. An object is entered in the memo before
its contents are encoded, with a placeholder at its index, so that a second reference to it, from
inside it or from elsewhere, gets the same index. The bytes of array buffers are also collected in
the list of transfers. -/

namespace RasterRuntime.CloneWire

open RasterRuntime.Graph Js Text

/-! ### Tables that grow -/

section

variable {K V : Type} {f g : K → Option V} (h : ∀ k v, f k = some v → g k = some v) (s : Finset K)
include h

theorem filter_none_subset :
    (s.filter fun k => g k = none) ⊆ s.filter fun k => f k = none := by
  refine Finset.monotone_filter_right s fun k _ hk => ?_
  cases hf : f k with
  | none => rfl
  | some v => cases (h k v hf).symm.trans hk

theorem card_none_le :
    (s.filter fun k => g k = none).card ≤ (s.filter fun k => f k = none).card :=
  Finset.card_le_card (filter_none_subset h s)

theorem card_none_lt {k : K} {v : V} (hk : k ∈ s) (hf : f k = none) (hg : g k = some v) :
    (s.filter fun k => g k = none).card < (s.filter fun k => f k = none).card := by
  refine Finset.card_lt_card
    ((Finset.ssubset_iff_of_subset (filter_none_subset h s)).mpr ⟨k, ?_, ?_⟩)
  · exact Finset.mem_filter.mpr ⟨hk, hf⟩
  · intro hm
    cases hg.symm.trans (Finset.mem_filter.mp hm).2

end

section

variable {P : Type}

/-- What is collected while encoding. -/
structure EncodeState (P : Type) where
  nodes : List WireNode
  memo : P → Option UInt32
  transfers : List (List UInt8)

/-- Nothing is encoded yet. -/
def EncodeState.init : EncodeState P := ⟨[], fun _ => none, []⟩

/-- The index of the next node, cast to 32 bits. -/
def EncodeState.nextIndex (s : EncodeState P) : UInt32 := UInt32.ofNat s.nodes.length

def EncodeState.push (s : EncodeState P) (node : WireNode) : EncodeState P :=
  { s with nodes := s.nodes ++ [node] }

/-- The object gets the next index, and a placeholder there. -/
def EncodeState.enter [DecidableEq P] (s : EncodeState P) (p : P) : EncodeState P :=
  { s with
    nodes := s.nodes ++ [.null]
    memo := fun q => if q = p then some s.nextIndex else s.memo q }

def EncodeState.setNode (s : EncodeState P) (idx : UInt32) (node : WireNode) : EncodeState P :=
  { s with nodes := s.nodes.set idx.toNat node }

def encodePrim : Prim → Except CloneError WireNode
  | .undefined => .ok .undefined
  | .null => .ok .null
  | .bool b => .ok (.bool b)
  | .number n => .ok (.number n)
  | .string s => do
    let cs ← toStdString s
    .ok (.string cs)
  | .bigInt _ => .error (.type "BigInt cannot be cloned across worker processes yet")
  | .symbol _ => .ok .undefined

abbrev Encoder (P α : Type) := EncodeState P → Except CloneError (α × EncodeState P)

section loops

variable (enc : Value P → Encoder P UInt32)

def encodeItems : List (Value P) → Encoder P (List UInt32)
  | [], s => .ok ([], s)
  | v :: vs, s => do
    let (id, s1) ← enc v s
    let (ids, s2) ← encodeItems vs s1
    .ok (id :: ids, s2)

def encodePairs : List (Value P × Value P) → Encoder P (List (UInt32 × UInt32))
  | [], s => .ok ([], s)
  | e :: es, s => do
    let (k, s1) ← enc e.1 s
    let (v, s2) ← enc e.2 s1
    let (pairs, s3) ← encodePairs es s2
    .ok ((k, v) :: pairs, s3)

/-- The objects of `encode_node_inner`, with `enc` for its calls of `encode_index`. -/
def encodeObj : Obj P → Encoder P WireNode
  | .array items, s => do
    let (ids, s') ← encodeItems enc items s
    .ok (.array ids, s')
  | .date t, s => .ok (.date t, s)
  | .regExp source flags, s => do
    let source ← toStdString source
    let flags ← toStdString flags
    .ok (.regExp source flags, s)
  | .error message, s => .ok (.error ((Utf16.fromUtf16 message).getD []), s)
  | .sharedArrayBuffer id, s => .ok (.sharedArrayBuffer id, s)
  | .arrayBuffer bytes, s =>
    .ok (.arrayBufferCopy bytes, { s with transfers := s.transfers ++ [bytes] })
  | .map entries, s => do
    let (pairs, s') ← encodePairs enc entries s
    .ok (.map pairs, s')
  | .set items, s => do
    let (ids, s') ← encodeItems enc items s
    .ok (.set ids, s')
  | .sharedView id byteOffset byteLength viewName, s => do
    let viewName ← toStdString viewName
    .ok (.sharedView id byteOffset byteLength viewName, s)
  | .object props, s => do
    let keys ← encodeKeys (props.map Prod.fst)
    let (ids, s') ← encodeItems enc (props.map Prod.snd) s
    .ok (.object (keys.zip ids), s')
  | .function, _ => .error (.type "The object could not be cloned.")
  | .proxy, _ => .error (.type "The object could not be cloned.")

end loops

/-- `encode_index`, to the depth `n` of its recursion. -/
def encodeAt [DecidableEq P] (obj : P → Obj P) : ℕ → Value P → Encoder P UInt32
  | 0, _, _ => .error .stack
  | _ + 1, .atom a, s => do
    let node ← encodePrim a
    .ok (s.nextIndex, s.push node)
  | n + 1, .ref p, s =>
    match s.memo p with
    | some id => .ok (id, s)
    | none => do
      let (node, s') ← encodeObj (encodeAt obj n) (obj p) (s.enter p)
      .ok (s.nextIndex, s'.setNode s.nextIndex node)

/-- `encode_index` on a whole graph. Each level of the recursion enters another object in the memo,
so that it is no deeper than the number of objects. -/
def encodeIndex [DecidableEq P] [Fintype P] (g : Graph P) :
    Except CloneError (UInt32 × EncodeState P) :=
  encodeAt g.obj (Fintype.card P + 1) g.root .init

/-! ### What one object adds -/

/-- The node of an object whose contents have the indexes `ids`. -/
inductive NodeFor : Obj P → List UInt32 → WireNode → Prop
  | array {items ids} : NodeFor (.array items) ids (.array ids)
  | object {props ids keys} : encodeKeys (props.map Prod.fst) = .ok keys →
    NodeFor (.object props) ids (.object (keys.zip ids))
  | date {t} : NodeFor (.date t) [] (.date t)
  | regExp {s f source flags} : toStdString s = .ok source → toStdString f = .ok flags →
    NodeFor (.regExp s f) [] (.regExp source flags)
  | error {m} : NodeFor (.error m) [] (.error ((Utf16.fromUtf16 m).getD []))
  | arrayBuffer {bytes} : NodeFor (.arrayBuffer bytes) [] (.arrayBufferCopy bytes)
  | map {entries pairs} :
    NodeFor (.map entries) (pairs.flatMap fun p : UInt32 × UInt32 => [p.1, p.2]) (.map pairs)
  | set {items ids} : NodeFor (.set items) ids (.set ids)
  | sharedArrayBuffer {id} : NodeFor (.sharedArrayBuffer id) [] (.sharedArrayBuffer id)
  | sharedView {id o l v viewName} : toStdString v = .ok viewName →
    NodeFor (.sharedView id o l v) [] (.sharedView id o l viewName)

/-- What an object adds to the transfers. -/
def buffers : Obj P → List (List UInt8)
  | .arrayBuffer bytes => [bytes]
  | _ => []

variable {enc : Value P → Encoder P UInt32} {s s' : EncodeState P} {e : CloneError}

/-- The entries of a map are encoded as its keys and values in turn. -/
theorem encodeItems_entries (es : List (Value P × Value P)) (s : EncodeState P) :
    encodeItems enc (es.flatMap fun e => [e.1, e.2]) s =
      (encodePairs enc es s).map fun r => (r.1.flatMap fun p => [p.1, p.2], r.2) := by
  induction es generalizing s with
  | nil => rfl
  | cons e es ih =>
    show encodeItems enc (e.1 :: e.2 :: es.flatMap fun e => [e.1, e.2]) s = _
    rw [encodeItems, encodePairs]
    rcases enc e.1 s with err | ⟨k, s1⟩
    · rfl
    show (encodeItems enc (e.2 :: _) s1 >>= _) = (enc e.2 s1 >>= _).map _
    rw [encodeItems]
    rcases enc e.2 s1 with err | ⟨v, s2⟩
    · rfl
    show ((encodeItems enc _ s2 >>= _) >>= _) = (encodePairs enc es s2 >>= _).map _
    rw [ih]
    cases encodePairs enc es s2 <;> rfl

/-- **What encoding an object does.** -/
theorem encodeObj_inv {o : Obj P} {node : WireNode} (h : encodeObj enc o s = .ok (node, s')) :
    ∃ ids s1, encodeItems enc o.kids s = .ok (ids, s1) ∧ NodeFor o ids node ∧
      s' = { s1 with transfers := s1.transfers ++ buffers o } := by
  have hsame (s1 : EncodeState P) : s1 = { s1 with transfers := s1.transfers ++ [] } := by
    rw [List.append_nil]
  cases o with
  | array items | set items =>
    obtain ⟨⟨ids, s1⟩, hi, h⟩ := bind_eq_ok.mp h
    cases h
    exact ⟨ids, _, hi, by constructor, hsame _⟩
  | object props =>
    obtain ⟨keys, hk, h⟩ := bind_eq_ok.mp h
    obtain ⟨⟨ids, s1⟩, hi, h⟩ := bind_eq_ok.mp h
    cases h
    exact ⟨ids, _, hi, .object hk, hsame _⟩
  | date | error | sharedArrayBuffer =>
    cases h
    exact ⟨[], s, rfl, by constructor, hsame s⟩
  | regExp source flags =>
    obtain ⟨cs, hs, h⟩ := bind_eq_ok.mp h
    obtain ⟨fs, hf, h⟩ := bind_eq_ok.mp h
    cases h
    exact ⟨[], s, rfl, .regExp hs hf, hsame s⟩
  | arrayBuffer bytes =>
    cases h
    exact ⟨[], s, rfl, .arrayBuffer, rfl⟩
  | map entries =>
    obtain ⟨⟨pairs, s1⟩, hp, h⟩ := bind_eq_ok.mp h
    cases h
    have hi := (encodeItems_entries entries s).trans (congrArg (Except.map _) hp)
    exact ⟨_, _, hi, .map, hsame _⟩
  | sharedView id o l viewName =>
    obtain ⟨cs, hv, h⟩ := bind_eq_ok.mp h
    cases h
    exact ⟨[], s, rfl, .sharedView hv, hsame s⟩
  | function | proxy => cases h

/-- The object is complete: its node replaces the placeholder. -/
def EncodeState.leave (s : EncodeState P) (o : Obj P) (idx : UInt32) (node : WireNode) :
    EncodeState P :=
  { s with nodes := s.nodes.set idx.toNat node, transfers := s.transfers ++ buffers o }

/-- **What encoding a reference does**: it finds the object in the memo, or it enters it, encodes
its contents and completes it. -/
theorem encodeAt_ref [DecidableEq P] {obj : P → Obj P} {n : ℕ} {p : P} {i : UInt32}
    (h : encodeAt obj (n + 1) (.ref p) s = .ok (i, s')) :
    (s.memo p = some i ∧ s' = s) ∨
    (s.memo p = none ∧ i = s.nextIndex ∧ ∃ ids s1 node,
      encodeItems (encodeAt obj n) (obj p).kids (s.enter p) = .ok (ids, s1) ∧
      NodeFor (obj p) ids node ∧ s' = s1.leave (obj p) i node) := by
  rw [encodeAt] at h
  split at h
  · cases h
    exact .inl ⟨‹_›, rfl⟩
  · obtain ⟨⟨node, s2⟩, ho, h⟩ := bind_eq_ok.mp h
    obtain ⟨ids, s1, hi, hn, rfl⟩ := encodeObj_inv ho
    cases h
    exact .inr ⟨‹_›, rfl, ids, s1, node, hi, hn, rfl⟩

/-- A relation of states that each value keeps is kept by all of them. -/
theorem encodeItems_rel {T : EncodeState P → EncodeState P → Prop}
    (hrefl : ∀ s, T s s) (htrans : ∀ s1 s2 s3, T s1 s2 → T s2 s3 → T s1 s3)
    (h : ∀ v s id s', enc v s = .ok (id, s') → T s s') {vs : List (Value P)} {ids : List UInt32}
    (hi : encodeItems enc vs s = .ok (ids, s')) : T s s' := by
  fun_induction encodeItems enc vs s generalizing ids with
  | case1 =>
    cases hi
    exact hrefl _
  | case2 v vs s ih =>
    obtain ⟨⟨id, s1⟩, hv, hi⟩ := bind_eq_ok.mp hi
    obtain ⟨⟨ids', s2⟩, hvs, ⟨⟩⟩ := bind_eq_ok.mp hi
    exact htrans s s1 _ (h v s id s1 hv) (ih s1 hvs)

/-- The table and the memo only grow. -/
structure Grows (s s' : EncodeState P) : Prop where
  length_le : s.nodes.length ≤ s'.nodes.length
  memo : ∀ p i, s.memo p = some i → s'.memo p = some i

theorem Grows.refl (s : EncodeState P) : Grows s s := ⟨Nat.le_refl _, fun _ _ h => h⟩

theorem Grows.trans (s1 s2 s3 : EncodeState P) (h : Grows s1 s2) (h' : Grows s2 s3) : Grows s1 s3 :=
  ⟨Nat.le_trans h.length_le h'.length_le, fun p i hi => h'.memo p i (h.memo p i hi)⟩

theorem grows_enter [DecidableEq P] {p : P} (hm : s.memo p = none) : Grows s (s.enter p) where
  length_le := by
    show _ ≤ (s.nodes ++ [WireNode.null]).length
    rw [List.length_append]
    exact Nat.le_add_right _ _
  memo := fun q i hi => by
    show (if q = p then _ else s.memo q) = _
    rw [if_neg, hi]
    rintro rfl
    rw [hm] at hi
    cases hi

theorem encodeAt_grows [DecidableEq P] (obj : P → Obj P) :
    ∀ (n : ℕ) (v : Value P) (s : EncodeState P) (i : UInt32)
    (s' : EncodeState P), encodeAt obj n v s = .ok (i, s') → Grows s s'
  | 0, _, _, _, _, h => by cases h
  | n + 1, .atom a, s, i, s', h => by
    obtain ⟨node, _, h⟩ := bind_eq_ok.mp h
    cases h
    refine ⟨?_, fun _ _ h => h⟩
    show _ ≤ (s.nodes ++ [node]).length
    rw [List.length_append]
    exact Nat.le_add_right _ _
  | n + 1, .ref p, s, i, s', h => by
    rcases encodeAt_ref h with ⟨_, rfl⟩ | ⟨hm, rfl, ids, s1, node, hi, _, rfl⟩
    · exact Grows.refl _
    · have h1 := Grows.trans _ _ _ (grows_enter hm)
        (encodeItems_rel Grows.refl Grows.trans (encodeAt_grows obj n) hi)
      refine ⟨?_, h1.memo⟩
      show _ ≤ (s1.nodes.set _ node).length
      rw [List.length_set]
      exact h1.length_le

/-! ### When encoding succeeds -/

/-- The primitives that can be encoded. -/
def primEncodable : Prim → Bool
  | .string s => wellFormed s
  | .bigInt _ => false
  | _ => true

/-- The objects that can be encoded, if their contents can. -/
def objEncodable : Obj P → Bool
  | .object props => props.all fun x => wellFormed x.1
  | .regExp source flags => wellFormed source && wellFormed flags
  | .sharedView _ _ _ viewName => wellFormed viewName
  | .function | .proxy => false
  | _ => true

/-- All that can be reached from the value can be encoded. -/
structure Encodable (obj : P → Obj P) (v : Value P) : Prop where
  root : ∀ a, v = .atom a → primEncodable a = true
  self : ∀ p, Reach (fun p => some (obj p).cell) v p → objEncodable (obj p) = true
  kids : ∀ p, Reach (fun p => some (obj p).cell) v p → ∀ a, .atom a ∈ (obj p).kids →
    primEncodable a = true

theorem Encodable.kid {obj : P → Obj P} {p : P} {v : Value P} (h : Encodable obj (.ref p))
    (hv : v ∈ (obj p).kids) : Encodable obj v where
  root := fun a ha => h.kids p (.root rfl) a (ha ▸ hv)
  self := fun q hq => h.self q (hq.of_kid rfl hv)
  kids := fun q hq => h.kids q (hq.of_kid rfl hv)

theorem encodePrim_error {a : Prim} (h : encodePrim a = .error e) :
    primEncodable a = false ∧ e ≠ .stack := by
  cases a with
  | string s =>
    obtain h | ⟨_, _, ⟨⟩⟩ := bind_eq_error.mp h
    obtain ⟨hs, rfl⟩ := toStdString_error h
    exact ⟨hs, nofun⟩
  | bigInt n =>
    cases h
    exact ⟨rfl, by decide⟩
  | undefined | null | bool | number | symbol => cases h

/-- An object fails on its own, or on its contents. -/
theorem encodeObj_error {o : Obj P} (h : encodeObj enc o s = .error e) :
    (objEncodable o = false ∧ e ≠ .stack) ∨ encodeItems enc o.kids s = .error e := by
  cases o with
  | array items | set items =>
    obtain h | ⟨_, _, ⟨⟩⟩ := bind_eq_error.mp h
    exact .inr h
  | object props =>
    rcases bind_eq_error.mp h with h | ⟨keys, _, h⟩
    · obtain ⟨hk, rfl⟩ := encodeKeys_error h
      rw [List.all_map] at hk
      exact .inl ⟨hk, nofun⟩
    · obtain h | ⟨_, _, ⟨⟩⟩ := bind_eq_error.mp h
      exact .inr h
  | regExp source flags =>
    left
    show (wellFormed source && wellFormed flags) = false ∧ _
    rcases bind_eq_error.mp h with h | ⟨_, _, h⟩
    · obtain ⟨hs, rfl⟩ := toStdString_error h
      rw [hs]
      exact ⟨rfl, nofun⟩
    · obtain h | ⟨_, _, ⟨⟩⟩ := bind_eq_error.mp h
      obtain ⟨hs, rfl⟩ := toStdString_error h
      rw [hs, Bool.and_false]
      exact ⟨rfl, nofun⟩
  | map entries =>
    obtain h | ⟨_, _, ⟨⟩⟩ := bind_eq_error.mp h
    exact .inr ((encodeItems_entries entries s).trans (by rw [h]; rfl))
  | sharedView id o l viewName =>
    obtain h | ⟨_, _, ⟨⟩⟩ := bind_eq_error.mp h
    obtain ⟨hs, rfl⟩ := toStdString_error h
    exact .inl ⟨hs, nofun⟩
  | function | proxy =>
    cases h
    exact .inl ⟨rfl, by decide⟩
  | date | error | arrayBuffer | sharedArrayBuffer => cases h

theorem encodeItems_error
    (h : ∀ v s id s', enc v s = .ok (id, s') → Grows s s') {vs : List (Value P)}
    (hi : encodeItems enc vs s = .error e) : ∃ v ∈ vs, ∃ s1, Grows s s1 ∧ enc v s1 = .error e := by
  fun_induction encodeItems enc vs s with
  | case1 => cases hi
  | case2 v vs s ih =>
    rcases bind_eq_error.mp hi with hi | ⟨⟨id, s1⟩, hv, hi⟩
    · exact ⟨v, by simp, s, Grows.refl s, hi⟩
    · obtain hi | ⟨_, _, ⟨⟩⟩ := bind_eq_error.mp hi
      obtain ⟨w, hw, s2, hg, he⟩ := ih s1 hi
      exact ⟨w, by simp [hw], s2, Grows.trans _ _ _ (h v s id s1 hv) hg, he⟩

section fuel

variable [Fintype P]

/-- The number of objects that are not in the memo. -/
def unmemoized (s : EncodeState P) : ℕ := (Finset.univ.filter fun p => s.memo p = none).card

theorem Grows.unmemoized_le (h : Grows s s') : unmemoized s' ≤ unmemoized s :=
  card_none_le h.memo _

theorem unmemoized_enter [DecidableEq P] {p : P} (hm : s.memo p = none) :
    unmemoized (s.enter p) < unmemoized s :=
  card_none_lt (grows_enter hm).memo _ (Finset.mem_univ p) hm (if_pos rfl)

/-- **Within the bound on its depth, encoding fails only on what cannot be encoded.** -/
theorem encodeAt_progress [DecidableEq P] (obj : P → Obj P) :
    ∀ (n : ℕ) (v : Value P) (s : EncodeState P)
    (e : CloneError), unmemoized s < n → encodeAt obj n v s = .error e →
      e ≠ .stack ∧ ¬ Encodable obj v
  | 0, _, _, _, hn, _ => absurd hn (Nat.not_lt_zero _)
  | n + 1, .atom a, s, e, _, h => by
    obtain h | ⟨_, _, ⟨⟩⟩ := bind_eq_error.mp h
    obtain ⟨ha, he⟩ := encodePrim_error h
    refine ⟨he, fun hv => ?_⟩
    rw [hv.root a rfl] at ha
    cases ha
  | n + 1, .ref p, s, e, hn, h => by
    rw [encodeAt] at h
    split at h
    · cases h
    · next hm =>
      obtain h | ⟨_, _, ⟨⟩⟩ := bind_eq_error.mp h
      rcases encodeObj_error h with ⟨ho, he⟩ | hi
      · refine ⟨he, fun hv => ?_⟩
        rw [hv.self p (.root rfl)] at ho
        cases ho
      · obtain ⟨w, hw, s1, hg, he⟩ := encodeItems_error (encodeAt_grows obj n) hi
        have hlt : unmemoized s1 < n := by
          have h1 := hg.unmemoized_le
          have h2 := unmemoized_enter hm
          omega
        obtain ⟨hne, hw'⟩ := encodeAt_progress obj n w s1 e hlt he
        exact ⟨hne, fun hv => hw' (hv.kid hw)⟩

theorem unmemoized_init : unmemoized (EncodeState.init : EncodeState P) < Fintype.card P + 1 :=
  Nat.lt_succ_of_le (Finset.card_le_univ _)

theorem encodeIndex_ok [DecidableEq P] (g : Graph P) (h : Encodable g.obj g.root) :
    ∃ r, encodeIndex g = .ok r := by
  cases he : encodeIndex g with
  | ok r => exact ⟨r, rfl⟩
  | error e => exact absurd h (encodeAt_progress g.obj _ g.root _ _ unmemoized_init he).2

end fuel

end

end RasterRuntime.CloneWire
