import Mathlib.Algebra.Group.Nat.Defs
import RasterRuntime.Graph.Iso
import RasterRuntime.Text.Utf16

/-! # Values and objects of the engine

A value is a primitive or a reference to an object; an object is one of the kinds that cloning tells
apart. References are to an arbitrary type of addresses: a graph to be cloned has any finite type of
them (`Graph`), the objects a clone allocates are numbered (`Heap`).

`Obj.cell` views an object as a cell of a labelled graph: the label is what must be equal in a
clone, the edges are the values it holds. -/

namespace RasterRuntime.Js

open RasterRuntime.Graph RasterRuntime.Text

instance neZero_one : NeZero 1 := inferInstance

instance neZero_two : NeZero 2 := inferInstance

instance neZero_three : NeZero 3 := inferInstance

/-- A string: its UTF-16 code units, with lone surrogates or without. -/
abbrev JsString := List UInt16

/-- A primitive. A number is the 64-bit pattern of its double. -/
inductive Prim where
  | undefined
  | null
  | bool (b : Bool)
  | number (n : UInt64)
  | string (s : JsString)
  | bigInt (n : Int)
  | symbol (id : ℕ)
deriving DecidableEq, Repr

abbrev Value (P : Type) := Edge Prim P

/-- An object. The properties are the own enumerable ones with string keys, in their order; a date
is its time value, a regular expression its source and its flags. -/
inductive Obj (P : Type) where
  | array (items : List (Value P))
  | object (props : List (JsString × Value P))
  | date (t : UInt64)
  | regExp (source flags : JsString)
  | error (message : JsString)
  | arrayBuffer (bytes : List UInt8)
  | map (entries : List (Value P × Value P))
  | set (items : List (Value P))
  | sharedArrayBuffer (id : UInt64)
  | sharedView (id : UInt64) (byteOffset byteLength : UInt32) (viewName : JsString)
  | function
  | proxy

/-- What two objects have in common apart from the values they hold. -/
inductive Label where
  | array
  | object (keys : List JsString)
  | date (t : UInt64)
  | regExp (source flags : JsString)
  | error (message : JsString)
  | arrayBuffer (bytes : List UInt8)
  | map
  | set
  | sharedArrayBuffer (id : UInt64)
  | sharedView (id : UInt64) (byteOffset byteLength : UInt32) (viewName : JsString)
  | function
  | proxy
deriving DecidableEq, Repr

section

variable {P : Type}

/-- The kind of an object and its own data. -/
def Obj.label : Obj P → Label
  | .array _ => .array
  | .object props => .object (props.map Prod.fst)
  | .date t => .date t
  | .regExp source flags => .regExp source flags
  | .error message => .error message
  | .arrayBuffer bytes => .arrayBuffer bytes
  | .map _ => .map
  | .set _ => .set
  | .sharedArrayBuffer id => .sharedArrayBuffer id
  | .sharedView id byteOffset byteLength viewName => .sharedView id byteOffset byteLength viewName
  | .function => .function
  | .proxy => .proxy

/-- The values an object holds. -/
def Obj.kids : Obj P → List (Value P)
  | .array items => items
  | .object props => props.map Prod.snd
  | .map entries => entries.flatMap fun e => [e.1, e.2]
  | .set items => items
  | _ => []

def Obj.cell (o : Obj P) : Cell Label Prim P := ⟨o.label, o.kids⟩

/-! ### Keys of maps and sets -/

def isNaN (n : UInt64) : Bool := n.toNat % 2 ^ 63 > 0x7FF0000000000000

def isZero (n : UInt64) : Bool := n.toNat % 2 ^ 63 = 0

/-- The comparison that maps and sets make, `SameValueZero`. -/
def sameValueZero [DecidableEq P] : Value P → Value P → Bool
  | .atom (.number m), .atom (.number n) =>
    m = n || (isNaN m && isNaN n) || (isZero m && isZero n)
  | v, w => v = w

/-- A key as it is stored: negative zero becomes zero. -/
def storedKey : Value P → Value P
  | .atom (.number n) => .atom (.number (if isZero n then 0 else n))
  | v => v

variable [DecidableEq P]

/-- `Map.prototype.set`. -/
def mapSet (entries : List (Value P × Value P)) (e : Value P × Value P) :
    List (Value P × Value P) :=
  if entries.any fun x => sameValueZero x.1 e.1 then
    entries.map fun x => if sameValueZero x.1 e.1 then (x.1, e.2) else x
  else entries ++ [(storedKey e.1, e.2)]

/-- `Set.prototype.add`. -/
def setAdd (items : List (Value P)) (v : Value P) : List (Value P) :=
  if items.any fun x => sameValueZero x v then items else items ++ [storedKey v]

/-- `new Map(entries)`. -/
def mapFrom (entries : List (Value P × Value P)) : List (Value P × Value P) :=
  entries.foldl mapSet []

/-- `new Set(items)`. -/
def setFrom (items : List (Value P)) : List (Value P) := items.foldl setAdd []

/-- What holds of every object of the engine: keys of objects, maps and sets are distinct, and those
of maps and sets are stored keys. -/
def Obj.WellFormed : Obj P → Prop
  | .object props => (props.map Prod.fst).Nodup
  | .map entries => (entries.map Prod.fst).Pairwise (fun v w => sameValueZero v w = false) ∧
    ∀ e ∈ entries, storedKey e.1 = e.1
  | .set items => items.Pairwise (fun v w => sameValueZero v w = false) ∧
    ∀ v ∈ items, storedKey v = v
  | _ => True

end

/-- A value with the objects it may refer to. -/
structure Graph (P : Type) [DecidableEq P] where
  obj : P → Obj P
  root : Value P
  wf : ∀ p, (obj p).WellFormed

/-- The cells of the graph. -/
def Graph.cells {P : Type} [DecidableEq P] (g : Graph P) (p : P) : Option (Cell Label Prim P) :=
  some (g.obj p).cell

/-- The objects that can be reached from the root. -/
def Graph.Reachable {P : Type} [DecidableEq P] (g : Graph P) (p : P) : Prop :=
  Reach g.cells g.root p

/-! ### Allocated objects -/

theorem getElem?_of_prefix {α : Type} {as bs : List α} {i : ℕ} {a : α} (h : as <+: bs)
    (ha : as[i]? = some a) : bs[i]? = some a := by
  obtain ⟨hi, rfl⟩ := List.getElem?_eq_some_iff.mp ha
  exact List.prefix_iff_getElem?.mp h i hi

/-- The objects allocated so far. -/
abbrev Heap := List (Obj ℕ)

def Heap.cells (h : Heap) (b : ℕ) : Option (Cell Label Prim ℕ) := (h[b]?).map Obj.cell

/-- The key of the accessor that objects inherit for their prototype. -/
def protoKey : JsString := Utf16.encode "__proto__".toList

/-- Setting an element of an array; elements that are skipped are undefined. -/
def arraySet (items : List (Value ℕ)) (i : ℕ) (v : Value ℕ) : List (Value ℕ) :=
  if i < items.length then items.set i v
  else items ++ List.replicate (i - items.length) (.atom .undefined) ++ [v]

/-- Setting a property of an object with the default prototype. A new property comes last; setting
`__proto__` makes no property. -/
def objectSet (props : List (JsString × Value ℕ)) (k : JsString) (v : Value ℕ) :
    List (JsString × Value ℕ) :=
  if k = protoKey then props
  else if props.any fun x => x.1 = k then props.map fun x => if x.1 = k then (k, v) else x
  else props ++ [(k, v)]

/-- `array.set(i, v)` on the array at `b`. -/
def Heap.setItem (h : Heap) (b i : ℕ) (v : Value ℕ) : Heap :=
  match h[b]? with
  | some (.array items) => h.set b (.array (arraySet items i v))
  | _ => h

/-- `object.set(k, v)` on the object at `b`. -/
def Heap.setProp (h : Heap) (b : ℕ) (k : JsString) (v : Value ℕ) : Heap :=
  match h[b]? with
  | some (.object props) => h.set b (.object (objectSet props k v))
  | _ => h

theorem arraySet_length (items : List (Value ℕ)) (v : Value ℕ) :
    arraySet items items.length v = items ++ [v] := by
  unfold arraySet
  rw [if_neg (Nat.lt_irrefl _), Nat.sub_self, List.replicate_zero, List.append_nil]

/-- The properties that are there after these were set, one after the other. -/
def keptProps {P : Type} (props : List (JsString × Value P)) : List (JsString × Value P) :=
  props.filter fun x => x.1 ≠ protoKey

theorem objectSet_kept {props : List (JsString × Value ℕ)} {k : JsString} (v : Value ℕ)
    (h : k ∉ props.map Prod.fst) :
    objectSet (keptProps props) k v = keptProps (props ++ [(k, v)]) := by
  unfold keptProps objectSet
  rw [List.filter_append]
  split_ifs with hk ha
  · rw [List.filter_cons_of_neg (by simp [hk]), List.filter_nil, List.append_nil]
  · obtain ⟨x, hx, he⟩ := List.any_eq_true.mp ha
    refine absurd (List.mem_map.mpr ⟨x, ?_, of_decide_eq_true he⟩) h
    exact (List.mem_filter.mp hx).1
  · rw [List.filter_cons_of_pos (by simp [hk]), List.filter_nil]

end RasterRuntime.Js
