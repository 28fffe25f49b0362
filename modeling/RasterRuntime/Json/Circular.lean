import Mathlib.Data.Fintype.Option
import RasterRuntime.Graph.LateStack
import RasterRuntime.Json.Primitive

/-! # Circular references

On a finite graph of plain arrays and objects, `JSON.stringify` is a walk that watches for cycles
from a fixed depth on. It stops with the error for circular references only if there is a cycle, and
finds every cycle that it does not stop before. It can stop before at a value without a text of its
own: a BigInt, or a string or key that the escaping panics at. -/

namespace RasterRuntime.Json

open LateStack (Halt walk enter cut visit CycleFrom FailsFirst Outcome walk_root)
open Prod (fst snd)

/-- A primitive value, a function, or a promise. -/
inductive Prim (F : Type)
  | undefined
  | null
  | bool (b : Bool)
  | int (i : ℤ)
  | float (x : F)
  | string (s : Bytes)
  | bigint
  | symbol
  | function
  | promise

def Prim.val {F O : Type} : Prim F → Val F O
  | .undefined => .undefined
  | .null => .null
  | .bool b => .bool b
  | .int i => .int i
  | .float x => .float x
  | .string s => .string s
  | .bigint => .bigint
  | .symbol => .symbol
  | .function => .function
  | .promise => .promise

/-- A value of a graph with `n` arrays and objects. -/
inductive Item (F : Type) (n : ℕ)
  | prim (p : Prim F)
  | ref (o : Fin n)

/-- A plain object, whose keys are distinct, or an array. -/
inductive Node (F : Type) (n : ℕ)
  | object (props : List (Bytes × Item F n)) (distinct : (props.map fst).Nodup)
  | array (items : List (Item F n))

abbrev PlainGraph (F : Type) (n : ℕ) := Fin n → Node F n

namespace PlainGraph

variable {F : Type} {n : ℕ} (g : PlainGraph F n)

/-- A value as the engine reports it; `none` is the object that holds the root. -/
def val : Item F n → Val F (Option (Fin n))
  | .prim p => p.val
  | .ref o =>
    match g o with
    | .object _ _ => .object (some o)
    | .array _ => .array (some o)

theorem val_ref (o : Fin n) :
    g.val (.ref o) = .object (some o) ∨ g.val (.ref o) = .array (some o) := by
  rw [val]
  split
  · exact .inl rfl
  · exact .inr rfl

def props : Option (Fin n) → List (Bytes × Item F n)
  | none => []
  | some o =>
    match g o with
    | .object props _ => props
    | .array _ => []

def items : Option (Fin n) → List (Item F n)
  | none => []
  | some o =>
    match g o with
    | .object _ _ => []
    | .array items => items

/-- No object has a method `toJSON`, and reads have no effect. -/
def engine : Engine F (Option (Fin n)) Unit Empty where
  hasToJson := fun _ world => .ok (false, world)
  toJson := fun _ world => .ok (.undefined, world)
  keys := fun o world => ((g.props o).map fst, world)
  get := fun o key world => .ok (((g.props o).lookup key).elim .undefined g.val, world)
  length := fun o _ => (g.items o).length
  item := fun o i world => .ok (((g.items o)[i]?).elim .undefined g.val, world)
  holder := fun _ world => (none, world)

end PlainGraph

/-! ### The walk -/

section Walk

variable {F : Type} {n : ℕ}

/-- A primitive in an array has no text. -/
def Prim.fails : Prim F → Bool
  | .bigint => true
  | .string s => (escapeJsonString s).isNone
  | _ => false

def Prim.isOmitted : Prim F → Bool
  | .undefined | .symbol | .function => true
  | _ => false

/-- What the walk meets at a member of an object. -/
def memberItems : Bytes × Item F n → List (LateStack.Item (Option (Fin n)))
  | (key, .prim p) => [.leaf (!p.isOmitted && (p.fails || (escapeJsonString key).isNone))]
  | (key, .ref o) => [.leaf (escapeJsonString key).isNone, .node (some o)]

/-- What the walk meets at an element of an array. -/
def elementItems : Item F n → List (LateStack.Item (Option (Fin n)))
  | .prim p => [.leaf p.fails]
  | .ref o => [.node (some o)]

def PlainGraph.kids (g : PlainGraph F n) (o : Option (Fin n)) :
    List (LateStack.Item (Option (Fin n))) :=
  (g.props o).flatMap memberItems ++ (g.items o).flatMap elementItems

/-- A root from which a cycle can be reached. -/
def PlainGraph.Cyclic (g : PlainGraph F n) : Item F n → Prop
  | .prim _ => False
  | .ref o => CycleFrom g.kids (some o)

/-- In the order of the items there is a BigInt, or a string or key that the escaping panics at,
before there is a cycle. -/
def PlainGraph.FailsFirst (g : PlainGraph F n) : Item F n → Prop
  | .prim p => p.fails = true
  | .ref o => LateStack.FailsFirst g.kids (some o)

variable {O : Type} {p : Prim F}

theorem Prim.isOmitted_val (p : Prim F) : (p.val : Val F O).isOmitted = p.isOmitted := by
  cases p <;> rfl

theorem Prim.eq_bigint (h : (p.val : Val F O) = .bigint) : p = .bigint := by
  cases p <;> first | rfl | exact absurd h (by simp [Prim.val])

theorem Prim.isOmitted_of_fails (h : p.fails) : p.isOmitted = false := by
  cases p <;> first | rfl | cases h

theorem lookup_of_mem {α β : Type} [BEq α] [LawfulBEq α] {props : List (α × β)}
    (hd : (props.map fst).Nodup) {key : α} {value : β} (h : (key, value) ∈ props) :
    props.lookup key = some value := by
  induction props with
  | nil => cases h
  | cons prop props ih =>
    obtain ⟨hn, hd⟩ := List.nodup_cons.mp hd
    rcases List.mem_cons.mp h with rfl | h
    · exact List.lookup_cons_self
    · have hne : ¬ key = prop.1 := fun he => hn (he ▸ List.mem_map_of_mem h)
      rw [List.lookup_cons, beq_false_of_ne hne]
      exact ih hd h

end Walk

/-! ### The recursion is the walk -/

section Agrees

variable {F : Type} [Numeral F] {n : ℕ}

abbrev Plain (n : ℕ) := Writer (Option (Fin n)) Unit

def Writer.stack {O σ : Type} (w : Writer O σ) : List O := w.ancestors.map fst

/-- Both end in the same way, with the same stack. -/
inductive Agrees {α : Type} (writer : α → Plain n) :
    Except (Stop Empty) α → Except Halt (List (Option (Fin n))) → Prop
  | ok (a : α) : Agrees writer (.ok a) (.ok (writer a).stack)
  | circular (message : Bytes) : Agrees writer (.error (.circular message)) (.error .circular)
  | bigint : Agrees writer (.error .bigint) (.error .leaf)
  | panic : Agrees writer (.error .panic) (.error .leaf)
  | fuel : Agrees writer (.error .fuel) (.error .fuel)

variable {α β O : Type} {h : Except Halt (List (Option (Fin n)))} {p : Prim F} {wa : α → Plain n}
    {wb : β → Plain n} {r : Except (Stop Empty) α}

theorem Agrees.bind {f : α → Except (Stop Empty) β}
    {k : List (Option (Fin n)) → Except Halt (List (Option (Fin n)))} (hr : Agrees wa r h)
    (hf : ∀ a, Agrees wb (f a) (k (wa a).stack)) :
    Agrees wb (r >>= f) (h >>= k) := by
  cases hr with
  | ok a => exact hf a
  | circular message => exact .circular message
  | bigint => exact .bigint
  | panic => exact .panic
  | fuel => exact .fuel

theorem agrees_ok {writer : α → Plain n} {a : α} {stack : List (Option (Fin n))}
    (h : (writer a).stack = stack) : Agrees writer (.ok a) (.ok stack) := h ▸ .ok a

theorem Agrees.map (f : α → β) (hr : Agrees wa r h) (hf : ∀ a, (wb (f a)).stack = (wa a).stack) :
    Agrees wb (r >>= fun a => .ok (f a)) h := by
  rw [← bind_pure h]
  exact hr.bind fun a => agrees_ok (hf a)

theorem watchCircular_agrees (slot : Slot (Option (Fin n))) (o : Option (Fin n)) (w : Plain n) :
    Agrees id (watchCircular slot o w)
      (enter circularRefDetectionDepth slot.depth slot.parent o w.stack) := by
  have hcut : (w.ancestors.dropWhile fun a => some a.1 ≠ slot.parent).map fst =
      cut slot.parent w.stack := by
    rw [cut, Writer.stack, List.dropWhile_map]
    rfl
  have hmem : (w.ancestors.dropWhile fun a => some a.1 ≠ slot.parent).any (·.1 = o) ↔
      o ∈ cut slot.parent w.stack := by
    rw [← hcut, List.any_eq_true, List.mem_map]
    simp
  unfold watchCircular enter
  by_cases hd : circularRefDetectionDepth < slot.depth
  · rw [if_pos hd, if_pos hd]
    unfold detectCircularReference
    by_cases ho : o ∈ cut slot.parent w.stack
    · rw [if_pos ho, if_pos (hmem.mpr ho)]
      exact .circular _
    · rw [if_neg ho, if_neg fun h => ho (hmem.mp h)]
      refine agrees_ok ?_
      rw [← hcut]
      rfl
  · rw [if_neg hd, if_neg hd]
    exact .ok w

theorem isNone_separators (slot : Slot O) (addComma : Bool) :
    (separators slot addComma).isNone = slot.key.any fun key => (escapeJsonString key).isNone := by
  unfold separators optionalKey writeKey
  cases slot.indentation <;> cases slot.key <;> simp

theorem iterate_prim {σ E : Type} [DecidableEq O] (engine : Engine F O σ E)
    (replacing : Replacing F O σ E) (fuel : ℕ) (slot : Slot O) (p : Prim F) (w : Writer O σ) :
    iterate engine replacing fuel slot p.val none w = .ok w := by
  cases fuel <;> cases p <;> rfl

theorem Prim.fails_iff (O : Type) (p : Prim F) :
    p.fails ↔ p = .bigint ∨ primitiveText (p.val : Val F O) = none := by
  cases p with
  | string s => simp [Prim.fails, Prim.val, primitiveText, writeString]
  | _ => simp [Prim.fails, Prim.val, primitiveText]

theorem Prim.fails_eq_false {text : Option Bytes} (ht : primitiveText (p.val : Val F O) = some text)
    (hb : p ≠ .bigint) : p.fails = false := by
  refine Bool.eq_false_iff.mpr fun hf => ?_
  rcases (p.fails_iff O).mp hf with rfl | hn
  · exact hb rfl
  · cases ht.symm.trans hn

theorem Prim.ne_bigint_of_text {text : Bytes}
    (ht : primitiveText (p.val : Val F O) = some (some text)) : p ≠ .bigint := by
  rintro rfl
  exact absurd ht (by simp [Prim.val, primitiveText])

theorem append_prim_agrees (g : PlainGraph F n) (fuel : ℕ) (slot : Slot (Option (Fin n)))
    (p : Prim F) (addComma : Bool) (w : Plain n) :
    Agrees snd
      (appendValue g.engine ⟨none, none⟩ (iterate g.engine ⟨none, none⟩ fuel) slot p.val addComma w)
      (if !(slot.index.isNone && p.isOmitted) && (p.fails ||
          slot.key.any fun key => (escapeJsonString key).isNone) then .error .leaf
        else .ok w.stack) := by
  have hw := wrote_writePrimitive2 (⟨none, none⟩ : Replacing F _ Unit Empty) slot p.val
    addComma none w
  rw [appendValue_eq, ← isNone_separators slot addComma]
  change Agrees _ (writePrimitive2 _ slot p.val addComma none w >>= _) _
  generalize writePrimitive2 _ slot p.val addComma none w = r at hw ⊢
  rw [Option.getD_none] at hw
  cases hw with
  | omitted hi ho =>
    rw [Prim.isOmitted_val] at ho
    rw [hi, ho, if_neg (by simp)]
    exact agrees_ok rfl
  | bigint hv =>
    obtain rfl := Prim.eq_bigint hv
    rw [if_pos (by simp [Prim.fails, Prim.isOmitted])]
    exact .bigint
  | filtered hk => exact absurd nofun hk
  | badKey hn hs =>
    rw [Prim.isOmitted_val] at hn
    rw [if_pos]
    · exact .panic
    · rw [hs]
      cases hi : slot.index <;> simp_all
  | badText before _ ht =>
    have hf := (p.fails_iff (Option (Fin n))).mpr (.inr ht)
    rw [hf, Prim.isOmitted_of_fails hf, if_pos (by simp)]
    exact .panic
  | text before text _ _ hs ht =>
    rw [hs, Prim.fails_eq_false ht (Prim.ne_bigint_of_text ht), if_neg (by simp)]
    exact agrees_ok rfl
  | nested before _ _ hs ht hb =>
    have hb : p ≠ .bigint := fun h => hb (h ▸ rfl)
    rw [hs, Prim.fails_eq_false ht hb, if_neg (by simp)]
    change Agrees _ (iterate _ _ fuel _ p.val none _ >>= _) _
    rw [iterate_prim]
    exact agrees_ok rfl

/-- An array or an object is gone through after its key. -/
theorem append_ref_agrees (g : PlainGraph F n) (iter : Iterate F (Option (Fin n)) Unit Empty)
    (slot : Slot (Option (Fin n))) (o : Fin n) (addComma : Bool) (w : Plain n)
    {into : List (Option (Fin n)) → Except Halt (List (Option (Fin n)))}
    (hi : ∀ w, Agrees id (iter { slot with depth := slot.depth + 1 } (g.val (.ref o)) none w)
      (into w.stack)) :
    Agrees snd (appendValue g.engine ⟨none, none⟩ iter slot (g.val (.ref o)) addComma w)
      (if slot.key.any fun key => (escapeJsonString key).isNone then .error .leaf
        else into w.stack) := by
  have hw := wrote_writePrimitive2 (⟨none, none⟩ : Replacing F _ Unit Empty) slot (g.val (.ref o))
    addComma none w
  have hv : (g.val (.ref o)).isOmitted = false ∧ g.val (.ref o) ≠ .bigint ∧
      primitiveText (g.val (.ref o)) = some none := by
    rcases g.val_ref o with hv | hv <;> rw [hv] <;> exact ⟨rfl, by simp, rfl⟩
  rw [appendValue_eq, ← isNone_separators slot addComma]
  change Agrees _ (writePrimitive2 _ slot (g.val (.ref o)) addComma none w >>= _) _
  generalize writePrimitive2 _ slot (g.val (.ref o)) addComma none w = r at hw ⊢
  rw [Option.getD_none] at hw
  cases hw with
  | omitted _ ho => cases ho.symm.trans hv.1
  | bigint hb => exact absurd hb hv.2.1
  | filtered hk => exact absurd nofun hk
  | badKey _ hs =>
    rw [hs, if_pos Option.isNone_none]
    exact .panic
  | badText _ _ ht | text _ _ _ _ _ ht => cases ht.symm.trans hv.2.2
  | nested before _ _ hs _ _ =>
    rw [hs, if_neg (by simp)]
    exact (hi (w.push before)).map (fun w => (true, w)) fun _ => rfl

section Nested

variable (g : PlainGraph F n) (fuel : ℕ)
  (ih : ∀ slot o (w : Plain n),
    Agrees id (iterate g.engine ⟨none, none⟩ fuel slot (g.val (.ref o)) none w)
    (walk g.kids circularRefDetectionDepth fuel slot.depth slot.parent (some o) w.stack))
include ih

variable (slot : Slot (Option (Fin n))) (o : Option (Fin n))

theorem member_agrees (key : Bytes) (item : Item F n) (addComma : Bool) (w : Plain n) :
    Agrees snd (appendValue g.engine ⟨none, none⟩ (iterate g.engine ⟨none, none⟩ fuel)
        { slot with key := some key, index := none, parent := some o } (g.val item) addComma w)
      ((memberItems (key, item)).foldlM
        (visit (walk g.kids circularRefDetectionDepth fuel (slot.depth + 1) (some o)))
        w.stack) := by
  cases item with
  | prim p =>
    have h := append_prim_agrees g fuel
      { slot with key := some key, index := none, parent := some o } p
      addComma w
    simp only [memberItems, List.foldlM_cons, List.foldlM_nil, bind_pure]
    simpa [visit, PlainGraph.val] using h
  | ref r =>
    have h := append_ref_agrees g (iterate g.engine ⟨none, none⟩ fuel)
      { slot with key := some key, index := none, parent := some o } r addComma w
      fun w =>
        ih { slot with depth := slot.depth + 1, key := some key, index := none, parent := some o }
          r w
    simp only [memberItems, List.foldlM_cons, List.foldlM_nil, bind_pure]
    rw [Option.any_some] at h
    cases hk : (escapeJsonString key).isNone with
    | true | false =>
      rw [hk] at h
      exact h

theorem members_agrees (props : List (Bytes × Item F n))
    (hp : ∀ prop ∈ props, (g.props o).lookup prop.1 = some prop.2) (valueWritten : Bool)
    (w : Plain n) :
    Agrees snd (members g.engine ⟨none, none⟩ (iterate g.engine ⟨none, none⟩ fuel) slot o
        (props.map fst) valueWritten w)
      ((props.flatMap memberItems).foldlM
        (visit (walk g.kids circularRefDetectionDepth fuel (slot.depth + 1) (some o)))
        w.stack) := by
  induction props generalizing valueWritten w with
  | nil => exact agrees_ok rfl
  | cons prop props ihp =>
    have hget : g.engine.get o prop.1 w.world = .ok (g.val prop.2, ()) := by
      change Except.ok (((g.props o).lookup prop.1).elim _ _, _) = _
      rw [hp prop List.mem_cons_self]
      rfl
    rw [List.map_cons, List.flatMap_cons, List.foldlM_append, members, hget]
    refine (member_agrees g fuel ih slot o prop.1 prop.2 valueWritten
      { w with world := () }).bind ?_
    rintro ⟨written, w'⟩
    exact ihp (fun p hm => hp p (.tail _ hm)) (valueWritten || written) w'

theorem element_agrees (i : ℕ) (item : Item F n) (addComma : Bool) (w : Plain n) :
    Agrees snd (appendValue g.engine ⟨none, none⟩ (iterate g.engine ⟨none, none⟩ fuel)
        { slot with key := none, index := some i, parent := some o } (g.val item) addComma w)
      ((elementItems item).foldlM
        (visit (walk g.kids circularRefDetectionDepth fuel (slot.depth + 1) (some o)))
        w.stack) := by
  cases item with
  | prim p =>
    have h := append_prim_agrees g fuel
      { slot with key := none, index := some i, parent := some o } p
      addComma w
    simp only [elementItems, List.foldlM_cons, List.foldlM_nil, bind_pure]
    simpa [visit, PlainGraph.val] using h
  | ref r =>
    have h := append_ref_agrees g (iterate g.engine ⟨none, none⟩ fuel)
      { slot with key := none, index := some i, parent := some o } r addComma w
      fun w =>
        ih { slot with depth := slot.depth + 1, key := none, index := some i, parent := some o } r w
    simp only [elementItems, List.foldlM_cons, List.foldlM_nil, bind_pure]
    exact h

theorem elements_agrees
    (items : List (Item F n × ℕ)) (hi : ∀ item ∈ items, (g.items o)[item.2]? = some item.1)
    (addComma valueWritten : Bool) (w : Plain n) :
    Agrees snd (elements g.engine ⟨none, none⟩ (iterate g.engine ⟨none, none⟩ fuel) slot o
        (items.map snd) addComma valueWritten w)
      (((items.map fst).flatMap elementItems).foldlM
        (visit (walk g.kids circularRefDetectionDepth fuel (slot.depth + 1) (some o)))
        w.stack) := by
  induction items generalizing addComma valueWritten w with
  | nil => exact agrees_ok rfl
  | cons item items ihi =>
    have hget : g.engine.item o item.2 w.world = .ok (g.val item.1, ()) := by
      change Except.ok (((g.items o)[item.2]?).elim _ _, _) = _
      rw [hi item List.mem_cons_self]
      rfl
    rw [List.map_cons, List.map_cons, List.flatMap_cons, List.foldlM_append, elements, hget]
    refine (element_agrees g fuel ih slot o item.2 item.1 addComma { w with world := () }).bind ?_
    rintro ⟨written, w'⟩
    exact ihi (fun p hm => hi p (.tail _ hm)) written (valueWritten || written) w'

end Nested

/-- **The recursion and the walk** end in the same way. -/
theorem iterate_agrees (g : PlainGraph F n) (fuel : ℕ) (slot : Slot (Option (Fin n))) (o : Fin n)
    (w : Plain n) :
    Agrees id (iterate g.engine ⟨none, none⟩ fuel slot (g.val (.ref o)) none w)
      (walk g.kids circularRefDetectionDepth fuel slot.depth slot.parent (some o) w.stack) := by
  induction fuel generalizing slot o w with
  | zero =>
    rcases g.val_ref o with hv | hv
    all_goals
      rw [hv]
      exact .fuel
  | succ fuel ih =>
    rw [walk]
    cases ho : g o with
    | object props hd =>
      have hv : g.val (.ref o) = .object (some o) := by rw [PlainGraph.val, ho]
      have hprops : g.props (some o) = props := by rw [PlainGraph.props, ho]
      have hkids : g.kids (some o) = props.flatMap memberItems := by
        rw [PlainGraph.kids, hprops, PlainGraph.items, ho]
        exact List.append_nil _
      have hkeys : ∀ world, g.engine.keys (some o) world = (props.map fst, world) := by
        intro world
        rw [← hprops]
        rfl
      rw [hv, hkids]
      refine (watchCircular_agrees slot (some o) w).bind fun w1 => ?_
      simp only [hkeys]
      have h := members_agrees g fuel ih slot (some o) props ?_ false (w1.push (ascii "\x7b"))
      · refine h.map (fun p => p.2.push (closing slot p.1 "\x7d")) ?_
        exact fun _ => rfl
      · intro prop hp
        rw [hprops]
        exact lookup_of_mem hd hp
    | array items =>
      have hv : g.val (.ref o) = .array (some o) := by rw [PlainGraph.val, ho]
      have hitems : g.items (some o) = items := by rw [PlainGraph.items, ho]
      have hkids : g.kids (some o) = items.flatMap elementItems := by
        rw [PlainGraph.kids, hitems, PlainGraph.props, ho]
        rfl
      have hlen : ∀ world, List.range (g.engine.length (some o) world) =
          items.zipIdx.map snd := by
        intro world
        rw [List.zipIdx_map_snd, ← hitems, List.range_eq_range']
        rfl
      rw [hv, hkids]
      refine (watchCircular_agrees slot (some o) (w.push (ascii "["))).bind fun w1 => ?_
      simp only [hlen]
      have h := elements_agrees g fuel ih slot (some o) items.zipIdx ?_ false false w1
      · rw [List.zipIdx_map_fst] at h
        refine h.map (fun p => p.2.push (closing slot p.1 "]")) ?_
        exact fun _ => rfl
      · intro item hi
        rw [hitems]
        exact List.mem_zipIdx_iff_getElem?.mp hi

end Agrees

/-! ### The whole value -/

section Root

variable {F : Type} {n : ℕ}

/-- How a call ends: with a text, with a cycle, or at a value that comes before any cycle. -/
inductive Ends (g : PlainGraph F n) (root : Item F n) :
    Except (Stop Empty) (Option Bytes) → Prop
  | ok (text : Option Bytes) (hc : ¬ g.Cyclic root) (hf : ¬ g.FailsFirst root) :
      Ends g root (.ok text)
  | circular (message : Bytes) (hc : g.Cyclic root) (hf : ¬ g.FailsFirst root) :
      Ends g root (.error (.circular message))
  | bigint (hf : g.FailsFirst root) : Ends g root (.error .bigint)
  | panic (hf : g.FailsFirst root) : Ends g root (.error .panic)

variable [Numeral F]

theorem ends_prim (g : PlainGraph F n) (p : Prim F) (indentation : Option Bytes) (fuel : ℕ) :
    Ends g (.prim p)
      (jsonStringifyReplacerSpace fuel g.engine (g.val (.prim p)) none indentation ()) := by
  have hw := wrote_writePrimitive2 (⟨none, none⟩ : Replacing F (Option (Fin n)) Unit Empty)
    ⟨0, none, none, none, none⟩ p.val false none ⟨(), [], []⟩
  change Ends g _ (writePrimitive2 _ _ p.val false none _ >>= _)
  generalize writePrimitive2 _ _ p.val false none _ = r at hw ⊢
  rw [Option.getD_none] at hw
  cases hw with
  | omitted _ ho =>
    rw [Prim.isOmitted_val] at ho
    refine .ok _ not_false fun hf => ?_
    cases ho.symm.trans (Prim.isOmitted_of_fails hf)
  | bigint hv =>
    obtain rfl := Prim.eq_bigint hv
    exact .bigint rfl
  | filtered hk => exact absurd nofun hk
  | badKey _ hs => exact absurd hs (by simp [separators, optionalKey])
  | badText before _ ht => exact .panic ((p.fails_iff (Option (Fin n))).mpr (.inr ht))
  | text before text _ _ _ ht =>
    refine .ok _ not_false ?_
    simp [PlainGraph.FailsFirst, Prim.fails_eq_false ht (Prim.ne_bigint_of_text ht)]
  | nested before _ _ _ ht hb =>
    have hb : p ≠ .bigint := fun h => hb (h ▸ rfl)
    change Ends g _ (iterate _ _ fuel _ p.val none _ >>= _)
    rw [iterate_prim]
    refine .ok _ not_false ?_
    simp [PlainGraph.FailsFirst, Prim.fails_eq_false ht hb]

variable {fuel : ℕ}

theorem ends_ref (g : PlainGraph F n) (o : Fin n) (indentation : Option Bytes)
    (hfuel : n + 22 ≤ fuel) :
    Ends g (.ref o)
      (jsonStringifyReplacerSpace fuel g.engine (g.val (.ref o)) none indentation ()) := by
  have hcard : Fintype.card (Option (Fin n)) + circularRefDetectionDepth + 1 ≤ fuel := by
    rw [Fintype.card_option, Fintype.card_fin, circularRefDetectionDepth]
    omega
  have hwalk := @walk_root _ g.kids _ _ _ _ hcard (some o)
  have hiter := iterate_agrees g fuel ⟨1, indentation, none, none, none⟩ o ⟨(), [], []⟩
  have hstart : jsonStringifyReplacerSpace fuel g.engine (g.val (.ref o)) none indentation () =
      (iterate g.engine ⟨none, none⟩ fuel ⟨1, indentation, none, none, none⟩ (g.val (.ref o)) none
        ⟨(), [], []⟩ >>= fun w => .ok (some w.result)) := by
    rcases g.val_ref o with hv | hv
    all_goals
      rw [hv]
      rfl
  rw [hstart]
  change Agrees id _ (walk g.kids circularRefDetectionDepth fuel 1 none (some o) []) at hiter
  generalize iterate g.engine _ fuel _ _ none _ = r at hiter ⊢
  generalize walk g.kids circularRefDetectionDepth fuel 1 none (some o) [] = h at hiter hwalk
  cases hiter with
  | ok w =>
    cases hwalk with
    | ok h => exact .ok _ h.1 fun hf => h.2 hf.fails
  | circular message =>
    cases hwalk with
    | circular hc hf => exact .circular message hc hf
  | bigint =>
    cases hwalk with
    | leaf hf => exact .bigint hf
  | panic =>
    cases hwalk with
    | leaf hf => exact .panic hf
  | fuel =>
    cases hwalk with
    | fuel h => exact h.elim

/-- **Circular references**: with enough fuel a call ends. The error is thrown only if there is a
cycle, and it is thrown for each cycle and for nothing else, and every graph without a cycle has a
text, unless a BigInt or a string that cannot be escaped comes first. -/
theorem stringify_circular (g : PlainGraph F n) (root : Item F n) (indentation : Option Bytes)
    {fuel : ℕ} (hfuel : n + 22 ≤ fuel) {r : Except (Stop Empty) (Option Bytes)}
    (hr : jsonStringifyReplacerSpace fuel g.engine (g.val root) none indentation () = r) :
    r ≠ .error .fuel ∧ ((∃ message, r = .error (.circular message)) → g.Cyclic root) ∧
      ((((∃ message, r = .error (.circular message)) ↔ g.Cyclic root) ∧
        (¬ g.Cyclic root → ∃ text, r = .ok text)) ↔ ¬ g.FailsFirst root) := by
  have h : Ends g root r := by
    rw [← hr]
    cases root with
    | prim p => exact ends_prim g p indentation fuel
    | ref o => exact ends_ref g o indentation hfuel
  cases h with
  | ok text hc hf | circular message hc hf => simp [hc, hf]
  | bigint hf | panic hf => simp [hf]

end Root

/-- Integers, with the text that they have as floating point numbers. -/
instance : Numeral ℤ where
  isFinite := fun _ => true
  ryu := fun i => itoa i ++ ascii ".0"

/-- An object that is its own member. -/
def selfLoop : PlainGraph ℤ 1 := fun _ => .object [(ascii "self", .ref 0)] (by decide)

theorem stringify_circular_self :
    ∃ message, jsonStringifyReplacerSpace 23 selfLoop.engine (selfLoop.val (.ref 0)) none none () =
      .error (.circular message) ∧ selfLoop.Cyclic (.ref 0) := by
  have hr : jsonStringifyReplacerSpace 23 selfLoop.engine (selfLoop.val (.ref 0)) none none () =
      .error (.circular (ascii "Circular reference detected at: \"...self\"")) := by
    decide +kernel
  exact ⟨_, hr, (stringify_circular selfLoop (.ref 0) none (by decide) hr).2.1 ⟨_, rfl⟩⟩

/-- An array with half of a surrogate pair and a quote. -/
def halfPair : PlainGraph ℤ 1 := fun _ => .array [.prim (.string [0xED, 0xA0, 0x80, 0x22])]

/-- There is no cycle, and no text is returned. -/
theorem half_pair_panics :
    ¬ halfPair.Cyclic (.ref 0) ∧
      jsonStringify 23 halfPair.engine (halfPair.val (.ref 0)) () = .error .panic := by
  refine ⟨?_, by decide⟩
  rintro ⟨a, -, h⟩
  obtain ⟨c, hc, -⟩ := Relation.TransGen.head'_iff.mp h
  cases a with
  | none => cases hc
  | some o =>
    exact absurd hc (by simp [LateStack.Edge, PlainGraph.kids, PlainGraph.props, PlainGraph.items,
      halfPair, elementItems])

end RasterRuntime.Json
