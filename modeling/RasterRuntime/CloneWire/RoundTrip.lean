import RasterRuntime.CloneWire.Decode
import RasterRuntime.CloneWire.Table

/-! # A graph through the wire

What `decode_index` builds from the table of `encode_index` is the graph *as sent* (`sentObj`):
every array buffer holds the bytes of the first one that was encoded, and a property `__proto__` is
gone. -/

namespace RasterRuntime.CloneWire

open RasterRuntime.Graph Js Text
open Prod (fst snd)
open List (length_map map_append map_cons mem_map zip_cons_cons)

/-! ### Graphs of plain values -/

section plain

variable {P : Type}

/-- Undefined, null, booleans, numbers and strings. -/
def plainPrim : Prim → Bool
  | .bigInt _ | .symbol _ => false
  | _ => true

def plainValue : Value P → Bool
  | .atom a => plainPrim a
  | .ref _ => true

/-- Arrays, objects, dates, regular expressions that the engine accepts, and array buffers. -/
def plainObj (e : Engine) : Obj P → Bool
  | .array items => items.all plainValue
  | .object props => props.all fun x => plainValue x.2
  | .regExp source flags => e.regExp source flags
  | .date _ | .arrayBuffer _ => true
  | _ => false

end plain

/-- A graph of plain values. -/
structure WireGraph (e : Engine) (P : Type) [DecidableEq P] extends Graph P where
  plain_root : plainValue root = true
  plain : ∀ p, plainObj e (obj p) = true

/-- An object as it arrives. -/
def sentObj {P : Type} (transfers : List (List UInt8)) : Obj P → Obj P
  | .object props => .object (keptProps props)
  | .arrayBuffer bytes => .arrayBuffer (transfers.headD bytes)
  | o => o

variable {P : Type} [DecidableEq P]

/-- The objects with a common index. -/
def SameIndex (s : EncodeState P) (c : DecodeState) (p : P) (b : ℕ) : Prop :=
  ∃ i, s.memo p = some i ∧ c.cache i.toNat = some (.ref b)

/-- The primitive of a node. -/
def decodePrim : WireNode → Option Prim
  | .undefined => some .undefined
  | .null => some .null
  | .bool b => some (.bool b)
  | .number n => some (.number n)
  | .string cs => some (.string (Utf16.encode cs))
  | _ => none

/-- The invariant of the decoder; the objects in `O` are still being filled. -/
structure DecodeInv (g : Graph P) (s : EncodeState P) (O : ℕ → Prop) (c : DecodeState) : Prop where
  range : ∀ i b, c.cache i = some (.ref b) → b < c.heap.length
  inj : ∀ i j b, c.cache i = some (.ref b) → c.cache j = some (.ref b) → i = j
  owner : ∀ i b, c.cache i = some (.ref b) → ∃ p j, s.memo p = some j ∧ j.toNat = i
  atoms : ∀ i a, c.cache i = some (.atom a) → ∃ node, s.nodes[i]? = some node ∧
    decodePrim node = some a
  done : ∀ p b, SameIndex s c p b → ¬ O b → ∃ o, c.heap[b]? = some o ∧
    Cell.Rel (SameIndex s c) (sentObj s.transfers (g.obj p)).cell o.cell

/-- What a call keeps: the cache, and the objects below `m`. -/
structure Keeps (m : ℕ) (c c' : DecodeState) : Prop where
  length_le : c.heap.length ≤ c'.heap.length
  heap : ∀ b < m, c'.heap[b]? = c.heap[b]?
  cache : ∀ i v, c.cache i = some v → c'.cache i = some v

theorem Keeps.refl (m : ℕ) (c : DecodeState) : Keeps m c c :=
  ⟨Nat.le_refl _, fun _ _ => rfl, fun _ _ h => h⟩

variable {m : ℕ} {o : Obj P} {ids : List UInt32}

theorem Keeps.trans {c1 c2 c3 : DecodeState} (h : Keeps m c1 c2) (h' : Keeps m c2 c3) :
    Keeps m c1 c3 :=
  ⟨Nat.le_trans h.length_le h'.length_le, fun b hb => (h'.heap b hb).trans (h.heap b hb),
    fun i v hi => h'.cache i v (h.cache i v hi)⟩

omit [DecidableEq P] in
theorem Keeps.sameIndex {s : EncodeState P} {c c' : DecodeState} (h : Keeps m c c')
    (p : P) (b : ℕ) :
    SameIndex s c p b → SameIndex s c' p b := fun ⟨i, hp, hb⟩ => ⟨i, hp, h.cache _ _ hb⟩

/-! ### Primitives -/

variable {node : WireNode}

theorem decodePrim_encodePrim {a : Prim} (h : encodePrim a = .ok node) (ha : plainPrim a) :
    decodePrim node = some a := by
  cases a with
  | string s =>
    obtain ⟨cs, hs, h⟩ := bind_eq_ok.mp h
    cases h
    show some (Prim.string (Utf16.encode cs)) = _
    rw [encode_toStdString hs]
  | undefined | null | bool | number =>
    cases h
    rfl
  | bigInt | symbol => cases ha

omit [DecidableEq P] in
theorem decodePrim_nodeFor (h : NodeFor o ids node) :
    decodePrim node = none := by
  cases h <;> rfl

omit [DecidableEq P] in
theorem nodeFor_ne_ref (h : NodeFor o ids node) (id : UInt32) :
    node ≠ .ref id := by
  rintro rfl
  cases h

section steps

variable {g : Graph P} {s : EncodeState P} {O : ℕ → Prop} {c : DecodeState} {w : Value ℕ} {idx : ℕ}
  {i : UInt32} {v : Value ℕ} {p : P} {b : ℕ}

/-- What the cache has for an index is the value that the index stands for. -/
theorem DecodeInv.hit (hs : EncodeInv g (fun _ => False) s) (h : DecodeInv g s O c) {v : Value P}
    (hv : Encodes s v i) (hp : plainValue v) (hw : c.cache i.toNat = some w) :
    v.Rel (SameIndex s c) w := by
  cases v with
  | atom a =>
    obtain ⟨node, ha, hn, hm⟩ := hv
    cases w with
    | atom a' =>
      obtain ⟨node', hn', ha'⟩ := h.atoms _ a' hw
      rw [hn] at hn'
      cases hn'
      rw [decodePrim_encodePrim ha hp] at ha'
      cases ha'
      rfl
    | ref b =>
      obtain ⟨p, j, hj, hji⟩ := h.owner _ b hw
      rw [UInt32.toNat_inj.mp hji] at hj
      exact absurd hj (hm p)
  | ref p =>
    cases w with
    | atom a =>
      obtain ⟨node, hn, ha⟩ := h.atoms _ a hw
      obtain ⟨ids, node', hn', hf, _⟩ := hs.done p i hv id
      rw [hn] at hn'
      cases hn'
      rw [decodePrim_nodeFor hf] at ha
      cases ha
    | ref b => exact ⟨i, hv, hw⟩

theorem cache_fill {i : ℕ} (h : (c.fill idx v).cache i = some w) :
    (i = idx ∧ w = v) ∨ c.cache i = some w := by
  replace h : (if i = idx then some v else c.cache i) = some w := h
  split_ifs at h with hi
  · cases h
    exact .inl ⟨hi, rfl⟩
  · exact .inr h

theorem cache_fill_self (c : DecodeState) (idx : ℕ) (v : Value ℕ) :
    (c.fill idx v).cache idx = some v :=
  if_pos rfl

theorem cache_fill_of_some {i : ℕ} (hn : c.cache idx = none) (h : c.cache i = some w) :
    (c.fill idx v).cache i = some w := by
  show (if i = idx then _ else c.cache i) = _
  rw [if_neg, h]
  rintro rfl
  rw [hn] at h
  cases h

theorem keeps_fill (v : Value ℕ) (m : ℕ) (hn : c.cache idx = none) :
    Keeps m c (c.fill idx v) :=
  ⟨Nat.le_refl _, fun _ _ => rfl, fun _ _ h => cache_fill_of_some hn h⟩

theorem DecodeInv.fillAtom (h : DecodeInv g s O c) {a : Prim}
    (hn : c.cache idx = none) (hnode : s.nodes[idx]? = some node) (ha : decodePrim node = some a) :
    DecodeInv g s O (c.fill idx (.atom a)) := by
  have hk := keeps_fill (.atom a) c.heap.length hn
  have hback {i b} (hi : (c.fill idx (.atom a)).cache i = some (.ref b)) :
      c.cache i = some (.ref b) := by
    obtain ⟨_, ⟨⟩⟩ | hi := cache_fill hi
    exact hi
  refine ⟨fun i b hi => h.range i b (hback hi),
    fun i j b hi hj => h.inj i j b (hback hi) (hback hj),
    fun i b hi => h.owner i b (hback hi), ?_, ?_⟩
  · intro i a' hi
    obtain ⟨rfl, ⟨⟩⟩ | hi := cache_fill hi
    · exact ⟨node, hnode, ha⟩
    · exact h.atoms i a' hi
  · rintro p b ⟨i, hp, hi⟩ hO
    obtain ⟨o, ho, hr⟩ := h.done p b ⟨i, hp, hback hi⟩ hO
    exact ⟨o, ho, hr.mono hk.sameIndex⟩

/-- The state in which the object of `p` has just been allocated and cached. -/
def DecodeState.enter (c : DecodeState) (idx : ℕ) (o : Obj ℕ) : DecodeState :=
  (alloc o c).2.fill idx (.ref c.heap.length)

theorem keeps_enter (o : Obj ℕ) (hn : c.cache idx = none) :
    Keeps c.heap.length c (c.enter idx o) where
  length_le := by
    show _ ≤ (c.heap ++ [o]).length
    rw [List.length_append]
    exact Nat.le_add_right _ _
  heap := fun b hb => List.getElem?_append_left hb
  cache := fun i v hi => cache_fill_of_some (c := (alloc o c).2) hn hi

theorem heap_enter (c : DecodeState) (idx : ℕ) (o : Obj ℕ) :
    (c.enter idx o).heap[c.heap.length]? = some o :=
  List.getElem?_concat_length

theorem DecodeInv.enter (h : DecodeInv g s O c) (o : Obj ℕ) (hp : s.memo p = some i)
    (hn : c.cache i.toNat = none) :
    DecodeInv g s (fun b => O b ∨ b = c.heap.length) (c.enter i.toNat o) := by
  have hk := keeps_enter o hn
  have hback {j b} (hj : (c.enter i.toNat o).cache j = some (.ref b)) :
      (j = i.toNat ∧ b = c.heap.length) ∨ c.cache j = some (.ref b) :=
    (cache_fill hj).imp_left fun ⟨hj, hw⟩ => ⟨hj, Edge.ref.inj hw⟩
  have hlen : (c.enter i.toNat o).heap.length = c.heap.length + 1 := List.length_append
  refine ⟨?_, ?_, ?_, ?_, ?_⟩
  · intro j b hj
    rcases hback hj with ⟨_, rfl⟩ | hj
    · omega
    · have := h.range j b hj
      omega
  · intro j k b hj hk
    rcases hback hj with ⟨hji, hb⟩ | hj' <;> rcases hback hk with ⟨hki, hb'⟩ | hk'
    · rw [hji, hki]
    · have := h.range k b hk'
      omega
    · have := h.range j b hj'
      omega
    · exact h.inj j k b hj' hk'
  · intro j b hj
    rcases hback hj with ⟨rfl, _⟩ | hj
    · exact ⟨p, i, hp, rfl⟩
    · exact h.owner j b hj
  · intro j a hj
    obtain ⟨_, ⟨⟩⟩ | hj := cache_fill hj
    exact h.atoms j a hj
  · rintro q b ⟨j, hq, hj⟩ hO
    rcases hback hj with ⟨_, rfl⟩ | hj
    · exact absurd (.inr rfl) hO
    · obtain ⟨o', ho, hr⟩ := h.done q b ⟨j, hq, hj⟩ fun ho => hO (.inl ho)
      exact ⟨o', (hk.heap b (h.range _ b hj)).trans ho, hr.mono hk.sameIndex⟩

theorem DecodeInv.put (h : DecodeInv g s O c) (hb : O b) (o : Obj ℕ) :
    DecodeInv g s O { c with heap := c.heap.set b o } := by
  refine ⟨?_, h.inj, h.owner, h.atoms, ?_⟩
  · intro i b' hi
    rw [List.length_set]
    exact h.range i b' hi
  · intro p b' hp hO
    obtain ⟨o', ho, hr⟩ := h.done p b' hp hO
    have hne : b ≠ b' := fun he => hO (he ▸ hb)
    exact ⟨o', by rw [← ho]; exact List.getElem?_set_ne hne, hr⟩

/-- An index belongs to one object of the graph and to one that is built. -/
theorem biUnique_sameIndex (hs : EncodeInv g (fun _ => False) s) (h : DecodeInv g s O c) :
    Relator.BiUnique (SameIndex s c) := by
  constructor
  · rintro p q b ⟨i, hp, hi⟩ ⟨j, hq, hj⟩
    rw [← UInt32.toNat_inj.mp (h.inj _ _ b hi hj)] at hq
    exact hs.inj p q i hp hq
  · rintro p b b' ⟨i, hp, hi⟩ ⟨j, hq, hj⟩
    cases hp.symm.trans hq
    cases hi.symm.trans hj
    rfl

theorem DecodeInv.close (hs : EncodeInv g (fun _ => False) s) {o : Obj ℕ}
    (h : DecodeInv g s (fun x => O x ∨ x = b) c) (hp : SameIndex s c p b) (ho : c.heap[b]? = some o)
    (hr : Cell.Rel (SameIndex s c) (sentObj s.transfers (g.obj p)).cell o.cell) :
    DecodeInv g s O c := by
  refine ⟨h.range, h.inj, h.owner, h.atoms, fun q b' hq hO => ?_⟩
  by_cases hb : b' = b
  · subst hb
    rw [(biUnique_sameIndex hs h).1 hq hp]
    exact ⟨o, ho, hr⟩
  · exact h.done q b' hq fun hx => hx.elim hO hb

end steps

/-! ### Calls -/

/-- The number of indexes for which nothing is built yet. -/
def uncached (n : ℕ) (c : DecodeState) : ℕ :=
  ((Finset.range n).filter fun i => c.cache i = none).card

variable {n : ℕ} {c c' : DecodeState}

/-- What is cached stays cached. -/
def Caches (c c' : DecodeState) : Prop := ∀ i v, c.cache i = some v → c'.cache i = some v

theorem Caches.uncached_le (h : Caches c c') : uncached n c' ≤ uncached n c :=
  card_none_le h _

theorem Caches.uncached_lt {i : ℕ} {v : Value ℕ} (h : Caches c c') (hi : i < n)
    (hn : c.cache i = none) (hv : c'.cache i = some v) : uncached n c' < uncached n c :=
  card_none_lt h _ (Finset.mem_range.mpr hi) hn hv

/-- What a call of `decode_at` guarantees. -/
structure Built (g : Graph P) (s : EncodeState P) (O : ℕ → Prop) (c : DecodeState) (v : Value P)
    (w : Value ℕ) (c' : DecodeState) : Prop where
  inv : DecodeInv g s O c'
  keeps : Keeps c.heap.length c c'
  rel : v.Rel (SameIndex s c') w

/-- `dec` builds the values of indexes, from states with fewer than `n` indexes to go. -/
def Builds (g : Graph P) (s : EncodeState P) (n : ℕ) (dec : ℕ → Decoder (Value ℕ)) : Prop :=
  ∀ O v i c, Encodes s v i → plainValue v = true → DecodeInv g s O c →
    uncached s.nodes.length c < n → ∃ w c', dec i.toNat c = .ok (w, c') ∧ Built g s O c v w c'

section loop

variable {g : Graph P} {s : EncodeState P} {dec : ℕ → Decoder (Value ℕ)} {O : ℕ → Prop}
  {κ : Type} {put : κ → Value ℕ → DecodeState → DecodeState} {object : List (κ × Value ℕ) → Obj ℕ}
  {b : ℕ} {keys : List κ}

/-- **The loop over the contents of the object `b`**: it holds what `object` makes of the keys and
the values that are built for them. -/
theorem decodeEach_spec (hdec : Builds g s n dec) (hb : O b)
    (hput : ∀ done k rest v (c : DecodeState), keys = done.map fst ++ k :: rest →
      c.heap[b]? = some (object done) →
      put k v c = { c with heap := c.heap.set b (object (done ++ [(k, v)])) }) :
    ∀ (ks : List κ) (ids : List UInt32) (vs : List (Value P)) (done : List (κ × Value ℕ))
      (c : DecodeState), keys = done.map fst ++ ks → ks.length = ids.length →
      List.Forall₂ (Encodes s) vs ids → (∀ v ∈ vs, plainValue v) → DecodeInv g s O c →
      uncached s.nodes.length c < n → c.heap[b]? = some (object done) →
      ∃ ws c', decodeEach dec put (ks.zip ids) c = .ok c' ∧ DecodeInv g s O c' ∧ Keeps b c c' ∧
        c'.heap[b]? = some (object (done ++ ks.zip ws)) ∧ ks.length = ws.length ∧
        List.Forall₂ (Edge.Rel (SameIndex s c')) vs ws
  | [], [], [], done, c, _, _, _, _, hinv, _, hheap =>
    ⟨[], c, rfl, hinv, Keeps.refl b c, by rwa [List.zip_nil_left, List.append_nil], rfl, .nil⟩
  | k :: ks, id :: ids, v :: vs, done, c, hkeys, hl, .cons hv hvs, hp, hinv, hn, hheap => by
    obtain ⟨w, c1, hd, hbuilt⟩ := hdec O v id c hv (hp v (by simp)) hinv hn
    have hlt : b < c.heap.length := (List.getElem?_eq_some_iff.mp hheap).1
    have hheap1 : c1.heap[b]? = some (object done) := (hbuilt.keeps.heap b hlt).trans hheap
    have hlt1 : b < c1.heap.length := (List.getElem?_eq_some_iff.mp hheap1).1
    have hput1 := hput done k ks w c1 hkeys hheap1
    have hk1 : Keeps b c (put k w c1) := by
      rw [hput1]
      refine ⟨?_, ?_, hbuilt.keeps.cache⟩
      · rw [List.length_set]
        exact hbuilt.keeps.length_le
      · intro x hx
        rw [List.getElem?_set_ne (by omega)]
        exact hbuilt.keeps.heap x (by omega)
    obtain ⟨ws, c', hok, hinv', hk', hh', hlen, hr⟩ := decodeEach_spec hdec hb hput ks ids vs
      (done ++ [(k, w)]) (put k w c1) (by rw [hkeys, map_append, List.append_assoc]; rfl)
      (Nat.succ.inj hl) hvs (fun x hx => hp x (by simp [hx]))
      (by rw [hput1]; exact hbuilt.inv.put hb _)
      (Nat.lt_of_le_of_lt (Caches.uncached_le hk1.cache) hn)
      (by rw [hput1]; exact List.getElem?_set_self hlt1)
    have hsame : ∀ p x, SameIndex s c1 p x → SameIndex s c' p x := by
      rintro p x ⟨i, hi, hx⟩
      refine ⟨i, hi, hk'.cache _ _ ?_⟩
      rw [hput1]
      exact hx
    refine ⟨w :: ws, c', ?_, hinv', hk1.trans hk', ?_, congrArg Nat.succ hlen,
      .cons (hbuilt.rel.mono hsame) hr⟩
    · rw [zip_cons_cons, decodeEach, hd]
      exact hok
    · rw [hh', zip_cons_cons, List.append_assoc]
      rfl

end loop

/-! ### Arrays and objects -/

variable {b : ℕ}

theorem setItem_next {k : ℕ} {done : List (ℕ × Value ℕ)} {rest : List ℕ} (v : Value ℕ)
    (hk : List.range m = done.map fst ++ k :: rest)
    (hb : c.heap[b]? = some (.array (done.map snd))) :
    c.setItem b k v = { c with heap := c.heap.set b (.array ((done ++ [(k, v)]).map snd)) } := by
  have hlen : k = (done.map snd).length := by
    have hget : done.length < m ∧ done.length = k := by
      simpa [List.getElem?_eq_some_iff] using congrArg (·[done.length]?) hk
    rw [length_map, hget.2]
  unfold DecodeState.setItem Heap.setItem
  rw [hb]
  dsimp only
  rw [hlen, arraySet_length, map_append, List.map_singleton]

/-- The properties that are there after those in `done` were set. -/
def setProps (done : List (List Char × Value ℕ)) : List (JsString × Value ℕ) :=
  keptProps (done.map fun x => (Utf16.encode x.1, x.2))

theorem setProp_next {keys rest : List (List Char)} {k : List Char}
    {done : List (List Char × Value ℕ)} (v : Value ℕ) (hnd : (keys.map Utf16.encode).Nodup)
    (hk : keys = done.map fst ++ k :: rest) (hb : c.heap[b]? = some (.object (setProps done))) :
    c.setProp b (Utf16.encode k) v =
      { c with heap := c.heap.set b (.object (setProps (done ++ [(k, v)]))) } := by
  have hnew : Utf16.encode k ∉ (done.map fun x => (Utf16.encode x.1, x.2)).map fst := by
    intro hm
    obtain ⟨y, hy, hyk⟩ := mem_map.mp (List.map_map ▸ hm)
    rw [hk, map_append, map_cons] at hnd
    refine (List.nodup_append.mp hnd).2.2 (Utf16.encode y.1) ?_ (Utf16.encode k) (by simp) hyk
    exact List.mem_map_of_mem (List.mem_map_of_mem hy)
  unfold DecodeState.setProp Heap.setProp
  rw [hb]
  dsimp only
  unfold setProps
  rw [objectSet_kept v hnew, map_append]
  rfl

omit [DecidableEq P] in
theorem forall₂_filter_props {R : P → ℕ → Prop} (keep : JsString → Bool) :
    ∀ (props : List (JsString × Value P)) (ws : List (Value ℕ)),
    List.Forall₂ (Edge.Rel R) (props.map snd) ws →
    (props.filter fun x => keep x.1).map fst =
      (((props.map fst).zip ws).filter fun x => keep x.1).map fst ∧
    List.Forall₂ (Edge.Rel R) ((props.filter fun x => keep x.1).map snd)
      ((((props.map fst).zip ws).filter fun x => keep x.1).map snd)
  | [], [], _ => ⟨rfl, .nil⟩
  | (k, v) :: props, w :: ws, .cons hv h => by
    obtain ⟨hl, hr⟩ := forall₂_filter_props keep props ws h
    rw [map_cons, zip_cons_cons, List.filter_cons, List.filter_cons]
    split_ifs
    · exact ⟨congrArg (k :: ·) hl, .cons hv hr⟩
    · exact ⟨hl, hr⟩

/-! ### The whole decoder -/

section node

variable {e : Engine} {g : Graph P} {s : EncodeState P} {dec : ℕ → Decoder (Value ℕ)}
  {O : ℕ → Prop} {p : P} {i : UInt32}

/-- The step of `decode_at` at a node: what it builds is cached, if it is not yet. -/
def decodeCached (dec : ℕ → Decoder (Value ℕ)) (e : Engine) (transfers : List (List UInt8))
    (idx : ℕ) (node : WireNode) : Decoder (Value ℕ) := fun c => do
  let (v, c') ← decodeNode dec e transfers idx node c
  .ok (v, c'.fillEmpty idx v)

variable (hs : EncodeInv g (fun _ => False) s) (hinv : DecodeInv g s O c)
  (hp : s.memo p = some i) (hc : c.cache i.toNat = none)
include hs hinv hp hc

theorem built_leaf {o : Obj ℕ}
    (hnode : decodeNode dec e s.transfers i.toNat node c = .ok (alloc o c))
    (hlabel : (sentObj s.transfers (g.obj p)).label = o.label)
    (hkids : (sentObj s.transfers (g.obj p)).kids = []) (hkids' : o.kids = []) :
    ∃ w c', decodeCached dec e s.transfers i.toNat node c = .ok (w, c') ∧
      Built g s O c (.ref p) w c' := by
  refine ⟨.ref c.heap.length, c.enter i.toNat o, ?_, ?_, keeps_enter o hc, ?_⟩
  · unfold decodeCached
    rw [hnode]
    show Except.ok (_, (alloc o c).2.fillEmpty i.toNat _) = _
    unfold DecodeState.fillEmpty
    rw [show (alloc o c).2.cache i.toNat = none from hc]
    rfl
  · refine (hinv.enter o hp hc).close hs ⟨i, hp, cache_fill_self _ _ _⟩ (heap_enter c _ o)
      ⟨hlabel, ?_⟩
    show List.Forall₂ _ (sentObj s.transfers (g.obj p)).kids o.kids
    rw [hkids, hkids']
    exact .nil
  · exact ⟨i, hp, cache_fill_self _ _ _⟩

variable (hdec : Builds g s n dec) (hn : uncached s.nodes.length c < n + 1)
include hdec hn

/-- An array or an object is allocated and cached, and then filled. -/
theorem built_filled {κ : Type} (keys : List κ) (object : List (κ × Value ℕ) → Obj ℕ)
    {put : κ → Value ℕ → DecodeState → DecodeState} (hi : i.toNat < s.nodes.length)
    (hput : ∀ done k rest v (c1 : DecodeState), keys = done.map fst ++ k :: rest →
      c1.heap[c.heap.length]? = some (object done) →
      put k v c1 = { c1 with heap := c1.heap.set c.heap.length (object (done ++ [(k, v)])) })
    (hlen : keys.length = ids.length) (hkids : List.Forall₂ (Encodes s) (g.obj p).kids ids)
    (hplain : ∀ v ∈ (g.obj p).kids, plainValue v)
    (hnode : decodeNode dec e s.transfers i.toNat node c =
      (decodeEach dec put (keys.zip ids) (c.enter i.toNat (object [])) >>= fun c' =>
        .ok (.ref c.heap.length, c')))
    (hcell : ∀ (R : P → ℕ → Prop) ws, keys.length = ws.length →
      List.Forall₂ (Edge.Rel R) (g.obj p).kids ws →
      Cell.Rel R (sentObj s.transfers (g.obj p)).cell (object (keys.zip ws)).cell) :
    ∃ w c', decodeCached dec e s.transfers i.toNat node c = .ok (w, c') ∧
      Built g s O c (.ref p) w c' := by
  have hk := keeps_enter (object []) hc
  have hlt : uncached s.nodes.length (c.enter i.toNat (object [])) < n := by
    have := Caches.uncached_lt hk.cache hi hc (cache_fill_self _ _ _)
    omega
  obtain ⟨ws, c', hok, hinv', hk', hheap, hl, hr⟩ := decodeEach_spec (O := fun b => O b ∨
    b = c.heap.length) hdec (.inr rfl) hput keys ids _ [] _ rfl hlen hkids hplain
    (hinv.enter _ hp hc) hlt (heap_enter c _ _)
  have hcache : c'.cache i.toNat = some (.ref c.heap.length) :=
    hk'.cache _ _ (cache_fill_self _ _ _)
  refine ⟨.ref c.heap.length, c', ?_, ?_, hk.trans hk', ⟨i, hp, hcache⟩⟩
  · unfold decodeCached
    rw [hnode, hok]
    show Except.ok (_, c'.fillEmpty i.toNat _) = _
    unfold DecodeState.fillEmpty
    rw [hcache]
  · exact hinv'.close hs ⟨i, hp, hcache⟩ hheap (hcell _ ws hl hr)

/-- **A node of a plain object builds it.** -/
theorem decodeCached_spec (hnode : NodeFor (g.obj p) ids node)
    (hkids : List.Forall₂ (Encodes s) (g.obj p).kids ids) (hplain : plainObj e (g.obj p)) :
    ∃ w c', decodeCached dec e s.transfers i.toNat node c = .ok (w, c') ∧
      Built g s O c (.ref p) w c' := by
  have hi := hs.range p i hp
  have hwf := g.wf p
  generalize ho : g.obj p = o at hnode hkids hplain hwf
  cases hnode with
  | array =>
    rename_i items
    refine built_filled hs hinv hp hc hdec hn (List.range ids.length)
      (fun done => .array (done.map snd)) hi
      (fun done k rest v c1 hk hb => setItem_next v hk hb) List.length_range (ho ▸ hkids) ?_ rfl ?_
    · rw [ho]
      exact List.all_eq_true.mp hplain
    · intro R ws hl hr
      rw [ho] at hr ⊢
      refine ⟨rfl, ?_⟩
      rw [List.map_snd_zip (Nat.le_of_eq hl.symm)]
      exact hr
  | object hkeys =>
    rename_i props keys
    have hmap := map_encode_keys hkeys
    have hlen : keys.length = ids.length := by
      have h1 := congrArg List.length hmap
      have h2 := hkids.length_eq
      rw [length_map, length_map] at h1
      rw [show (Obj.object props).kids = props.map snd from rfl, length_map] at h2
      omega
    refine built_filled hs hinv hp hc hdec hn keys (fun done => .object (setProps done)) hi
      (fun done k rest v c1 hk hb => setProp_next v (hmap ▸ hwf) hk hb) hlen (ho ▸ hkids) ?_ rfl ?_
    · rw [ho]
      intro v hv
      obtain ⟨x, hx, rfl⟩ := mem_map.mp hv
      exact List.all_eq_true.mp hplain x hx
    · intro R ws hl hr
      rw [ho] at hr ⊢
      have hprops : setProps (keys.zip ws) = keptProps ((props.map fst).zip ws) := by
        rw [← hmap, List.zip_map_left]
        rfl
      obtain ⟨hlabel, hkids'⟩ := forall₂_filter_props (fun k => k ≠ protoKey) props ws hr
      refine ⟨?_, ?_⟩
      · rw [hprops]
        exact congrArg Label.object hlabel
      · rw [hprops]
        exact hkids'
  | date | arrayBuffer => exact built_leaf hs hinv hp hc rfl (by rw [ho]; rfl) (by rw [ho]; rfl) rfl
  | regExp hsource hflags =>
    rename_i source flags source' flags'
    have h1 := encode_toStdString hsource
    have h2 := encode_toStdString hflags
    refine built_leaf (o := .regExp source flags) hs hinv hp hc ?_ (by rw [ho]; rfl)
      (by rw [ho]; rfl) rfl
    rw [decodeNode, h1, h2]
    exact if_pos hplain
  | error | map | set | sharedArrayBuffer | sharedView => cases hplain

end node

variable {e : Engine} {transfers : List (List UInt8)} {idx : ℕ}
    {g : WireGraph e P} {s : EncodeState P}

theorem decodeAt_uncached {nodes : List WireNode} (hc : c.cache idx = none)
    (hn : nodes[idx]? = some node) (href : ∀ id, node ≠ .ref id) :
    decodeAt e nodes transfers (n + 1) idx c =
      decodeCached (decodeAt e nodes transfers n) e transfers idx node c := by
  rw [decodeAt, hc, hn]
  cases node with
  | ref id => exact absurd rfl (href id)
  | _ => rfl

theorem decodeCached_prim {dec : ℕ → Decoder (Value ℕ)} {a : Prim} (hc : c.cache idx = none)
    (ha : decodePrim node = some a) :
    decodeCached dec e transfers idx node c = .ok (.atom a, c.fill idx (.atom a)) := by
  have hnode : decodeNode dec e transfers idx node c = .ok (.atom a, c) := by
    revert ha
    fun_cases decodePrim node <;> rintro ⟨⟩ <;> rfl
  unfold decodeCached
  rw [hnode]
  show Except.ok (_, c.fillEmpty idx _) = _
  unfold DecodeState.fillEmpty
  rw [hc]

/-- **A call keeps the invariant and builds the value that its index stands for.** -/
theorem decodeAt_spec (hs : EncodeInv g.toGraph (fun _ => False) s) :
    ∀ n, Builds g.toGraph s n (decodeAt e s.nodes s.transfers n)
  | 0, _, _, _, _, _, _, _, hn => absurd hn (Nat.not_lt_zero _)
  | n + 1, O, v, i, c, hv, hplain, hinv, hn => by
    cases hc : c.cache i.toNat with
    | some w =>
      refine ⟨w, c, ?_, hinv, Keeps.refl _ c, hinv.hit hs hv hplain hc⟩
      rw [decodeAt, hc]
    | none =>
      cases v with
      | atom a =>
        obtain ⟨node, ha, hnode, _⟩ := hv
        have hd := decodePrim_encodePrim ha hplain
        refine ⟨.atom a, c.fill i.toNat (.atom a), ?_, hinv.fillAtom hc hnode hd,
          keeps_fill _ _ hc, rfl⟩
        rw [decodeAt_uncached hc hnode (by rintro id rfl; cases hd), decodeCached_prim hc hd]
      | ref p =>
        obtain ⟨ids, node, hnode, hf, hk⟩ := hs.done p i hv id
        obtain ⟨w, c', hok, hbuilt⟩ := decodeCached_spec hs hinv hv hc (decodeAt_spec hs n) hn hf hk
          (g.plain p)
        refine ⟨w, c', ?_, hbuilt⟩
        rw [decodeAt_uncached hc hnode (nodeFor_ne_ref hf), hok]

theorem decodeInv_init (g : Graph P) (s : EncodeState P) :
    DecodeInv g s (fun _ => False) DecodeState.init :=
  ⟨nofun, nofun, nofun, nofun, nofun⟩

/-- The graph as it arrives. -/
def sentCells (g : Graph P) (transfers : List (List UInt8)) (p : P) :
    Option (Cell Label Prim P) :=
  some (sentObj transfers (g.obj p)).cell

/-- **What is decoded from the table of a graph is the graph as sent.** -/
theorem decodeIndex_sent [Fintype P] {i : UInt32} (h : encodeIndex g.toGraph = .ok (i, s))
    (hl : s.nodes.length ≤ 2 ^ 32) :
    ∃ w c, decodeIndex e s.nodes s.transfers i = .ok (w, c) ∧
      Isomorphic (sentCells g.toGraph s.transfers) g.root c.heap.cells w := by
  obtain ⟨hs, hroot⟩ := encodeIndex_table h hl
  have hn : uncached s.nodes.length DecodeState.init < (s.nodes.length + 1) ^ 2 := by
    have hle : uncached s.nodes.length DecodeState.init ≤ s.nodes.length :=
      (Finset.card_filter_le _ _).trans (Finset.card_range _).le
    exact (Nat.lt_succ_of_le hle).trans_le (Nat.le_self_pow (by decide) _)
  obtain ⟨w, c, hok, hbuilt⟩ := decodeAt_spec hs _ (fun _ => False) g.root i .init hroot
    g.plain_root (decodeInv_init _ s) hn
  refine ⟨w, c, hok, SameIndex s c, biUnique_sameIndex hs hbuilt.inv, ?_, hbuilt.rel⟩
  intro p b hpb
  obtain ⟨o, ho, hr⟩ := hbuilt.inv.done p b hpb id
  exact ⟨_, o.cell, rfl, by unfold Heap.cells; rw [ho]; rfl, hr⟩

end RasterRuntime.CloneWire
