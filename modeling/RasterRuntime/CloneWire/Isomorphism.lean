import RasterRuntime.CloneWire.RoundTrip

/-! # When a graph comes through the wire unchanged

`roundTrip` encodes a graph and decodes the table, with the transfers of the same encoding. Sharing
and cycles always survive. The graph comes out isomorphic to what it was just when it is `Sendable`:
no lone surrogate in a string, a key, or a regular expression; no property `__proto__`; and no two
array buffers with different bytes, since `decode_at` gives all of them the first transfer.

`roundTrip_iff` is the exact condition, `roundTrip_two_buffers` the smallest graph that fails. -/

namespace RasterRuntime.CloneWire

open RasterRuntime.Graph Js Text

variable {P : Type} [DecidableEq P]

/-- `encode_index`, and `decode_index` on its table and its transfers. -/
def roundTrip [Fintype P] (e : Engine) (g : Graph P) : Except CloneError (Value ℕ × Heap) := do
  let (root, s) ← encodeIndex g
  let (v, c) ← decodeIndex e s.nodes s.transfers root
  .ok (v, c.heap)

/-- What the wire carries unchanged. -/
structure Sendable (g : Graph P) : Prop where
  root : ∀ str, g.root = .atom (.string str) → wellFormed str = true
  strings : ∀ p, g.Reachable p → ∀ str, .atom (.string str) ∈ (g.obj p).kids →
    wellFormed str = true
  regExps : ∀ p, g.Reachable p → ∀ source flags, g.obj p = .regExp source flags →
    wellFormed source = true ∧ wellFormed flags = true
  keys : ∀ p, g.Reachable p → ∀ props, g.obj p = .object props → ∀ x ∈ props,
    wellFormed x.1 = true ∧ x.1 ≠ protoKey
  buffers : ∀ p q, g.Reachable p → g.Reachable q → ∀ b b', g.obj p = .arrayBuffer b →
    g.obj q = .arrayBuffer b' → b = b'

/-! ### A sendable graph -/

omit [DecidableEq P] in
theorem plainValue_of_mem {e : Engine} {o : Obj P} (h : plainObj e o) {v : Value P}
    (hv : v ∈ o.kids) : plainValue v := by
  cases o with
  | array items => exact List.all_eq_true.mp h v hv
  | object props =>
    obtain ⟨x, hx, rfl⟩ := List.mem_map.mp hv
    exact List.all_eq_true.mp h x hx
  | map | set => cases h
  | _ => cases hv

theorem primEncodable_of_plain {a : Prim} (h : plainPrim a)
    (hs : ∀ str, a = .string str → wellFormed str) : primEncodable a := by
  cases a with
  | string str => exact hs str rfl
  | bigInt => cases h
  | _ => rfl

theorem Sendable.encodable {e : Engine} {g : WireGraph e P} (h : Sendable g.toGraph) :
    Encodable g.obj g.root where
  root := fun a ha => by
    have hp := g.plain_root
    rw [ha] at hp
    exact primEncodable_of_plain hp fun str hs => h.root str (by rw [ha, hs])
  self := fun p hp => by
    have hplain := g.plain p
    generalize ho : g.obj p = o at hplain
    cases o with
    | object props => exact List.all_eq_true.mpr fun x hx => (h.keys p hp props ho x hx).1
    | regExp source flags =>
      obtain ⟨hs, hf⟩ := h.regExps p hp source flags ho
      show (wellFormed source && wellFormed flags) = true
      rw [hs, hf]
      rfl
    | array | date | arrayBuffer => rfl
    | _ => cases hplain
  kids := fun p hp a ha =>
    primEncodable_of_plain (plainValue_of_mem (g.plain p) ha) fun str hs =>
      h.strings p hp str (hs ▸ ha)

theorem Sendable.sentObj_eq {g : Graph P} {s : EncodeState P} (h : Sendable g)
    (hs : EncodeInv g (fun _ => False) s) {p : P} (hp : g.Reachable p) :
    sentObj s.transfers (g.obj p) = g.obj p := by
  generalize ho : g.obj p = o
  cases o with
  | object props =>
    show Obj.object (keptProps props) = _
    unfold keptProps
    rw [List.filter_eq_self.mpr]
    intro x hx
    exact decide_eq_true (h.keys p hp props ho x hx).2
  | arrayBuffer bytes =>
    cases ht : s.transfers with
    | nil => rfl
    | cons t ts =>
      obtain ⟨q, j, hq, hb⟩ := hs.sent t (by rw [ht]; simp)
      have hqr := hs.reach q j hq
      generalize ho' : g.obj q = o' at hb
      cases o' with
      | arrayBuffer b' =>
        rw [List.mem_singleton.mp hb]
        exact congrArg Obj.arrayBuffer (h.buffers q p hqr hp b' bytes ho' ho)
      | _ => cases hb
  | _ => rfl

/-! ### A graph that comes out unchanged -/

theorem reachable_of_sent {g : Graph P} {transfers : List (List UInt8)} {p : P}
    (h : Reach (sentCells g transfers) g.root p) : g.Reachable p := by
  induction h with
  | root hv => exact .root hv
  | kid _ hc hk ih =>
    cases hc
    refine .kid ih rfl ?_
    rename_i p q _
    generalize g.obj p = o at hk ⊢
    cases o with
    | object props =>
      obtain ⟨x, hx, hxq⟩ := List.mem_map.mp hk
      exact List.mem_map.mpr ⟨x, (List.mem_filter.mp hx).1, hxq⟩
    | _ => exact hk

omit [DecidableEq P] in
theorem wellFormed_of_encodes {s : EncodeState P} {str : JsString} {i : UInt32}
    (h : Encodes s (.atom (.string str)) i) : wellFormed str := by
  obtain ⟨node, ha, _, _⟩ := h
  obtain ⟨cs, hs, _⟩ := bind_eq_ok.mp ha
  exact wellFormed_of_toStdString hs

section necessary

variable {g : Graph P} {s : EncodeState P} {i : UInt32}

/-- An array buffer that arrives with bytes `b` is the first transfer. -/
theorem head_of_sent_buffer (hs : EncodeInv g (fun _ => False) s) (hroot : Encodes s g.root i)
    {p : P} (hp : g.Reachable p) {b : List UInt8}
    (h : (sentObj s.transfers (g.obj p)).label = .arrayBuffer b) :
    s.transfers.head? = some b := by
  obtain ⟨j, hj⟩ := hs.memo_of_reachable hroot hp
  have hkept := hs.kept p j hj id
  generalize g.obj p = o at h hkept
  cases o with
  | arrayBuffer b' =>
    have hm := hkept b' (by simp [CloneWire.buffers])
    generalize s.transfers = ts at h hm
    cases ts with
    | nil => cases hm
    | cons t ts =>
      cases h
      rfl
  | _ => cases h

theorem sendable_of_isomorphic (hs : EncodeInv g (fun _ => False) s)
    (hroot : Encodes s g.root i)
    (h : Isomorphic g.cells g.root (sentCells g s.transfers) g.root) : Sendable g := by
  obtain ⟨R, hR⟩ := h
  have hpartner (p) (hp : g.Reachable p) : ∃ q, g.Reachable q ∧
      (g.obj p).label = (sentObj s.transfers (g.obj q)).label := by
    obtain ⟨q, c, d, _, hq, hc, hd, hr⟩ := hR.reach hp
    cases hc
    cases hd
    exact ⟨q, reachable_of_sent hq, hr.label⟩
  have hnode (p) (hp : g.Reachable p) : ∃ ids node, NodeFor (g.obj p) ids node ∧
      List.Forall₂ (Encodes s) (g.obj p).kids ids := by
    obtain ⟨j, hj⟩ := hs.memo_of_reachable hroot hp
    obtain ⟨ids, node, _, hf, hk⟩ := hs.done p j hj id
    exact ⟨ids, node, hf, hk⟩
  refine ⟨?_, ?_, ?_, ?_, ?_⟩
  · intro str hstr
    rw [hstr] at hroot
    exact wellFormed_of_encodes hroot
  · intro p hp str hstr
    obtain ⟨ids, node, _, hk⟩ := hnode p hp
    obtain ⟨j, _, hj⟩ := exists_partner hk hstr
    exact wellFormed_of_encodes hj
  · intro p hp source flags ho
    obtain ⟨ids, node, hf, _⟩ := hnode p hp
    rw [ho] at hf
    cases hf with
    | regExp h1 h2 => exact ⟨wellFormed_of_toStdString h1, wellFormed_of_toStdString h2⟩
  · intro p hp props ho x hx
    obtain ⟨ids, node, hf, _⟩ := hnode p hp
    obtain ⟨q, hq, hl⟩ := hpartner p hp
    rw [ho] at hf hl
    cases hf with
    | object hkeys =>
      refine ⟨wellFormed_of_encodeKeys hkeys _ (List.mem_map_of_mem hx), fun hx1 => ?_⟩
      generalize g.obj q = o at hl
      cases o with
      | object props' =>
        have hkeys' : props.map Prod.fst = (keptProps props').map Prod.fst :=
          Label.object.inj hl
        have hm : x.1 ∈ props.map Prod.fst := List.mem_map_of_mem hx
        rw [hkeys'] at hm
        obtain ⟨y, hy, hyx⟩ := List.mem_map.mp hm
        exact of_decide_eq_true (List.mem_filter.mp hy).2 (hyx.trans hx1)
      | _ => cases hl
  · intro p q hp hq b b' ho ho'
    obtain ⟨p', hp', hl⟩ := hpartner p hp
    obtain ⟨q', hq', hl'⟩ := hpartner q hq
    rw [ho] at hl
    rw [ho'] at hl'
    have h1 := head_of_sent_buffer hs hroot hp' hl.symm
    have h2 := head_of_sent_buffer hs hroot hq' hl'.symm
    exact Option.some.inj (h1.symm.trans h2)

end necessary

variable [Fintype P]

/-- **A graph comes through the wire unchanged just when it is sendable.** The node table has no
more entries than there are 32-bit indexes. -/
theorem roundTrip_iff (e : Engine) (g : WireGraph e P)
    (hfit : ∀ i s, encodeIndex g.toGraph = .ok (i, s) → s.nodes.length ≤ 2 ^ 32) :
    (∃ v h, roundTrip e g.toGraph = .ok (v, h) ∧ Isomorphic g.cells g.root h.cells v) ↔
      Sendable g.toGraph := by
  constructor
  · rintro ⟨v, h, hok, hiso⟩
    obtain ⟨⟨i, s⟩, hi, hok⟩ := bind_eq_ok.mp hok
    obtain ⟨⟨w, c⟩, hd, hok⟩ := bind_eq_ok.mp hok
    cases hok
    obtain ⟨hs, hroot⟩ := encodeIndex_table hi (hfit i s hi)
    obtain ⟨w', c', hd', hsent⟩ := decodeIndex_sent hi (hfit i s hi)
    rw [show decodeIndex e s.nodes s.transfers i = _ from hd] at hd'
    cases hd'
    exact sendable_of_isomorphic hs hroot (hiso.trans hsent.symm)
  · intro hg
    obtain ⟨⟨i, s⟩, hi⟩ := encodeIndex_ok g.toGraph hg.encodable
    obtain ⟨hs, _⟩ := encodeIndex_table hi (hfit i s hi)
    obtain ⟨w, c, hd, hsent⟩ := decodeIndex_sent hi (hfit i s hi)
    refine ⟨w, c.heap, ?_, hsent.congr fun p hp => ?_⟩
    · unfold roundTrip
      rw [hi]
      show (decodeIndex e s.nodes s.transfers i >>= _) = _
      rw [hd]
      rfl
    · exact congrArg (fun o => some (Obj.cell o)) (hg.sentObj_eq hs hp)

/-! ### Two graphs -/

/-- An engine that accepts every regular expression and has no shared memory. -/
def plainEngine : Engine := ⟨fun _ => none, fun _ _ => true, fun _ => false, fun _ _ _ _ => false⟩

/-- An object that holds itself, and the same buffer twice. -/
def sharedBuffer : WireGraph plainEngine (Fin 2) where
  obj
    | 0 => .object [([97], .ref 0), ([98], .ref 1), ([99], .ref 1)]
    | 1 => .arrayBuffer [7]
  root := .ref 0
  wf := by
    intro p
    match p with
    | 0 => show List.Nodup _; decide
    | 1 => trivial
  plain_root := rfl
  plain := by decide

theorem roundTrip_sharedBuffer :
    (∃ v h, roundTrip plainEngine sharedBuffer.toGraph = .ok (v, h) ∧
      Isomorphic sharedBuffer.cells sharedBuffer.root h.cells v) ↔
      Sendable sharedBuffer.toGraph := by
  refine roundTrip_iff plainEngine sharedBuffer fun i s h => ?_
  have hlen : (encodeIndex sharedBuffer.toGraph).map (fun r => r.2.nodes.length) = .ok 2 := rfl
  rw [h] at hlen
  rw [show s.nodes.length = 2 from Except.ok.inj hlen]
  decide

/-- An array of two buffers with different bytes. -/
def twoBuffers : WireGraph plainEngine (Fin 3) where
  obj
    | 0 => .array [.ref 1, .ref 2]
    | 1 => .arrayBuffer [1]
    | 2 => .arrayBuffer [2]
  root := .ref 0
  wf := by
    intro p
    match p with
    | 0 | 1 | 2 => trivial
  plain_root := rfl
  plain := by decide

/-- Both buffers come out with the bytes of the first. -/
theorem roundTrip_two_buffers :
    let h : Heap := [.array [.ref 1, .ref 2], .arrayBuffer [1], .arrayBuffer [1]]
    roundTrip plainEngine twoBuffers.toGraph = .ok (.ref 0, h) ∧
      ¬ Isomorphic twoBuffers.cells twoBuffers.root h.cells (.ref 0) := by
  refine ⟨rfl, ?_⟩
  rintro ⟨R, hR⟩
  have hreach : Reach twoBuffers.cells twoBuffers.root 2 :=
    .kid (.root rfl) rfl (.tail _ (List.mem_singleton_self _))
  obtain ⟨q, c, d, _, _, hc, hd, hr⟩ := hR.reach hreach
  cases hc
  match q with
  | 0 | 1 | 2 =>
    cases hd
    cases hr.label
  | _ + 3 => cases hd

end RasterRuntime.CloneWire
