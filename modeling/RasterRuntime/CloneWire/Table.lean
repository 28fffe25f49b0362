import RasterRuntime.CloneWire.Encode

/-! # The node table stands for the graph

`Encodes s v i` says that the index `i` stands for the value `v`: at `i` is the node of a primitive,
or `i` is the index of an object in the memo. `EncodeInv` is what holds between two calls of
`encode_index`: the objects in the memo have different indexes and can be reached from the root, and
the node of each of them, apart from those still open, holds indexes that stand for its contents. -/

namespace RasterRuntime.CloneWire

open RasterRuntime.Graph Js

variable {P : Type}

/-- The index `i` stands for the value. -/
def Encodes (s : EncodeState P) : Value P → UInt32 → Prop
  | .atom a, i => ∃ node, encodePrim a = .ok node ∧ s.nodes[i.toNat]? = some node ∧
    ∀ p, s.memo p ≠ some i
  | .ref p, i => s.memo p = some i

/-- The invariant of the table; the objects in `O` are still open. -/
structure EncodeInv [DecidableEq P] (g : Graph P) (O : P → Prop) (s : EncodeState P) : Prop where
  range : ∀ p i, s.memo p = some i → i.toNat < s.nodes.length
  inj : ∀ p q i, s.memo p = some i → s.memo q = some i → p = q
  reach : ∀ p i, s.memo p = some i → g.Reachable p
  done : ∀ p i, s.memo p = some i → ¬ O p → ∃ ids node, s.nodes[i.toNat]? = some node ∧
    NodeFor (g.obj p) ids node ∧ List.Forall₂ (Encodes s) (g.obj p).kids ids
  kept : ∀ p i, s.memo p = some i → ¬ O p → ∀ b ∈ buffers (g.obj p), b ∈ s.transfers
  sent : ∀ b ∈ s.transfers, ∃ p i, s.memo p = some i ∧ b ∈ buffers (g.obj p)

/-- What a call keeps: the nodes that are there, the memo, and the transfers; an object that is new
in the memo has an index that is new in the table. -/
structure Extends (s s' : EncodeState P) : Prop where
  nodes : s.nodes <+: s'.nodes
  memo : ∀ p i, s.memo p = some i → s'.memo p = some i
  new : ∀ p i, s'.memo p = some i → s.memo p = some i ∨ s.nodes.length ≤ i.toNat
  transfers : ∀ b ∈ s.transfers, b ∈ s'.transfers

theorem Extends.refl (s : EncodeState P) : Extends s s :=
  ⟨List.prefix_rfl, fun _ _ h => h, fun _ _ h => .inl h, fun _ h => h⟩

theorem Extends.trans (s1 s2 s3 : EncodeState P) (h : Extends s1 s2) (h' : Extends s2 s3) :
    Extends s1 s3 where
  nodes := h.nodes.trans h'.nodes
  memo := fun p i hi => h'.memo p i (h.memo p i hi)
  new := fun p i hi => by
    rcases h'.new p i hi with hi | hi
    · exact h.new p i hi
    · exact .inr (Nat.le_trans h.nodes.length_le hi)
  transfers := fun b hb => h'.transfers b (h.transfers b hb)

variable {s : EncodeState P} {s1 : EncodeState P} {i : UInt32} {node : WireNode}

theorem Encodes.extends {s' : EncodeState P} (h : Extends s s') {v : Value P}
    (he : Encodes s v i) : Encodes s' v i := by
  cases v with
  | ref p => exact h.memo p i he
  | atom a =>
    obtain ⟨node, ha, hn, hm⟩ := he
    refine ⟨node, ha, getElem?_of_prefix h.nodes hn, fun p hp => ?_⟩
    rcases h.new p i hp with hp | hp
    · exact hm p hp
    · exact absurd (List.getElem?_eq_some_iff.mp hn).1 (Nat.not_lt.mpr hp)

theorem toNat_nextIndex (h : s.nodes.length < 2 ^ 32) : s.nextIndex.toNat = s.nodes.length :=
  UInt32.toNat_ofNat_of_lt' h

/-! ### Adding a primitive -/

theorem extends_push (s : EncodeState P) (node : WireNode) : Extends s (s.push node) :=
  ⟨List.prefix_append _ _, fun _ _ h => h, fun _ _ h => .inl h, fun _ h => h⟩

variable [DecidableEq P] {g : Graph P}

theorem EncodeInv.push {O : P → Prop} (h : EncodeInv g O s)
    (node : WireNode) : EncodeInv g O (s.push node) := by
  have hext := extends_push s node
  refine { h with
    range := fun p i hp => Nat.lt_of_lt_of_le (h.range p i hp) hext.nodes.length_le
    done := fun p i hp hO => ?_ }
  obtain ⟨ids, n, hn, hf, hk⟩ := h.done p i hp hO
  exact ⟨ids, n, getElem?_of_prefix hext.nodes hn, hf, hk.imp fun _ _ => .extends hext⟩

/-! ### Entering and leaving an object -/

section object

variable {O : P → Prop} {p : P}

theorem memo_enter_self (s : EncodeState P) (p : P) : (s.enter p).memo p = some s.nextIndex :=
  if_pos rfl

theorem memo_enter {q : P} (h : (s.enter p).memo q = some i) :
    (q = p ∧ i = s.nextIndex) ∨ s.memo q = some i := by
  replace h : (if q = p then some s.nextIndex else s.memo q) = some i := h
  split_ifs at h with hq
  · cases h
    exact .inl ⟨hq, rfl⟩
  · exact .inr h

theorem extends_enter (hm : s.memo p = none) (hl : s.nodes.length < 2 ^ 32) :
    Extends s (s.enter p) where
  nodes := List.prefix_append _ _
  memo := (grows_enter hm).memo
  new := fun q i hq => by
    rcases memo_enter hq with ⟨rfl, rfl⟩ | hq
    · exact .inr (Nat.le_of_eq (toNat_nextIndex hl).symm)
    · exact .inl hq
  transfers := fun _ hb => hb

theorem EncodeInv.enter (h : EncodeInv g O s) (hm : s.memo p = none) (hp : g.Reachable p)
    (hl : s.nodes.length < 2 ^ 32) : EncodeInv g (fun q => O q ∨ q = p) (s.enter p) := by
  have hext := extends_enter hm hl
  have hne : ∀ q i, s.memo q = some i → i ≠ s.nextIndex := by
    rintro q _ hq rfl
    have := h.range q _ hq
    rw [toNat_nextIndex hl] at this
    omega
  refine ⟨?_, ?_, ?_, ?_, ?_, ?_⟩
  · intro q i hq
    show _ < (s.nodes ++ [WireNode.null]).length
    rw [List.length_append, List.length_singleton]
    rcases memo_enter hq with ⟨rfl, rfl⟩ | hq
    · rw [toNat_nextIndex hl]
      omega
    · have := h.range q i hq
      omega
  · intro q r i hq hr
    rcases memo_enter hq with ⟨hqp, hi⟩ | hq' <;> rcases memo_enter hr with ⟨hrp, hi'⟩ | hr'
    · rw [hqp, hrp]
    · exact absurd hi (hne r i hr')
    · exact absurd hi' (hne q i hq')
    · exact h.inj q r i hq' hr'
  · intro q i hq
    rcases memo_enter hq with ⟨rfl, _⟩ | hq
    · exact hp
    · exact h.reach q i hq
  · intro q i hq hO
    rcases memo_enter hq with ⟨rfl, _⟩ | hq
    · exact absurd (.inr rfl) hO
    · obtain ⟨ids, node, hn, hf, hk⟩ := h.done q i hq fun ho => hO (.inl ho)
      exact ⟨ids, node, getElem?_of_prefix hext.nodes hn, hf, hk.imp fun _ _ => .extends hext⟩
  · intro q i hq hO
    rcases memo_enter hq with ⟨rfl, _⟩ | hq
    · exact absurd (.inr rfl) hO
    · exact h.kept q i hq fun ho => hO (.inl ho)
  · intro b hb
    obtain ⟨q, i, hq, hb⟩ := h.sent b hb
    exact ⟨q, i, hext.memo q i hq, hb⟩

omit [DecidableEq P] in
/-- Completing an object changes the node at its index only. -/
theorem Encodes.leave {o : Obj P}
    (hp : s1.memo p = some i) {v : Value P} {j : UInt32} (h : Encodes s1 v j) :
    Encodes (s1.leave o i node) v j := by
  cases v with
  | ref q => exact h
  | atom a =>
    obtain ⟨n, ha, hn, hm⟩ := h
    refine ⟨n, ha, ?_, hm⟩
    have hij : i.toNat ≠ j.toNat := fun he => hm p (by rw [hp, UInt32.toNat_inj.mp he])
    show (s1.nodes.set i.toNat node)[j.toNat]? = _
    rw [List.getElem?_set_ne hij]
    exact hn

theorem EncodeInv.leave {ids : List UInt32}
    (h : EncodeInv g (fun q => O q ∨ q = p) s1) (hp : s1.memo p = some i)
    (hn : NodeFor (g.obj p) ids node) (hk : List.Forall₂ (Encodes s1) (g.obj p).kids ids) :
    EncodeInv g O (s1.leave (g.obj p) i node) := by
  have hi := h.range p i hp
  refine ⟨?_, h.inj, h.reach, ?_, ?_, ?_⟩
  · intro q j hq
    show _ < (s1.nodes.set i.toNat node).length
    rw [List.length_set]
    exact h.range q j hq
  · intro q j hq hO
    by_cases hqp : q = p
    · subst hqp
      cases hp.symm.trans hq
      refine ⟨ids, node, ?_, hn, hk.imp fun _ _ => .leave hp⟩
      show (s1.nodes.set i.toNat node)[i.toNat]? = _
      rw [List.getElem?_set_self hi]
    · obtain ⟨ids', n, hn', hf, hk'⟩ := h.done q j hq fun ho => ho.elim hO hqp
      refine ⟨ids', n, ?_, hf, hk'.imp fun _ _ => .leave hp⟩
      have hij : i.toNat ≠ j.toNat := fun he =>
        hqp (h.inj q p j hq (by rw [hp, UInt32.toNat_inj.mp he]))
      show (s1.nodes.set i.toNat node)[j.toNat]? = _
      rw [List.getElem?_set_ne hij]
      exact hn'
  · intro q j hq hO b hb
    show b ∈ s1.transfers ++ buffers (g.obj p)
    rw [List.mem_append]
    by_cases hqp : q = p
    · subst hqp
      exact .inr hb
    · exact .inl (h.kept q j hq (fun ho => ho.elim hO hqp) b hb)
  · intro b hb
    rcases List.mem_append.mp hb with hb | hb
    · exact h.sent b hb
    · exact ⟨p, i, hp, hb⟩

/-- From before an object is entered to after it is left, the table is only extended. -/
theorem extends_leave {o : Obj P} (hm : s.memo p = none)
    (hl : s.nodes.length < 2 ^ 32) (h : Extends (s.enter p) s1) :
    Extends s (s1.leave o s.nextIndex node) := by
  have hext := Extends.trans _ _ _ (extends_enter hm hl) h
  refine ⟨?_, hext.memo, hext.new, ?_⟩
  · obtain ⟨new, hnew⟩ := h.nodes
    show s.nodes <+: s1.nodes.set s.nextIndex.toNat node
    rw [← hnew, toNat_nextIndex hl]
    show s.nodes <+: (s.nodes ++ [WireNode.null] ++ new).set s.nodes.length node
    rw [List.append_assoc, List.set_append_right _ _ (Nat.le_refl _)]
    exact List.prefix_append _ _
  · intro b hb
    exact List.mem_append_left _ (hext.transfers b hb)

end object

/-! ### A call, and the whole table -/

/-- What a call of `encode_index` guarantees. -/
structure Encoded (g : Graph P) (O : P → Prop) (s : EncodeState P) (v : Value P) (i : UInt32)
    (s' : EncodeState P) : Prop where
  inv : EncodeInv g O s'
  ext : Extends s s'
  encodes : Encodes s' v i

theorem encodeItems_spec {O : P → Prop} {n : ℕ}
    (h : ∀ v s i s', encodeAt g.obj n v s = .ok (i, s') → s'.nodes.length ≤ 2 ^ 32 →
      EncodeInv g O s → (∀ p, v = .ref p → g.Reachable p) → Encoded g O s v i s')
    {vs : List (Value P)} {s' : EncodeState P} {ids : List UInt32}
    (hi : encodeItems (encodeAt g.obj n) vs s = .ok (ids, s')) (hl : s'.nodes.length ≤ 2 ^ 32)
    (hinv : EncodeInv g O s) (hr : ∀ p, .ref p ∈ vs → g.Reachable p) :
    EncodeInv g O s' ∧ Extends s s' ∧ List.Forall₂ (Encodes s') vs ids := by
  fun_induction encodeItems (encodeAt g.obj n) vs s generalizing ids with
  | case1 =>
    cases hi
    exact ⟨hinv, Extends.refl _, .nil⟩
  | case2 v vs s ih =>
    obtain ⟨⟨id, s1⟩, hv, hi⟩ := bind_eq_ok.mp hi
    obtain ⟨⟨ids', s2⟩, hvs, ⟨⟩⟩ := bind_eq_ok.mp hi
    have hg := encodeItems_rel Grows.refl Grows.trans (encodeAt_grows g.obj n) hvs
    have h1 := h v s id s1 hv (Nat.le_trans hg.length_le hl) hinv fun p hp => hr p (by simp [hp])
    obtain ⟨hinv', hext, hk⟩ := ih s1 hvs h1.inv fun p hp => hr p (by simp [hp])
    exact ⟨hinv', Extends.trans _ _ _ h1.ext hext, .cons (h1.encodes.extends hext) hk⟩

/-- **A call keeps the invariant and what it finds, and its index stands for the value.** -/
theorem encodeAt_spec (g : Graph P) : ∀ (n : ℕ) (O : P → Prop) (v : Value P) (s : EncodeState P)
    (i : UInt32) (s' : EncodeState P), encodeAt g.obj n v s = .ok (i, s') →
    s'.nodes.length ≤ 2 ^ 32 → EncodeInv g O s → (∀ p, v = .ref p → g.Reachable p) →
    Encoded g O s v i s'
  | 0, _, _, _, _, _, h, _, _, _ => by cases h
  | n + 1, O, .atom a, s, i, s', h, hl, hinv, _ => by
    obtain ⟨node, ha, h⟩ := bind_eq_ok.mp h
    cases h
    have hlen : s.nodes.length < 2 ^ 32 := by
      rw [show (s.push node).nodes = s.nodes ++ [node] from rfl, List.length_append,
        List.length_singleton] at hl
      omega
    have hi := toNat_nextIndex hlen
    refine ⟨hinv.push node, extends_push s node, node, ha, ?_, fun p hp => ?_⟩
    · show (s.nodes ++ [node])[s.nextIndex.toNat]? = _
      rw [hi, List.getElem?_concat_length]
    · have hlt := hinv.range p _ hp
      omega
  | n + 1, O, .ref p, s, i, s', h, hl, hinv, hr => by
    rcases encodeAt_ref h with ⟨hm, rfl⟩ | ⟨hm, rfl, ids, s1, node, hi, hn, rfl⟩
    · exact ⟨hinv, Extends.refl _, hm⟩
    · -- the index of the object is a position of the final table, so it was not cut to 32 bits
      have hg := encodeItems_rel Grows.refl Grows.trans (encodeAt_grows g.obj n) hi
      have hlen1 : s1.nodes.length ≤ 2 ^ 32 := by
        rwa [show (s1.leave (g.obj p) s.nextIndex node).nodes = s1.nodes.set _ node from rfl,
          List.length_set] at hl
      have hlen : s.nodes.length < 2 ^ 32 := by
        have hge := hg.length_le
        rw [show (s.enter p).nodes = s.nodes ++ [WireNode.null] from rfl, List.length_append,
          List.length_singleton] at hge
        omega
      obtain ⟨hinv1, hext, hk⟩ := encodeItems_spec (encodeAt_spec g n _) hi hlen1
        (hinv.enter hm (hr p rfl) hlen) fun q hq => .kid (hr p rfl) rfl hq
      have hp : s1.memo p = some s.nextIndex := hext.memo p _ (memo_enter_self s p)
      exact ⟨hinv1.leave hp hn hk, extends_leave hm hlen hext, hp⟩

theorem encodeInv_init (g : Graph P) : EncodeInv g (fun _ => False) EncodeState.init :=
  ⟨nofun, nofun, nofun, nofun, nofun, nofun⟩

/-- **The table of a graph**: the index of the root stands for it, and no object is left open. -/
theorem encodeIndex_table [Fintype P]
    (h : encodeIndex g = .ok (i, s)) (hl : s.nodes.length ≤ 2 ^ 32) :
    EncodeInv g (fun _ => False) s ∧ Encodes s g.root i := by
  have hs := encodeAt_spec g _ _ _ _ _ _ h hl (encodeInv_init g) fun p hp => .root hp
  exact ⟨hs.inv, hs.encodes⟩

theorem EncodeInv.memo_of_reachable
    (h : EncodeInv g (fun _ => False) s) (hroot : Encodes s g.root i) {p : P}
    (hp : g.Reachable p) : ∃ j, s.memo p = some j := by
  induction hp with
  | root hv =>
    rw [hv] at hroot
    exact ⟨i, hroot⟩
  | kid _ hc hk ih =>
    obtain ⟨j, hj⟩ := ih
    obtain ⟨ids, node, _, _, hkids⟩ := h.done _ j hj id
    cases hc
    obtain ⟨k, _, hk⟩ := exists_partner hkids hk
    exact ⟨k, hk⟩

end RasterRuntime.CloneWire
