import Mathlib.Data.List.Forall2

/-! # Isomorphism of rooted graphs

A graph gives each of its objects a cell: a label and the list of its edges. An edge is an atom or
a reference to an object. Two rooted graphs are isomorphic when a one-to-one relation between
objects relates the roots, and relates only objects with equal labels and related edges: what can be
reached from the two roots then has the same shape, the same sharing and the same contents. -/

namespace RasterRuntime.Graph

/-- An edge: an atom, or a reference to an object. -/
inductive Edge (A P : Type) where
  | atom (a : A)
  | ref (p : P)
deriving DecidableEq, Repr

/-- What a graph has at an object. -/
structure Cell (L A P : Type) where
  label : L
  kids : List (Edge A P)

variable {L A P Q : Type}

/-- Edges with equal atoms, or to related objects. -/
def Edge.Rel (R : P → Q → Prop) : Edge A P → Edge A Q → Prop
  | .atom a, .atom b => a = b
  | .ref p, .ref q => R p q
  | _, _ => False

/-- Cells with equal labels and related edges. -/
structure Cell.Rel (R : P → Q → Prop) (c : Cell L A P) (d : Cell L A Q) : Prop where
  label : c.label = d.label
  kids : List.Forall₂ (Edge.Rel R) c.kids d.kids

/-- `R` is an isomorphism of what can be reached from `v` with what can be reached from `w`. -/
structure IsIso (g : P → Option (Cell L A P)) (v : Edge A P) (h : Q → Option (Cell L A Q))
    (w : Edge A Q) (R : P → Q → Prop) : Prop where
  unique : Relator.BiUnique R
  cells : ∀ p q, R p q → ∃ c d, g p = some c ∧ h q = some d ∧ Cell.Rel R c d
  root : Edge.Rel R v w

/-- The rooted graphs have the same shape, the same sharing and the same contents. -/
def Isomorphic (g : P → Option (Cell L A P)) (v : Edge A P) (h : Q → Option (Cell L A Q))
    (w : Edge A Q) : Prop :=
  ∃ R, IsIso g v h w R

/-- The objects that can be reached from `v`. -/
inductive Reach (g : P → Option (Cell L A P)) (v : Edge A P) : P → Prop
  | root {p : P} : v = .ref p → Reach g v p
  | kid {p q : P} {c : Cell L A P} : Reach g v p → g p = some c → .ref q ∈ c.kids → Reach g v q

variable {c : Cell L A P} {R : P → Q → Prop} {α β : Type}

theorem Reach.of_kid {g : P → Option (Cell L A P)} {p q : P} {v : Edge A P} (hc : g p = some c)
    (hv : v ∈ c.kids) (h : Reach g v q) : Reach g (.ref p) q := by
  induction h with
  | root h =>
    rw [h] at hv
    exact .kid (.root rfl) hc hv
  | kid _ hd hk ih => exact .kid ih hd hk

variable {p : P} {S : P → Q → Prop} {d : Cell L A Q}

theorem Edge.Rel.mono (h : ∀ p q, R p q → S p q) :
    ∀ {v : Edge A P} {w : Edge A Q}, v.Rel R w → v.Rel S w
  | .atom _, .atom _, hr => hr
  | .ref _, .ref _, hr => h _ _ hr

theorem Cell.Rel.mono (h : ∀ p q, R p q → S p q) (hr : c.Rel R d) : c.Rel S d :=
  ⟨hr.label, hr.kids.imp fun _ _ => Edge.Rel.mono h⟩

theorem Edge.Rel.of_ref : ∀ {w : Edge A Q},
    (Edge.ref p).Rel R w → ∃ q, w = .ref q ∧ R p q
  | .ref q, hr => ⟨q, rfl, hr⟩

theorem exists_partner {S : α → β → Prop} {as : List α} {bs : List β} (h : List.Forall₂ S as bs)
    {a : α} (ha : a ∈ as) : ∃ b ∈ bs, S a b := by
  induction h with
  | nil => cases ha
  | cons hab _ ih =>
    rcases List.mem_cons.mp ha with rfl | ha
    · exact ⟨_, by simp, hab⟩
    · obtain ⟨b, hb, hr⟩ := ih ha
      exact ⟨b, by simp [hb], hr⟩

/-! ### Isomorphisms compose -/

theorem Edge.Rel.symm : ∀ {v : Edge A P} {w : Edge A Q},
    v.Rel R w → w.Rel (fun q p => R p q) v
  | .atom _, .atom _, h => Eq.symm h
  | .ref _, .ref _, h => h

theorem Edge.Rel.comp {S : Type} {T : Q → S → Prop} :
    ∀ {u : Edge A P} {v : Edge A Q} {w : Edge A S}, u.Rel R v → v.Rel T w →
      u.Rel (fun p s => ∃ q, R p q ∧ T q s) w
  | .atom _, .atom _, .atom _, h, h' => Eq.trans h h'
  | .ref _, .ref q, .ref _, h, h' => ⟨q, h, h'⟩

theorem Cell.Rel.symm (h : c.Rel R d) :
    d.Rel (fun q p => R p q) c :=
  ⟨h.label.symm, h.kids.flip.imp fun _ _ => Edge.Rel.symm⟩

theorem forall₂_comp {γ : Type} {R : α → β → Prop} {S : β → γ → Prop} {T : α → γ → Prop}
    (h : ∀ a b c, R a b → S b c → T a c) : ∀ {as : List α} {bs : List β} {cs : List γ},
    List.Forall₂ R as bs → List.Forall₂ S bs cs → List.Forall₂ T as cs
  | _, _, _, .nil, .nil => .nil
  | _, _, _, .cons ha has, .cons hb hbs => .cons (h _ _ _ ha hb) (forall₂_comp h has hbs)

section

variable {g : P → Option (Cell L A P)} {v : Edge A P} {h : Q → Option (Cell L A Q)} {w : Edge A Q}

theorem Isomorphic.symm (hi : Isomorphic g v h w) : Isomorphic h w g v := by
  obtain ⟨R, hR⟩ := hi
  refine ⟨fun q p => R p q, ⟨fun _ _ _ h h' => hR.unique.2 h h', fun _ _ _ h h' =>
    hR.unique.1 h h'⟩, fun q p hqp => ?_, hR.root.symm⟩
  obtain ⟨c, d, hc, hd, hr⟩ := hR.cells p q hqp
  exact ⟨d, c, hd, hc, hr.symm⟩

theorem Isomorphic.trans {S : Type} {k : S → Option (Cell L A S)} {x : Edge A S}
    (hi : Isomorphic g v h w) (hj : Isomorphic h w k x) : Isomorphic g v k x := by
  obtain ⟨R, hR⟩ := hi
  obtain ⟨T, hT⟩ := hj
  refine ⟨fun p s => ∃ q, R p q ∧ T q s, ⟨?_, ?_⟩, ?_, hR.root.comp hT.root⟩
  · rintro p p' s ⟨q, hpq, hqs⟩ ⟨q', hpq', hqs'⟩
    rw [hT.unique.1 hqs hqs'] at hpq
    exact hR.unique.1 hpq hpq'
  · rintro p s s' ⟨q, hpq, hqs⟩ ⟨q', hpq', hqs'⟩
    rw [hR.unique.2 hpq hpq'] at hqs
    exact hT.unique.2 hqs hqs'
  · rintro p s ⟨q, hpq, hqs⟩
    obtain ⟨c, d, hc, hd, hr⟩ := hR.cells p q hpq
    obtain ⟨d', e, hd', he, hr'⟩ := hT.cells q s hqs
    rw [hd] at hd'
    cases hd'
    exact ⟨c, e, hc, he, hr.label.trans hr'.label,
      forall₂_comp (fun _ _ _ => Edge.Rel.comp) hr.kids hr'.kids⟩

/-- **What can be reached has a partner that can be reached**, with an equal label. -/
theorem IsIso.reach (hi : IsIso g v h w R) (hp : Reach g v p) :
    ∃ q c d, R p q ∧ Reach h w q ∧ g p = some c ∧ h q = some d ∧ Cell.Rel R c d := by
  have hR : ∃ q, R p q ∧ Reach h w q := by
    induction hp with
    | root hv =>
      have hroot := hi.root
      rw [hv] at hroot
      obtain ⟨q, hw, hq⟩ := hroot.of_ref
      exact ⟨q, hq, .root hw⟩
    | kid hp hc hk ih =>
      obtain ⟨q, hq, hreach⟩ := ih
      obtain ⟨c, d, hc', hd, hr⟩ := hi.cells _ q hq
      rw [hc] at hc'
      cases hc'
      obtain ⟨x, hx, hw⟩ := exists_partner hr.kids hk
      obtain ⟨q', rfl, hq'⟩ := hw.of_ref
      exact ⟨q', hq', .kid hreach hd hx⟩
  obtain ⟨q, hq, hreach⟩ := hR
  obtain ⟨c, d, hc, hd, hr⟩ := hi.cells p q hq
  exact ⟨q, c, d, hq, hreach, hc, hd, hr⟩

theorem Isomorphic.congr {g' : P → Option (Cell L A P)} (hi : Isomorphic g v h w)
    (heq : ∀ p, Reach g' v p → g p = g' p) : Isomorphic g' v h w := by
  obtain ⟨R, hR⟩ := hi
  have hedge : ∀ {x : Edge A P} {y : Edge A Q}, (∀ p, x = .ref p → Reach g' v p) → x.Rel R y →
      x.Rel (fun p q => R p q ∧ Reach g' v p) y
    | .atom _, .atom _, _, hr => hr
    | .ref p, .ref _, hx, hr => ⟨hr, hx p rfl⟩
  have hkids : ∀ {xs : List (Edge A P)} {ys : List (Edge A Q)}, (∀ p, .ref p ∈ xs → Reach g' v p) →
      List.Forall₂ (Edge.Rel R) xs ys →
      List.Forall₂ (Edge.Rel fun p q => R p q ∧ Reach g' v p) xs ys := by
    intro xs ys hx hf
    induction hf with
    | nil => exact .nil
    | cons hr _ ih =>
      exact .cons (hedge (fun p hp => hx p (by simp [hp])) hr) (ih fun p hp => hx p (by simp [hp]))
  refine ⟨fun p q => R p q ∧ Reach g' v p, ⟨fun _ _ _ h h' => hR.unique.1 h.1 h'.1,
    fun _ _ _ h h' => hR.unique.2 h.1 h'.1⟩, ?_, hedge (fun p hp => .root hp) hR.root⟩
  rintro p q ⟨hpq, hp⟩
  obtain ⟨c, d, hc, hd, hr⟩ := hR.cells p q hpq
  rw [heq p hp] at hc
  exact ⟨c, d, hc, hd, hr.label, hkids (fun p' hp' => .kid hp hc hp') hr.kids⟩

end

end RasterRuntime.Graph
