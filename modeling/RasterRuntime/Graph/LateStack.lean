import Mathlib.Data.Fintype.Card
import Mathlib.Data.List.Chain
import Mathlib.Data.List.TakeWhile
import RasterRuntime.Fallible

/-! # A depth-first walk that watches for cycles from some depth on

A walk goes through the items of a node one after the other, and into those that are nodes. From
some depth on it keeps the nodes that it is in on a stack: before a node is entered, the stack is
cut back to the parent, and a node that is on what is left of it is not entered again. What the
nodes above that depth are is not known to the walk, so the stack may be cut back to an earlier
visit of the parent, or to nothing.

* `Chained`: on the stack each node is an item of the one below it, and no node is there twice.
* `FailsFirst`: a walk in order comes to an item that stops it before it is in a cycle.
* `walk_outcome`: a walk that stops for a cycle has found one and nothing that stops it comes
  before, a walk that comes to its end has seen everything and there was no cycle, and no walk of a
  finite graph goes deeper than the number of its nodes and the depth where the stack begins. -/

namespace RasterRuntime.LateStack

/-- An item of a node: something else, which may stop the walk, or a node. -/
inductive Item (P : Type)
  | leaf (fails : Bool)
  | node (o : P)

/-- Why a walk stops. -/
inductive Halt
  | leaf
  | circular
  | fuel
  deriving DecidableEq, Repr

variable {P : Type} (kids : P → List (Item P)) (late : ℕ)

/-- One node is an item of the other. -/
def Edge (a b : P) : Prop := Item.node b ∈ kids a

/-- A cycle can be reached. -/
def CycleFrom (o : P) : Prop :=
  ∃ a, Relation.ReflTransGen (Edge kids) o a ∧ Relation.TransGen (Edge kids) a a

/-- An item that stops the walk can be reached. -/
def FailsFrom (o : P) : Prop :=
  ∃ a, Relation.ReflTransGen (Edge kids) o a ∧ Item.leaf true ∈ kids a

section Walk

variable [DecidableEq P]

/-- The stack from the parent on. -/
def cut (parent : Option P) (stack : List P) : List P := stack.dropWhile fun a => some a ≠ parent

def enter (depth : ℕ) (parent : Option P) (o : P) (stack : List P) : Except Halt (List P) :=
  if late < depth then
    if o ∈ cut parent stack then .error .circular else .ok (o :: cut parent stack)
  else .ok stack

/-- What a walk does with an item. -/
def visit (into : P → List P → Except Halt (List P)) (stack : List P) :
    Item P → Except Halt (List P)
  | .leaf fails => if fails then .error .leaf else .ok stack
  | .node c => into c stack

def walk : ℕ → ℕ → Option P → P → List P → Except Halt (List P)
  | 0, _, _, _, _ => .error .fuel
  | fuel + 1, depth, parent, o, stack => do
    let stack ← enter late depth parent o stack
    (kids o).foldlM (visit (walk fuel (depth + 1) (some o))) stack

end Walk

/-! ### What can be reached -/

variable {kids late}

theorem CycleFrom.of_edge {a b : P} (h : Edge kids a b) (hc : CycleFrom kids b) :
    CycleFrom kids a := by
  obtain ⟨c, hr, hcyc⟩ := hc
  exact ⟨c, Relation.ReflTransGen.head h hr, hcyc⟩

theorem FailsFrom.of_edge {a b : P} (h : Edge kids a b) (hc : FailsFrom kids b) :
    FailsFrom kids a := by
  obtain ⟨c, hr, hmem⟩ := hc
  exact ⟨c, Relation.ReflTransGen.head h hr, hmem⟩

variable (kids) in
/-- Everything up to a number of edges away has been seen: nothing fails, and no path is longer. -/
def Clear : ℕ → P → Prop
  | 0, _ => False
  | fuel + 1, o => Item.leaf true ∉ kids o ∧ ∀ c, Edge kids o c → Clear fuel c

variable {fuel : ℕ} {o c : P}

theorem Clear.acc (h : Clear kids fuel o) : Acc (fun b a => Edge kids a b) o := by
  induction fuel generalizing o with
  | zero => exact h.elim
  | succ fuel ih => exact Acc.intro _ fun c hc => ih (h.2 c hc)

theorem not_transGen_of_acc (h : Acc (fun b a => Edge kids a b) o) :
    ¬ Relation.TransGen (Edge kids) o o := by
  induction h with
  | intro o _ ih =>
    intro hcyc
    obtain ⟨c, hoc, hco⟩ := Relation.TransGen.head'_iff.mp hcyc
    exact ih c hoc (Relation.TransGen.tail' hco hoc)

theorem Clear.not_cycle (h : Clear kids fuel o) : ¬ CycleFrom kids o := by
  rintro ⟨a, hr, hcyc⟩
  have hacc : Acc (fun b a => Edge kids a b) a := by
    clear hcyc
    induction hr with
    | refl => exact h.acc
    | tail _ hbc ih => exact ih.inv hbc
  exact not_transGen_of_acc hacc hcyc

theorem Clear.not_fails (h : Clear kids fuel o) : ¬ FailsFrom kids o := by
  rintro ⟨a, hr, hmem⟩
  induction fuel generalizing o with
  | zero => exact h
  | succ fuel ih =>
    rcases Relation.ReflTransGen.cases_head hr with rfl | ⟨c, hoc, hca⟩
    · exact h.1 hmem
    · exact ih (h.2 c hoc) hca

/-! ### What comes first -/

variable (kids) in
/-- Nothing below the item fails, and there is no cycle. -/
def Passes (item : Item P) : Prop :=
  item ≠ .leaf true ∧ ∀ c, item = .node c → ¬ CycleFrom kids c ∧ ¬ FailsFrom kids c

variable (kids) in
/-- A walk through the items in order comes to this one. -/
def Meets (o : P) (item : Item P) : Prop :=
  ∃ before after, kids o = before ++ item :: after ∧ ∀ i ∈ before, Passes kids i

variable (kids) in
/-- A walk comes to an item that stops it before it has found a cycle. -/
inductive FailsFirst : P → Prop
  | leaf {o : P} (h : Meets kids o (.leaf true)) : FailsFirst o
  | node {o c : P} (h : Meets kids o (.node c)) (hc : FailsFirst c) : FailsFirst o

theorem Meets.mem {item : Item P} (h : Meets kids o item) : item ∈ kids o := by
  obtain ⟨before, after, hk, -⟩ := h
  rw [hk]
  exact List.mem_append_right _ (.head _)

theorem Meets.unique {a b : Item P} (ha : Meets kids o a) (hb : Meets kids o b)
    (hna : ¬ Passes kids a) (hnb : ¬ Passes kids b) : a = b := by
  classical
  have hfind : ∀ {x : Item P}, Meets kids o x → ¬ Passes kids x →
      (kids o).find? (fun i => ¬ Passes kids i) = some x := by
    rintro x ⟨before, after, hk, hpass⟩ hx
    rw [hk, List.find?_append, List.find?_eq_none.mpr fun i hi => by simpa using hpass i hi,
      Option.none_or]
    exact List.find?_cons_of_pos (by simpa using hx)
  exact Option.some_inj.mp ((hfind ha hna).symm.trans (hfind hb hnb))

theorem not_passes_leaf : ¬ Passes kids (.leaf true) := fun h => h.1 rfl

theorem not_passes_of_cycle (h : CycleFrom kids c) : ¬ Passes kids (.node c) :=
  fun hp => (hp.2 c rfl).1 h

theorem not_passes_of_fails (h : FailsFrom kids c) : ¬ Passes kids (.node c) :=
  fun hp => (hp.2 c rfl).2 h

theorem FailsFirst.fails (h : FailsFirst kids o) : FailsFrom kids o := by
  induction h with
  | leaf h => exact ⟨_, Relation.ReflTransGen.refl, h.mem⟩
  | node h _ ih => exact ih.of_edge h.mem

/-- What comes first in a node that is not passed is what comes first in the item. -/
theorem FailsFirst.of_meets (h : FailsFirst kids o) (hc : Meets kids o (.node c))
    (hn : ¬ Passes kids (.node c)) : FailsFirst kids c := by
  cases h with
  | leaf h => cases h.unique hc not_passes_leaf hn
  | node h hf =>
    obtain rfl := Item.node.inj (h.unique hc (not_passes_of_fails hf.fails) hn)
    exact hf

theorem cycleFrom_of_meets (h : Relation.TransGen (fun a b => Meets kids a (.node b)) o o) :
    CycleFrom kids o :=
  ⟨o, Relation.ReflTransGen.refl, Relation.TransGen.mono (fun _ _ h => Meets.mem h) o o h⟩

/-- A walk that comes back to a node has met nothing that stops it. -/
theorem not_failsFirst_of_cycle (h : Relation.TransGen (fun a b => Meets kids a (.node b)) o o) :
    ¬ FailsFirst kids o := by
  intro hf
  induction hf with
  | leaf hl =>
    obtain ⟨c, hoc, hco⟩ := Relation.TransGen.head'_iff.mp h
    have hc := cycleFrom_of_meets (Relation.TransGen.tail' hco hoc)
    cases hl.unique hoc not_passes_leaf (not_passes_of_cycle hc)
  | node hn hf ih =>
    obtain ⟨c, hoc, hco⟩ := Relation.TransGen.head'_iff.mp h
    have hcyc := Relation.TransGen.tail' hco hoc
    obtain rfl := Item.node.inj (hn.unique hoc (not_passes_of_fails hf.fails)
      (not_passes_of_cycle (cycleFrom_of_meets hcyc)))
    exact ih hcyc

/-! ### How a walk may end -/

variable (kids) in
/-- How a part of a walk from a node may end: `short` says when the bound is too low. -/
inductive Outcome (o : P) (short : Prop) (post : List P → Prop) : Except Halt (List P) → Prop
  | ok {stack : List P} (h : post stack) : Outcome o short post (.ok stack)
  | circular (h : CycleFrom kids o) (hf : ¬ FailsFirst kids o) :
      Outcome o short post (.error .circular)
  | leaf (h : FailsFirst kids o) : Outcome o short post (.error .leaf)
  | fuel (h : short) : Outcome o short post (.error .fuel)

section Outcomes

variable {short : Prop} {post post' : List P → Prop} {r : Except Halt (List P)}

theorem Outcome.bind {f : List P → Except Halt (List P)} (h : Outcome kids o short post r)
    (hf : ∀ stack, post stack → Outcome kids o short post' (f stack)) :
    Outcome kids o short post' (r >>= f) := by
  cases h with
  | ok h => exact hf _ h
  | circular h hf => exact .circular h hf
  | leaf h => exact .leaf h
  | fuel h => exact .fuel h

theorem Outcome.imp {short' : Prop} (h : Outcome kids o short post r) (hs : short → short')
    (hpost : ∀ stack, post stack → post' stack) : Outcome kids o short' post' r := by
  cases h with
  | ok h => exact .ok (hpost _ h)
  | circular h hf => exact .circular h hf
  | leaf h => exact .leaf h
  | fuel h => exact .fuel (hs h)

theorem Outcome.of_meets (hc : Meets kids o (.node c)) (h : Outcome kids c short post r) :
    Outcome kids o short post r := by
  cases h with
  | ok h => exact .ok h
  | circular h hf =>
    exact .circular (h.of_edge hc.mem) fun ho => hf (ho.of_meets hc (not_passes_of_cycle h))
  | leaf h => exact .leaf (.node hc h)
  | fuel h => exact .fuel h

theorem outcome_foldlM {I : List P → Prop} {Q : Item P → Prop}
    {f : List P → Item P → Except Halt (List P)} {items : List (Item P)}
    (h : ∀ before item after, items = before ++ item :: after → (∀ i ∈ before, Q i) →
      ∀ stack, I stack →
        Outcome kids o short (fun stack' => I stack' ∧ Q item) (f stack item))
    {stack : List P} (hi : I stack) :
    Outcome kids o short (fun stack' => I stack' ∧ ∀ item ∈ items, Q item)
      (items.foldlM f stack) := by
  induction items generalizing stack with
  | nil => exact .ok ⟨hi, nofun⟩
  | cons item items ih =>
    rw [List.foldlM_cons]
    have hfirst := h [] item items rfl nofun stack hi
    refine hfirst.bind fun stack1 h1 => ?_
    have hrest :=
      ih (fun before item' after he hb => h (item :: before) item' after (by rw [he]; rfl)
      (List.forall_mem_cons.mpr ⟨h1.2, hb⟩)) h1.1
    exact hrest.imp id fun stack2 h2 => ⟨h2.1, List.forall_mem_cons.mpr ⟨h1.2, h2.2⟩⟩

end Outcomes

/-! ### The stack -/

variable {rest stack stack' : List P} {parent : Option P} {depth : ℕ}

theorem reaches_head {R : P → P → Prop} {a b : P} (h : (a :: rest).IsChain fun a b => R b a)
    (hb : b ∈ a :: rest) :
    Relation.ReflTransGen R b a :=
  h.induction (Relation.ReflTransGen R · a) _ (fun _ _ hxy hx => hx.head hxy) (fun _ => .refl) b hb

variable [DecidableEq P]

variable (kids) in
/-- Each node of the stack is what the walk came to in the one below it, and no node is there
twice. -/
structure Chained (stack : List P) : Prop where
  chain : stack.IsChain fun a b => Meets kids b (.node a)
  nodup : stack.Nodup

theorem cut_suffix (parent : Option P) (stack : List P) : cut parent stack <:+ stack :=
  List.dropWhile_suffix _

theorem cut_cons_self (p : P) (stack : List P) : cut (some p) (p :: stack) = p :: stack := by
  rw [cut, List.dropWhile_cons]
  simp

/-- What is left of a stack begins with the parent. -/
theorem head_cut {a : P} (h : cut parent stack = a :: rest) : parent = some a := by
  have hhead := List.head?_dropWhile_not (fun a => some a ≠ parent) stack
  rw [show stack.dropWhile _ = a :: rest from h] at hhead
  have ha : some a = parent := by simpa using hhead
  exact ha.symm

theorem cut_of_mem {p : P} (h : p ∈ stack) :
    ∃ rest, cut (some p) stack = p :: rest := by
  cases hcut : cut (some p) stack with
  | nil =>
    have hne := List.dropWhile_eq_nil_iff.mp hcut p h
    simp at hne
  | cons a rest =>
    cases head_cut hcut
    exact ⟨rest, rfl⟩

theorem Chained.cut (h : Chained kids stack) (parent : Option P) :
    Chained kids (cut parent stack) :=
  ⟨h.chain.suffix (cut_suffix parent stack), h.nodup.sublist (cut_suffix parent stack).sublist⟩

theorem Chained.push (h : Chained kids stack) (hp : ∀ p ∈ parent, Meets kids p (.node o))
    (ho : o ∉ LateStack.cut parent stack) :
    Chained kids (o :: LateStack.cut parent stack) := by
  refine ⟨?_, List.nodup_cons.mpr ⟨ho, (h.cut parent).nodup⟩⟩
  refine List.isChain_cons.mpr ⟨?_, (h.cut parent).chain⟩
  intro a ha
  obtain ⟨rest, hcut⟩ := List.head?_eq_some_iff.mp ha
  exact hp a (head_cut hcut)

/-- A node that is on what is left of the stack is on a cycle. -/
theorem cycle_of_mem_cut (h : Chained kids stack) (hp : ∀ p ∈ parent, Meets kids p (.node o))
    (ho : o ∈ cut parent stack) :
    Relation.TransGen (fun a b => Meets kids a (.node b)) o o := by
  obtain ⟨a, rest, hcut⟩ := List.exists_cons_of_ne_nil (List.ne_nil_of_mem ho)
  have hchain := (h.cut parent).chain
  rw [hcut] at ho hchain
  exact Relation.TransGen.tail' (reaches_head hchain ho) (hp a (head_cut hcut))

/-- If the stack is cut back to a node, it is cut back further to one that is below. -/
theorem cut_below {below : List P} {p : P} (h : stack.Nodup)
    (ho : cut (some o) stack = o :: rest) (hp : rest = p :: below) : cut (some p) stack = rest := by
  obtain ⟨above, rfl⟩ : o :: rest <:+ stack := ho ▸ cut_suffix (some o) stack
  rw [hp, List.append_cons] at h ⊢
  have hne : ∀ a ∈ above ++ [o], some a ≠ some p := by
    rintro a ha ⟨⟩
    exact (List.nodup_append.mp h).2.2 _ ha _ (.head _) rfl
  rw [cut, List.dropWhile_append_of_pos (by simpa using hne)]
  exact cut_cons_self ..

/-! ### The walk -/

variable (kids late) in
/-- A walk is about to enter a node: below the depth where the stack begins, its parent is there,
with all the nodes between. -/
structure Situation (depth : ℕ) (parent : Option P) (o : P) (stack : List P) : Prop where
  chained : Chained kids stack
  meets : ∀ p ∈ parent, Meets kids p (.node o)
  inside : late + 1 < depth →
    (∃ p ∈ parent, p ∈ stack) ∧ depth ≤ (cut parent stack).length + late + 1

variable (kids late) in
/-- What a walk through a node leaves of the stack. -/
structure Kept (depth : ℕ) (parent : Option P) (stack stack' : List P) : Prop where
  chained : Chained kids stack'
  below : late + 1 < depth → cut parent stack' = cut parent stack

variable (kids late) in
/-- The walk is in a node: the stack can be cut back to it. -/
structure Within (depth : ℕ) (o : P) (below stack : List P) : Prop where
  chained : Chained kids stack
  self : late < depth → cut (some o) stack = o :: below

theorem Situation.enter {short : Prop} (h : Situation kids late depth parent o stack) :
    Outcome kids o short (Within kids late depth o (cut parent stack))
      (enter late depth parent o stack) := by
  unfold LateStack.enter
  by_cases hd : late < depth
  · rw [if_pos hd]
    by_cases ho : o ∈ cut parent stack
    · rw [if_pos ho]
      have hcyc := cycle_of_mem_cut h.chained h.meets ho
      exact .circular (cycleFrom_of_meets hcyc) (not_failsFirst_of_cycle hcyc)
    · rw [if_neg ho]
      exact .ok ⟨h.chained.push h.meets ho, fun _ => cut_cons_self o _⟩
  · rw [if_neg hd]
    exact .ok ⟨h.chained, fun hd' => absurd hd' hd⟩

theorem Within.situation (hs : Situation kids late depth parent o stack)
    (h : Within kids late depth o (cut parent stack) stack') (hc : Meets kids o (.node c)) :
    Situation kids late (depth + 1) (some o) c stack' where
  chained := h.chained
  meets := fun p hp => (Option.some_inj.mp hp) ▸ hc
  inside := fun hd => by
    have hself := h.self (by omega)
    constructor
    · refine ⟨o, rfl, (cut_suffix (some o) stack').subset ?_⟩
      rw [hself]
      exact .head _
    · rw [hself, List.length_cons]
      by_cases hd' : late + 1 < depth
      · have := (hs.inside hd').2
        omega
      · omega

theorem Within.kept (hs : Situation kids late depth parent o stack)
    (h : Within kids late depth o (cut parent stack) stack') :
    Kept kids late depth parent stack stack' where
  chained := h.chained
  below := fun hd => by
    obtain ⟨⟨p, hp, hmem⟩, -⟩ := hs.inside hd
    obtain rfl : parent = some p := hp
    obtain ⟨rest, hrest⟩ := cut_of_mem hmem
    exact cut_below h.chained.nodup (h.self (by omega)) hrest

theorem Kept.within {below : List P} (h : Within kids late depth o below stack)
    (hk : Kept kids late (depth + 1) (some o) stack stack') :
    Within kids late depth o below stack' :=
  ⟨hk.chained, fun hd => (hk.below (by omega)).trans (h.self hd)⟩

variable [Fintype P]

/-- **The walk**: how it ends. -/
theorem walk_outcome {depth : ℕ} {parent : Option P} {stack : List P}
    (h : Situation kids late depth parent o stack) :
    Outcome kids o (fuel + depth < Fintype.card P + late + 2)
      (fun stack' => Kept kids late depth parent stack stack' ∧ Clear kids fuel o)
      (walk kids late fuel depth parent o stack) := by
  induction fuel generalizing depth parent o stack with
  | zero =>
    refine .fuel ?_
    by_cases hd : late + 1 < depth
    · have hlen := (h.chained.cut parent).nodup.length_le_card
      have := (h.inside hd).2
      omega
    · omega
  | succ fuel ih =>
    refine h.enter.bind fun stack1 h1 => ?_
    -- the items are gone through inside the node
    refine (outcome_foldlM (I := Within kids late depth o (cut parent stack))
      (Q := fun item => item ≠ .leaf true ∧ ∀ c, item = .node c → Clear kids fuel c)
      (fun before item after hk hseen stack2 h2 => ?_) h1).imp id fun stack2 h2 => ?_
    · have hitem : Meets kids o item := ⟨before, after, hk, fun i hi =>
        ⟨(hseen i hi).1, fun c hc =>
          ⟨((hseen i hi).2 c hc).not_cycle, ((hseen i hi).2 c hc).not_fails⟩⟩⟩
      cases item with
      | leaf fails =>
        cases fails with
        | true => exact .leaf (.leaf hitem)
        | false => exact .ok ⟨h2, by simp, nofun⟩
      | node c =>
        have hc := ih (h2.situation h hitem)
        rw [show fuel + (depth + 1) = fuel + 1 + depth by omega] at hc
        refine (hc.of_meets hitem).imp id fun stack3 h3 =>
          ⟨h3.1.within h2, by simp, fun c' hc' => ?_⟩
        rw [← Item.node.inj hc']
        exact h3.2
    · exact ⟨h2.1.kept h, fun hmem => (h2.2 _ hmem).1 rfl, fun c hc => (h2.2 _ hc).2 c rfl⟩

theorem walk_root (hfuel : Fintype.card P + late + 1 ≤ fuel) (o : P) :
    Outcome kids o False (fun _ => ¬ CycleFrom kids o ∧ ¬ FailsFrom kids o)
      (walk kids late fuel 1 none o []) := by
  have hs : Situation kids late 1 none o [] :=
    ⟨⟨.nil, List.nodup_nil⟩, nofun, fun h => absurd h (by omega)⟩
  exact (walk_outcome hs).imp (fun h => by omega) fun _ h => ⟨h.2.not_cycle, h.2.not_fails⟩

end RasterRuntime.LateStack
