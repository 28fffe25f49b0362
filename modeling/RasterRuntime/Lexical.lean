import RasterRuntime.Text.Split

/-! # Paths as moves in a tree

A directory is the list of the names that lead to it, the last one first. A path is a list of moves:
up to the parent, where the root is its own parent, or down to a child. Only two things matter about
a list of moves, `normal`: how far it goes up above its start, and the names it goes down from
there.

* `walk_eq`: where a walk ends, from any directory, in terms of `normal`.
* `walk_eq_append_iff`: a walk that always ends below its start goes down only.

The second half reads moves from text: the components between `/`, without the empty ones and
`.`. -/

namespace RasterRuntime.Lexical

open List (append_nil mem_cons replicate)

/-- A step to the parent or to a child. -/
inductive Move (α : Type)
  | up
  | down (name : α)
  deriving DecidableEq, Repr

section Walk

variable {α : Type}

/-- The directory after one move. -/
def Move.from (dir : List α) : Move α → List α
  | .up => dir.tail
  | .down n => n :: dir

/-- The directory at the end of the moves. -/
def walk (dir : List α) (ms : List (Move α)) : List α := ms.foldl Move.from dir

/-- What a further move adds to the steps above the start and the names below. -/
def Move.after : ℕ × List α → Move α → ℕ × List α
  | (u, []), .up => (u + 1, [])
  | (u, _ :: ns), .up => (u, ns)
  | (u, ns), .down n => (u, n :: ns)

/-- The steps above the start, and the names from there. -/
def normal (ms : List (Move α)) : ℕ × List α := ms.foldl Move.after (0, [])

@[simp] theorem walk_nil (dir : List α) : walk dir [] = dir := rfl

@[simp] theorem walk_cons (dir : List α) (m : Move α) (ms : List (Move α)) :
    walk dir (m :: ms) = walk (m.from dir) ms := rfl

theorem walk_append (dir : List α) (ms ms' : List (Move α)) :
    walk dir (ms ++ ms') = walk (walk dir ms) ms' := List.foldl_append

theorem from_append_drop (dir : List α) (p : ℕ × List α) (m : Move α) :
    m.from (p.2 ++ dir.drop p.1) = (Move.after p m).2 ++ dir.drop (Move.after p m).1 := by
  obtain ⟨u, ns⟩ := p
  cases m with
  | down n => cases ns <;> rfl
  | up =>
    cases ns with
    | nil => exact List.tail_drop
    | cons n ns => rfl

theorem walk_append_drop (dir : List α) (ms : List (Move α)) (p : ℕ × List α) :
    walk (p.2 ++ dir.drop p.1) ms =
      (ms.foldl Move.after p).2 ++ dir.drop (ms.foldl Move.after p).1 := by
  induction ms generalizing p with
  | nil => rfl
  | cons m ms ih =>
    rw [walk_cons, from_append_drop, ih]
    rfl

/-- **Walks**: the end of a walk in terms of its normal form. -/
theorem walk_eq (dir : List α) (ms : List (Move α)) :
    walk dir ms = (normal ms).2 ++ dir.drop (normal ms).1 := walk_append_drop dir ms (0, [])

theorem walk_root (ms : List (Move α)) : walk [] ms = (normal ms).2 := by
  rw [walk_eq, List.drop_nil, append_nil]

theorem walk_replicate_up (dir : List α) (n : ℕ) : walk dir (replicate n .up) = dir.drop n := by
  induction n generalizing dir with
  | zero => rfl
  | succ n ih =>
    rw [List.replicate_succ, walk_cons, ih]
    show dir.tail.drop n = _
    rw [← List.drop_one, List.drop_drop, Nat.add_comm]

/-- Walks that end at the names `ns` below their start, from every directory made of the name `x`,
go nowhere else. -/
theorem walk_eq_append_iff (x : α) (ms : List (Move α)) (ns : List α) :
    (∀ k, walk (replicate k x) ms = ns ++ replicate k x) ↔ normal ms = (0, ns) := by
  constructor
  · intro h
    have h0 := h 0
    rw [List.replicate_zero, walk_root, append_nil] at h0
    have hu := congrArg List.length (h (normal ms).1)
    rw [walk_eq, h0, List.drop_of_length_le (by simp), append_nil, List.length_append,
      List.length_replicate] at hu
    exact Prod.ext (by show (normal ms).1 = 0; omega) h0
  · intro h k
    rw [walk_eq, h, List.drop_zero]

theorem fst_le_foldl_after (ms : List (Move α)) (p : ℕ × List α) :
    p.1 ≤ (ms.foldl Move.after p).1 := by
  induction ms generalizing p with
  | nil => exact Nat.le_refl _
  | cons m ms ih =>
    refine Nat.le_trans ?_ (ih (Move.after p m))
    obtain ⟨u, ns⟩ := p
    cases m with
    | down n => cases ns <;> exact Nat.le_refl _
    | up =>
      cases ns with
      | nil => exact Nat.le_succ _
      | cons n ns => exact Nat.le_refl _

/-- A step to a child. -/
def Move.isDown : Move α → Bool
  | .up => false
  | .down _ => true

theorem length_normal_le (ms : List (Move α)) : (normal ms).2.length ≤ ms.countP Move.isDown := by
  suffices h : ∀ p : ℕ × List α, (ms.foldl Move.after p).2.length ≤
      p.2.length + ms.countP Move.isDown by
    simpa [normal] using h (0, [])
  induction ms with
  | nil => exact fun p => Nat.le_refl _
  | cons m ms ih =>
    rintro ⟨u, ns⟩
    refine Nat.le_trans (ih _) ?_
    cases m with
    | down n =>
      have h : (Move.after (u, ns) (.down n)).2 = n :: ns := by cases ns <;> rfl
      rw [h, List.countP_cons_of_pos rfl, List.length_cons]
      show ns.length + 1 + _ ≤ ns.length + _
      omega
    | up =>
      rw [List.countP_cons_of_neg Bool.false_ne_true]
      cases ns with
      | nil => exact Nat.le_refl _
      | cons n ns =>
        show ns.length + _ ≤ (n :: ns).length + _
        rw [List.length_cons]
        omega

theorem normal_map_down (ns : List α) : normal (ns.reverse.map .down) = (0, ns) := by
  induction ns with
  | nil => rfl
  | cons n ns ih =>
    unfold normal at ih ⊢
    rw [List.reverse_cons, List.map_append, List.foldl_append, ih]
    cases ns <;> rfl

end Walk

/-! ### Text -/

/-- A name of a directory or a file. -/
def IsName (n : List Char) : Prop := n ≠ [] ∧ n ≠ ['.'] ∧ n ≠ ['.', '.'] ∧ '/' ∉ n

instance (n : List Char) : Decidable (IsName n) :=
  inferInstanceAs (Decidable (n ≠ [] ∧ n ≠ ['.'] ∧ n ≠ ['.', '.'] ∧ '/' ∉ n))

/-- The move that a component stands for. -/
def moveOf (component : List Char) : Option (Move (List Char)) :=
  if component = [] ∨ component = ['.'] then none
  else if component = ['.', '.'] then some .up
  else some (.down component)

/-- The moves of a path, without what its first character says. -/
def moves (path : List Char) : List (Move (List Char)) := (path.splitOn '/').filterMap moveOf

/-- A path that starts at the root. -/
def isAbsolute (path : List Char) : Bool := path.head? = some '/'

/-- The place that a path denotes in a directory. -/
def place (dir : List (List Char)) (path : List Char) : List (List Char) :=
  walk (if isAbsolute path then [] else dir) (moves path)

/-- The names of a directory, each after a separator. -/
def trail : List (List Char) → List Char
  | [] => []
  | n :: dir => trail dir ++ '/' :: n

/-- The text of a directory. -/
def render (dir : List (List Char)) : List Char := if dir = [] then ['/'] else trail dir

variable {α : Type} {n c p : List Char}

theorem not_mem_of_mem_splitOn [DecidableEq α] {a : α} {s c : List α} (h : c ∈ s.splitOn a) :
    a ∉ c := by
  induction s using Text.split_induction a with
  | hlast s hs =>
    rw [List.splitOn_eq_singleton hs, List.mem_singleton] at h
    rwa [h]
  | hcons b s hb ih =>
    rw [List.splitOn_append_cons_self_of_not_mem hb] at h
    rcases mem_cons.mp h with rfl | h
    · exact hb
    · exact ih h

theorem moves_append (p q : List Char) : moves (p ++ '/' :: q) = moves p ++ moves q := by
  unfold moves
  rw [List.splitOn_append_cons_self, List.filterMap_append]

@[simp] theorem moves_nil : moves [] = [] := rfl

theorem moves_component (h : '/' ∉ n) : moves n = (moveOf n).toList := by
  unfold moves
  rw [List.splitOn_eq_singleton h, List.filterMap_cons]
  cases moveOf n <;> rfl

theorem moveOf_name (h : IsName n) : moveOf n = some (.down n) := by
  unfold moveOf
  rw [if_neg (by simp [h.1, h.2.1]), if_neg h.2.2.1]

theorem moves_name (h : IsName n) : moves n = [.down n] := by
  rw [moves_component h.2.2.2, moveOf_name h]
  rfl

theorem moves_cons_sep (p : List Char) : moves ('/' :: p) = moves p := moves_append [] p

theorem moves_append_sep (p : List Char) : moves (p ++ ['/']) = moves p := by
  rw [moves_append, moves_nil, append_nil]

theorem moveOf_eq_down (h : moveOf c = some (.down n)) :
    c = n ∧ c ≠ [] ∧ c ≠ ['.'] ∧ c ≠ ['.', '.'] := by
  unfold moveOf at h
  split_ifs at h with h0 h1
  · cases h
  · cases h
    exact ⟨rfl, fun h => h0 (.inl h), fun h => h0 (.inr h), h1⟩

theorem isName_of_moveOf (hc : '/' ∉ c) (h : moveOf c = some (.down n)) :
    IsName n := by
  obtain ⟨rfl, h0, h1, h2⟩ := moveOf_eq_down h
  exact ⟨h0, h1, h2, hc⟩

theorem isName_of_mem_moves (h : Move.down n ∈ moves p) : IsName n := by
  obtain ⟨c, hc, hn⟩ := List.mem_filterMap.mp h
  exact isName_of_moveOf (not_mem_of_mem_splitOn hc) hn

theorem mem_walk {P : α → Prop} {dir : List α} {ms : List (Move α)} (hd : ∀ n ∈ dir, P n)
    (hm : ∀ n, Move.down n ∈ ms → P n) : ∀ n ∈ walk dir ms, P n := by
  induction ms generalizing dir with
  | nil => exact hd
  | cons m ms ih =>
    refine ih ?_ fun n hn => hm n (.tail _ hn)
    cases m with
    | up => exact fun n hn => hd n (List.mem_of_mem_tail hn)
    | down n =>
      intro n' hn'
      rcases mem_cons.mp hn' with rfl | hn'
      · exact hm _ (.head _)
      · exact hd n' hn'

theorem isAbsolute_append (h : p ≠ []) (q : List Char) :
    isAbsolute (p ++ q) = isAbsolute p := by
  cases p with
  | nil => exact absurd rfl h
  | cons c p => rfl

end RasterRuntime.Lexical
