import Mathlib.Data.List.Basic

/-! # Paths of the standard library

The parts of the standard library's `Path` that the module resolver uses, in its unix build. A path
is read from its end: empty components and `.` are skipped there, except for a `.` at the very start
of a relative path. The parent of a path is the text before its last component, without what is
skipped behind it.

* `ancestors_eq`: the chain of parents of a path ends, because a parent is shorter.
* `ancestors_split`: the chain of an ancestor is the rest of the chain. -/

namespace RasterRuntime.StdPath

open List (cons_append length length_append)

instance lawfulBEq_text : LawfulBEq (List Char) := inferInstance

/-- The root, or a `.` that a relative path starts with. -/
def lead (path : List Char) : List Char :=
  if path.head? = some '/' then ['/']
  else if path = ['.'] ∨ path.take 2 = ['.', '/'] then ['.']
  else []

/-- A component that is not one of the path. -/
def skipped (component : List Char) : Bool := component = [] ∨ component = ['.']

/-- The text between separators behind the lead, from the last component on. -/
def components (path : List Char) : List (List Char) :=
  (((path.drop (lead path).length).splitOn '/').reverse).dropWhile skipped

/-- `Path::file_name`. -/
def fileName (path : List Char) : Option (List Char) :=
  match components path with
  | [] => none
  | c :: _ => if c = ['.', '.'] then none else some c

/-- `Path::parent`. -/
def parent (path : List Char) : Option (List Char) :=
  match components path with
  | [] => if lead path = ['.'] then some [] else none
  | _ :: cs => some (lead path ++ ['/'].intercalate (cs.dropWhile skipped).reverse)

/-- `Path::join` with a relative path. -/
def join (path name : List Char) : List Char :=
  if path = [] ∨ path.getLast? = some '/' then path ++ name else path ++ '/' :: name

/-- The path, its parent, and so on, at most `fuel` of them. -/
def chain : ℕ → List Char → List (List Char)
  | 0, _ => []
  | fuel + 1, path =>
    path :: match parent path with
      | none => []
      | some dir => chain fuel dir

/-- The path, its parent, and so on. -/
def ancestors (path : List Char) : List (List Char) := chain (path.length + 1) path

/-! ### A parent is shorter -/

theorem length_intercalate_append (cs ds : List (List Char)) :
    (['/'].intercalate cs).length + (['/'].intercalate ds).length ≤
      (['/'].intercalate (cs ++ ds)).length := by
  induction cs with
  | nil => simp
  | cons c cs ih =>
    cases cs with
    | nil =>
      cases ds with
      | nil => simp
      | cons d ds =>
        rw [List.singleton_append, List.intercalate_cons_cons, List.intercalate_singleton,
          length_append, length_append]
        omega
    | cons c' cs =>
      rw [cons_append, cons_append, List.intercalate_cons_cons,
        List.intercalate_cons_cons, length_append, length_append, length_append,
        length_append]
      rw [cons_append] at ih
      omega

theorem length_lead_le (path : List Char) : (lead path).length ≤ path.length := by
  unfold lead
  split_ifs with h h'
  · obtain ⟨rest, rfl⟩ := List.head?_eq_some_iff.mp h
    exact Nat.succ_le_succ (Nat.zero_le _)
  · rcases h' with h' | h'
    · exact Nat.le_of_eq (congrArg length h').symm
    · have := congrArg length h'
      rw [List.length_take] at this
      show 1 ≤ path.length
      have h2 : min 2 path.length = 2 := this
      omega
  · exact Nat.zero_le _

theorem length_dropWhile_reverse_le (cs : List (List Char)) :
    (['/'].intercalate (cs.dropWhile skipped).reverse).length ≤
      (['/'].intercalate cs.reverse).length := by
  have h := length_intercalate_append (cs.dropWhile skipped).reverse (cs.takeWhile skipped).reverse
  rw [← List.reverse_append, List.takeWhile_append_dropWhile] at h
  omega

variable {path dir : List Char}

theorem length_parent_lt (h : parent path = some dir) :
    dir.length < path.length := by
  unfold parent at h
  have hlead := length_lead_le path
  cases hc : components path with
  | nil =>
    rw [hc] at h
    split_ifs at h with h1
    cases h
    rw [h1] at hlead
    exact hlead
  | cons c cs =>
    rw [hc] at h
    cases h
    -- the last component is not empty
    have hne : c ≠ [] := by
      rintro rfl
      have hd := List.head?_dropWhile_not skipped
        ((path.drop (lead path).length).splitOn '/').reverse
      unfold components at hc
      rw [hc] at hd
      cases show true = false from hd
    have hbody : (['/'].intercalate (c :: cs).reverse).length ≤
        (path.drop (lead path).length).length := by
      have h := length_dropWhile_reverse_le ((path.drop (lead path).length).splitOn '/').reverse
      rw [List.reverse_reverse, List.intercalate_splitOn] at h
      unfold components at hc
      rwa [hc] at h
    have hlast := length_intercalate_append cs.reverse [c]
    rw [← List.reverse_cons, List.intercalate_singleton] at hlast
    have hpos := List.length_pos_iff.mpr hne
    have hskip := length_dropWhile_reverse_le cs
    rw [List.length_drop] at hbody
    rw [length_append]
    omega

/-! ### Chains -/

theorem chain_of_lt {fuel : ℕ} (h : path.length < fuel) :
    chain fuel path = ancestors path := by
  suffices ∀ fuel fuel' path, path.length < fuel → path.length < fuel' →
      chain fuel path = chain fuel' path by
    exact this _ _ _ h (Nat.lt_succ_self _)
  intro fuel
  induction fuel with
  | zero => exact fun _ _ h => absurd h (Nat.not_lt_zero _)
  | succ fuel ih =>
    intro fuel' path h h'
    cases fuel' with
    | zero => exact absurd h' (Nat.not_lt_zero _)
    | succ fuel' =>
      unfold chain
      cases hp : parent path with
      | none => rfl
      | some dir =>
        have := length_parent_lt hp
        exact congrArg (path :: ·) (ih fuel' dir (by omega) (by omega))

/-- **Ancestors**: the path, and those of its parent. -/
theorem ancestors_eq (path : List Char) :
    ancestors path = path :: ((parent path).map ancestors).getD [] := by
  unfold ancestors
  rw [chain]
  cases hp : parent path with
  | none => rfl
  | some dir => exact congrArg (path :: ·) (chain_of_lt (length_parent_lt hp))

theorem ancestors_induction {P : List Char → Prop}
    (step : ∀ path, (∀ dir, parent path = some dir → P dir) → P path) (path : List Char) :
    P path := by
  suffices ∀ n path, path.length < n → P path from this _ path (Nat.lt_succ_self _)
  intro n
  induction n with
  | zero => exact fun _ h => absurd h (Nat.not_lt_zero _)
  | succ n ih =>
    intro path h
    refine step path fun dir hd => ih dir ?_
    have := length_parent_lt hd
    omega

theorem ancestors_split (h : dir ∈ ancestors path) :
    ancestors path = (ancestors path).takeWhile (· ≠ dir) ++ ancestors dir := by
  induction path using ancestors_induction with
  | step path ih =>
    by_cases hd : path = dir
    · rw [hd, ancestors_eq dir, List.takeWhile_cons_of_neg (by simp)]
      rfl
    · rw [ancestors_eq path] at h ⊢
      rw [List.takeWhile_cons_of_pos (by simp [hd])]
      cases hp : parent path with
      | none =>
        rw [hp] at h
        exact absurd (List.mem_singleton.mp h).symm hd
      | some q =>
        rw [hp] at h
        have hq : dir ∈ ancestors q := (List.mem_cons.mp h).resolve_left fun h => hd h.symm
        exact congrArg (path :: ·) (ih q hp hq)

theorem ancestors_drop {k : ℕ} (h : (ancestors path)[k]? = some dir) :
    ancestors dir = (ancestors path).drop k := by
  induction k generalizing path with
  | zero =>
    rw [ancestors_eq path, List.getElem?_cons_zero, Option.some_inj] at h
    rw [h]
    rfl
  | succ k ih =>
    rw [ancestors_eq path, List.getElem?_cons_succ] at h
    rw [ancestors_eq path, List.drop_succ_cons]
    cases hp : parent path with
    | none =>
      rw [hp] at h
      cases h
    | some q =>
      rw [hp] at h
      exact ih h

end RasterRuntime.StdPath
