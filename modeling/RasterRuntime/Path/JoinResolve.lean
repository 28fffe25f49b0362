import RasterRuntime.Lexical

/-! # The path module

`path.join`, `path.normalize` and `path.resolve` share one loop, `join_resolve_path`, here in its
unix build. It edits one text in place: a name is appended with a separator behind it and the length
from before is pushed on a stack of indexes, `..` pops an index and truncates the text there. With
an empty stack `..` cuts the text at its last separator, but only while no part has restarted the
path.

Texts are lists of characters, and lengths and indexes count characters: the code only cuts at
lengths and separators it has seen, so that counting bytes would cut at the same places. -/

namespace RasterRuntime.Path

open Lexical

/-- The components that the loops of the source cut from a text: none is cut behind a separator at
the end. -/
def subParts : List Char → List (List Char)
  | [] => []
  | c :: s =>
    if c = '/' then [] :: subParts s
    else
      match subParts s with
      | [] => [[c]]
      | p :: ps => (c :: p) :: ps

/-- The index of the last separator. -/
def findLastSep : List Char → Option ℕ
  | [] => none
  | c :: s =>
    match findLastSep s with
    | some i => some (i + 1)
    | none => if c = '/' then some 0 else none

def endsWithSep (path : List Char) : Bool := path.getLast? = some '/'

/-- The test of the join branch, which takes a backslash for a separator in every build. -/
def startsWithSep (path : List Char) : Bool := path.head? = some '/' ∨ path.head? = some '\\'

/-- The variables of the loop; the top of the index stack first. -/
structure Joining where
  result : List Char
  indexStack : List ℕ
  empty : Bool
  deriving DecidableEq, Repr

/-- The text with a separator at its end, unless it is empty. -/
def sealed (result : List Char) : List Char :=
  if endsWithSep result ∨ result = [] then result else result ++ ['/']

/-- The case `..` of the loop. -/
def Joining.up (j : Joining) : Joining :=
  match j.indexStack with
  | i :: is => { j with result := j.result.take i, indexStack := is }
  | [] =>
    if j.empty then
      match findLastSep j.result with
      | some i => { j with result := j.result.take i }
      | none => j
    else j

/-- The case of a name. -/
def Joining.down (j : Joining) (subPart : List Char) : Joining :=
  { j with
    result := sealed j.result ++ subPart ++ ['/']
    indexStack := j.result.length :: j.indexStack }

/-- One round of the inner loop. -/
def Joining.component (j : Joining) (c : List Char) : Joining :=
  if c = ['.', '.'] then j.up
  else if c = [] ∨ c = ['.'] then j
  else j.down c

/-- One part: what it restarts, and its components. -/
def Joining.part (resolve : Bool) (j : Joining) (part : List Char) : Joining :=
  if resolve then
    if part.head? = some '/' then
      (subParts (part.drop 1)).foldl Joining.component { j with result := ['/'], empty := false }
    else (subParts part).foldl Joining.component j
  else if startsWithSep part ∧ j.empty then
    (subParts (part.drop 1)).foldl Joining.component
      { j with result := j.result ++ ['/'], empty := false }
  else (subParts part).foldl Joining.component j

/-- The text without a separator at its end, unless it is one. -/
def trimEnd (result : List Char) : List Char :=
  if 1 < result.length ∧ endsWithSep result then result.take (result.length - 1) else result

def joinResolvePath (parts : List (List Char)) (resolve : Bool) (result : List Char) : List Char :=
  trimEnd (parts.foldl (Joining.part resolve) ⟨trimEnd result, [], true⟩).result

/-- The current directory, as the operating system reports it. -/
structure Dir where
  names : List (List Char)
  isName : ∀ n ∈ names, IsName n

/-- The text of the current directory. -/
def Dir.text (d : Dir) : List Char := render d.names

/-- A directory of `k` names `c`. -/
def deepDir (c : Char) (hc : IsName [c]) (k : ℕ) : Dir where
  names := List.replicate k [c]
  isName := fun n hn => by
    rw [(List.mem_replicate.mp hn).2]
    exact hc

def joinPath (parts : List (List Char)) : List Char := joinResolvePath parts false []

def resolvePath (cwd : Dir) (parts : List (List Char)) : List Char :=
  joinResolvePath parts true (if endsWithSep cwd.text then cwd.text else cwd.text ++ ['/'])

def normalize (path : List Char) : List Char := joinPath [path]

/-! ### Components -/

theorem splitOn_eq_subParts (s : List Char) :
    s.splitOn '/' = subParts s ∨ s.splitOn '/' = subParts s ++ [[]] := by
  induction s with
  | nil => exact .inr (List.splitOn_nil _)
  | cons c s ih =>
    rw [List.splitOn_cons_eq_if_modifyHead]
    unfold subParts
    by_cases hc : c = '/'
    · rw [if_pos (by simp [hc]), if_pos hc]
      exact ih.imp (fun h => by rw [h]) fun h => by rw [h, List.cons_append]
    · rw [if_neg (by simp [hc]), if_neg hc]
      cases hs : subParts s with
      | nil =>
        rw [hs] at ih
        left
        rw [ih.resolve_left (List.splitOn_ne_nil _ _)]
        rfl
      | cons p ps =>
        rw [hs] at ih
        exact ih.imp (fun h => by rw [h]; rfl) fun h => by rw [h]; rfl

theorem filterMap_subParts (s : List Char) : (subParts s).filterMap moveOf = moves s := by
  unfold moves
  rcases splitOn_eq_subParts s with h | h
  · rw [h]
  · rw [h, List.filterMap_append]
    exact (List.append_nil _).symm

/-! ### Moves -/

/-- What a move does to the variables of the loop. -/
def Joining.move (j : Joining) : Move (List Char) → Joining
  | .up => j.up
  | .down n => j.down n

theorem Joining.up_cons {j : Joining} {i : ℕ} {is : List ℕ} (h : j.indexStack = i :: is) :
    j.up = { j with result := j.result.take i, indexStack := is } := by
  unfold Joining.up
  rw [h]

theorem component_eq (j : Joining) (c : List Char) :
    j.component c = (moveOf c).elim j j.move := by
  unfold Joining.component moveOf
  by_cases h0 : c = [] ∨ c = ['.']
  · have h1 : c ≠ ['.', '.'] := by rcases h0 with rfl | rfl <;> decide
    rw [if_neg h1, if_pos h0, if_pos h0]
    rfl
  · by_cases h1 : c = ['.', '.']
    · rw [if_pos h1, if_neg h0, if_pos h1]
      rfl
    · rw [if_neg h1, if_neg h0, if_neg h0, if_neg h1]
      rfl

/-- **The inner loop** does one thing for each move of the text. -/
theorem foldl_component (j : Joining) (s : List Char) :
    (subParts s).foldl Joining.component j = (moves s).foldl Joining.move j := by
  rw [← filterMap_subParts]
  induction subParts s generalizing j with
  | nil => rfl
  | cons c cs ih =>
    rw [List.foldl_cons, ih, component_eq, List.filterMap_cons]
    cases moveOf c <;> rfl

theorem part_resolve (j : Joining) (p : List Char) :
    j.part true p = (moves p).foldl Joining.move
      (if isAbsolute p then { j with result := ['/'], empty := false } else j) := by
  unfold Joining.part
  rw [if_pos rfl]
  by_cases h : p.head? = some '/'
  · obtain ⟨s, rfl⟩ := List.head?_eq_some_iff.mp h
    rw [if_pos h, foldl_component, moves_cons_sep]
    rfl
  · rw [if_neg h, foldl_component]
    congr 1
    exact (if_neg (by simpa [isAbsolute] using h)).symm

/-! ### Texts -/

variable {s t : List Char}

theorem findLastSep_eq_none (h : '/' ∉ s) : findLastSep s = none := by
  induction s with
  | nil => rfl
  | cons c s ih =>
    unfold findLastSep
    rw [ih fun hs => h (List.mem_cons_of_mem _ hs)]
    exact if_neg fun hc => h (by rw [hc]; exact .head _)

theorem findLastSep_append (h : '/' ∉ t) :
    findLastSep (s ++ '/' :: t) = some s.length := by
  induction s with
  | nil =>
    rw [List.nil_append, findLastSep, findLastSep_eq_none h]
    rfl
  | cons c s ih =>
    rw [List.cons_append, findLastSep, ih]
    rfl

theorem endsWithSep_append (h : t ≠ []) :
    endsWithSep (s ++ t) = endsWithSep t := by
  unfold endsWithSep
  rw [List.getLast?_append_of_ne_nil _ h]

theorem endsWithSep_of_not_mem (h : '/' ∉ s) : endsWithSep s = false := by
  refine decide_eq_false fun hs => h (List.mem_of_getLast? hs)

theorem endsWithSep_concat (s : List Char) : endsWithSep (s ++ ['/']) := by
  rw [endsWithSep_append (by simp)]
  rfl

theorem sealed_of_sep (h : endsWithSep s) : sealed s = s := if_pos (.inl h)

theorem trimEnd_concat (h : s ≠ []) : trimEnd (s ++ ['/']) = s := by
  have hs : 1 < (s ++ ['/']).length := by
    have := List.length_pos_iff.mpr h
    rw [List.length_append, List.length_singleton]
    omega
  unfold trimEnd
  rw [if_pos ⟨hs, endsWithSep_concat s⟩, List.length_append, List.length_singleton,
    Nat.add_sub_cancel, List.take_left]

theorem trimEnd_of_not_sep (h : endsWithSep s = false) : trimEnd s = s :=
  if_neg (by simp [h])

/-- The text after names have been appended to `base`, the last one first. -/
def textOf (base : List Char) : List (List Char) → List Char
  | [] => base
  | n :: ns => sealed (textOf base ns) ++ n ++ ['/']

/-- The indexes that these names have pushed. -/
def idxOf (base : List Char) : List (List Char) → List ℕ
  | [] => []
  | _ :: ns => (textOf base ns).length :: idxOf base ns

theorem take_sealed (s t : List Char) : (sealed s ++ t).take s.length = s := by
  unfold sealed
  split_ifs
  · exact List.take_left
  · rw [List.append_assoc]
    exact List.take_left

theorem take_textOf (base n : List Char) (ns : List (List Char)) :
    (textOf base (n :: ns)).take (textOf base ns).length = textOf base ns := by
  show (sealed (textOf base ns) ++ n ++ ['/']).take _ = _
  rw [List.append_assoc, take_sealed]

end RasterRuntime.Path
