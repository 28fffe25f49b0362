import Mathlib.Data.List.TakeWhile
import RasterRuntime.StdPath

/-! # Collecting `node_modules` directories

`collect_node_modules_paths` goes from a directory to the root and collects the `node_modules`
directories it finds, nearest first. A cache shared by all calls holds a list for a directory, or a
mark that there is nothing to find from there on. A walk stops at the first directory that the cache
knows, and afterwards the directories it went through are entered. -/

namespace RasterRuntime.NodeModules

open StdPath

/-- The file system, as far as the walk asks it. -/
structure FileSystem where
  isDir : List Char → Bool

/-- What is stored for directories; `some none` marks that there is nothing to find. -/
abbrev Table (α : Type) := List Char → Option (Option α)

/-- The cache: a list of directories for a directory. -/
abbrev Cache := Table (List (List Char))

def Table.empty {α : Type} : Table α := fun _ => none

def Table.insert {α : Type} (t : Table α) (dir : List Char) (entry : Option α) : Table α :=
  fun d => if d = dir then some entry else t d

/-- The `node_modules` directory of a directory, if it has one. -/
def nodeModules (fs : FileSystem) (dir : List Char) : Option (List Char) :=
  if (fileName dir).any (· ≠ "node_modules".toList) ∧ fs.isDir (join dir "node_modules".toList) then
    some (join dir "node_modules".toList)
  else none

/-- The variables of the walk; its counter `i` is the length of `pathsToCache`. -/
structure Walk where
  results : List (List Char)
  pathsToCache : List (List Char)
  lastFoundIndex : ℕ
  deriving DecidableEq, Repr

/-- A directory that the cache does not know. -/
def Walk.visit (fs : FileSystem) (w : Walk) (dir : List Char) : Walk :=
  match nodeModules fs dir with
  | some found =>
    { results := w.results ++ [found]
      pathsToCache := w.pathsToCache ++ [dir]
      lastFoundIndex := w.pathsToCache.length }
  | none => { w with pathsToCache := w.pathsToCache ++ [dir] }

/-- The walk through the directories. -/
def walkUp (fs : FileSystem) (cache : Cache) : List (List Char) → Walk → Walk
  | [], w => w
  | dir :: dirs, w =>
    match cache dir with
    | some entry =>
      { w with
        results := w.results ++ entry.getD []
        lastFoundIndex := w.pathsToCache.length }
    | none => walkUp fs cache dirs (w.visit fs dir)

/-- The loop that enters the directories, from index `i` on. -/
def store {α : Type} (value : α) (lastFoundIndex : ℕ) : ℕ → List (List Char) → Table α → Table α
  | _, [], t => t
  | i, dir :: dirs, t =>
    if i ≤ lastFoundIndex then store value lastFoundIndex (i + 1) dirs (t.insert dir (some value))
    else t.insert dir none

def collectNodeModulesPaths (fs : FileSystem) (cache : Cache) (start : List Char) :
    List (List Char) × Cache :=
  match cache start with
  | some (some dirs) => (dirs, cache)
  | _ =>
    let w := walkUp fs cache (ancestors start) ⟨[], [], 0⟩
    (w.results, store w.results w.lastFoundIndex 0 w.pathsToCache cache)

/-- The results of calls one after the other. -/
def collectAll (fs : FileSystem) : Cache → List (List Char) → List (List (List Char))
  | _, [] => []
  | cache, start :: starts =>
    (collectNodeModulesPaths fs cache start).1 ::
      collectAll fs (collectNodeModulesPaths fs cache start).2 starts

/-- The `node_modules` directories of a directory and its ancestors, nearest first. -/
def own (fs : FileSystem) (start : List Char) : List (List Char) :=
  (ancestors start).filterMap (nodeModules fs)

/-! ### The walk -/

/-- The directories before the first one that the cache knows. -/
def unknown {α : Type} (t : Table α) (dirs : List (List Char)) : List (List Char) :=
  dirs.takeWhile fun d => (t d).isNone

/-- The first directory that the cache knows. -/
def firstKnown {α : Type} (t : Table α) (dirs : List (List Char)) : Option (List Char) :=
  dirs.find? fun d => (t d).isSome

/-- What the cache adds to the results. -/
def fromCache (cache : Cache) (dirs : List (List Char)) : List (List Char) :=
  ((firstKnown cache dirs).bind fun d => (cache d).join).getD []

section Cases

variable {α : Type} {t : Table α} {dir : List Char}

theorem unknown_cons_none (h : t dir = none) (dirs : List (List Char)) :
    unknown t (dir :: dirs) = dir :: unknown t dirs := List.takeWhile_cons_of_pos (by rw [h]; rfl)

theorem unknown_cons_some {e : Option α} (h : t dir = some e) (dirs : List (List Char)) :
    unknown t (dir :: dirs) = [] := List.takeWhile_cons_of_neg (by rw [h]; exact Bool.false_ne_true)

theorem firstKnown_cons_none (h : t dir = none) (dirs : List (List Char)) :
    firstKnown t (dir :: dirs) = firstKnown t dirs :=
  List.find?_cons_of_neg (by rw [h]; exact Bool.false_ne_true)

theorem firstKnown_cons_some {e : Option α} (h : t dir = some e) (dirs : List (List Char)) :
    firstKnown t (dir :: dirs) = some dir := List.find?_cons_of_pos (by rw [h]; rfl)

end Cases

section Walk

variable (fs : FileSystem) (cache : Cache)

theorem visit_results (w : Walk) (dir : List Char) :
    (w.visit fs dir).results = w.results ++ (nodeModules fs dir).toList := by
  unfold Walk.visit
  cases nodeModules fs dir with
  | none => exact (List.append_nil _).symm
  | some found => rfl

theorem visit_paths (w : Walk) (dir : List Char) :
    (w.visit fs dir).pathsToCache = w.pathsToCache ++ [dir] := by
  unfold Walk.visit
  cases nodeModules fs dir <;> rfl

theorem walkUp_results (dirs : List (List Char)) (w : Walk) :
    (walkUp fs cache dirs w).results =
      w.results ++ ((unknown cache dirs).filterMap (nodeModules fs) ++ fromCache cache dirs) := by
  induction dirs generalizing w with
  | nil => exact (List.append_nil _).symm
  | cons dir dirs ih =>
    unfold walkUp fromCache
    cases hc : cache dir with
    | some entry =>
      rw [unknown_cons_some hc, firstKnown_cons_some hc]
      dsimp only [Option.bind_some]
      rw [hc]
      rfl
    | none =>
      rw [unknown_cons_none hc, firstKnown_cons_none hc]
      rw [ih, visit_results, List.filterMap_cons]
      cases nodeModules fs dir with
      | none => rw [Option.toList_none, List.append_nil]; rfl
      | some found => rw [List.append_assoc]; rfl

theorem walkUp_paths (dirs : List (List Char)) (w : Walk) :
    (walkUp fs cache dirs w).pathsToCache = w.pathsToCache ++ unknown cache dirs := by
  induction dirs generalizing w with
  | nil => exact (List.append_nil _).symm
  | cons dir dirs ih =>
    unfold walkUp
    cases hc : cache dir with
    | some entry =>
      rw [unknown_cons_some hc]
      exact (List.append_nil _).symm
    | none =>
      rw [unknown_cons_none hc]
      rw [ih, visit_paths, List.append_assoc]
      rfl

/-- Which directories are entered does not depend on what the cache holds. -/
theorem walkUp_congr {cache cache' : Cache} (h : ∀ d, (cache d).isSome = (cache' d).isSome)
    (dirs : List (List Char)) (w w' : Walk) (hp : w.pathsToCache = w'.pathsToCache)
    (hl : w.lastFoundIndex = w'.lastFoundIndex) :
    (walkUp fs cache dirs w).pathsToCache = (walkUp fs cache' dirs w').pathsToCache ∧
      (walkUp fs cache dirs w).lastFoundIndex = (walkUp fs cache' dirs w').lastFoundIndex := by
  induction dirs generalizing w w' with
  | nil => exact ⟨hp, hl⟩
  | cons dir dirs ih =>
    unfold walkUp
    have hd := h dir
    cases hc : cache dir with
    | some entry =>
      rw [hc] at hd
      obtain ⟨entry', hc'⟩ := Option.isSome_iff_exists.mp hd.symm
      rw [hc']
      exact ⟨hp, congrArg List.length hp⟩
    | none =>
      rw [hc] at hd
      rw [Option.isSome_eq_false_iff.mp hd.symm |> Option.isNone_iff_eq_none.mp]
      refine ih _ _ ?_ ?_
      · rw [visit_paths, visit_paths, hp]
      · unfold Walk.visit
        cases nodeModules fs dir with
        | none => exact hl
        | some found => exact congrArg List.length hp

/-- Behind the last index no directory has `node_modules`. -/
def Walk.Sound (w : Walk) : Prop :=
  ∀ i dir, w.lastFoundIndex < i → w.pathsToCache[i]? = some dir → nodeModules fs dir = none

theorem Walk.Sound.visit {w : Walk} (h : w.Sound fs) (dir : List Char) :
    (w.visit fs dir).Sound fs := by
  intro i d hi hd
  rw [visit_paths] at hd
  have hlt : i < w.pathsToCache.length + 1 := by
    simpa using (List.getElem?_eq_some_iff.mp hd).1
  unfold Walk.visit at hi
  split at hi
  · exact absurd hi (Nat.not_lt.mpr (Nat.le_of_lt_succ hlt))
  · next hn =>
    rcases Nat.lt_succ_iff_lt_or_eq.mp hlt with hlt | rfl
    · rw [List.getElem?_append_left hlt] at hd
      exact h i d hi hd
    · rw [List.getElem?_concat_length] at hd
      cases hd
      exact hn

theorem Walk.Sound.walkUp {w : Walk} (h : w.Sound fs) (dirs : List (List Char)) :
    (walkUp fs cache dirs w).Sound fs := by
  induction dirs generalizing w with
  | nil => exact h
  | cons dir dirs ih =>
    unfold NodeModules.walkUp
    split
    · intro i d hi hd
      have hi : w.pathsToCache.length < i := hi
      rw [List.getElem?_eq_none (Nat.le_of_lt hi)] at hd
      cases hd
    · exact ih (h.visit fs dir)

/-- A walk that stops at a known directory enters all those before it. -/
theorem walkUp_last {dirs : List (List Char)} {d : List Char} (h : firstKnown cache dirs = some d)
    (w : Walk) :
    (walkUp fs cache dirs w).lastFoundIndex = (walkUp fs cache dirs w).pathsToCache.length := by
  induction dirs generalizing w with
  | nil => exact absurd h (by simp [firstKnown])
  | cons dir dirs ih =>
    unfold walkUp
    cases hc : cache dir with
    | some entry => rfl
    | none =>
      rw [firstKnown_cons_none hc] at h
      exact ih h _

/-- **A call**: what it finds itself, and what the first known directory adds. -/
theorem collect_results (start : List Char) :
    (collectNodeModulesPaths fs cache start).1 =
      (unknown cache (ancestors start)).filterMap (nodeModules fs) ++
        fromCache cache (ancestors start) := by
  have hw := walkUp_results fs cache (ancestors start) ⟨[], [], 0⟩
  unfold collectNodeModulesPaths
  split
  · next dirs hc =>
    unfold fromCache
    rw [ancestors_eq, unknown_cons_some hc, firstKnown_cons_some hc]
    dsimp only [Option.bind_some]
    rw [hc]
    rfl
  · exact hw

end Walk

theorem firstKnown_empty (dirs : List (List Char)) :
    firstKnown (Table.empty (α := List (List Char))) dirs = none :=
  List.find?_eq_none.mpr fun _ _ => Bool.false_ne_true

theorem unknown_of_firstKnown_none {α : Type} {t : Table α} {dirs : List (List Char)}
    (h : firstKnown t dirs = none) : unknown t dirs = dirs :=
  List.takeWhile_eq_self_iff.mpr fun d hd => by simpa using List.find?_eq_none.mp h d hd

theorem collect_empty (fs : FileSystem) (start : List Char) :
    (collectNodeModulesPaths fs Table.empty start).1 = own fs start := by
  rw [collect_results, unknown_of_firstKnown_none (firstKnown_empty _), fromCache, firstKnown_empty,
    Option.bind_none, Option.getD_none, List.append_nil, own]

end RasterRuntime.NodeModules
