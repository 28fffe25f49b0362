import RasterRuntime.NodeModules.Collect

/-! # When the `node_modules` cache is transparent

A walk enters one list for all the directories it went through: that of the directory it started
from. For a directory further up the list is right only if the directories below it, on the way from
the start of that walk, have no `node_modules` of their own.

`Fills` keeps for each known directory the start of the walk that entered it. A call is `Served`
when the first known directory on its way is right in this sense. Calls return what they would
return with an empty cache exactly as long as all of them are served: the first that is not returns
a wrong list. -/

namespace RasterRuntime.NodeModules

open StdPath

/-- For each known directory the start of the walk that entered it. -/
abbrev Fills := Table (List Char)

/-- What a call enters. -/
def fillBy (fs : FileSystem) (fills : Fills) (start : List Char) : Fills :=
  match fills start with
  | some (some _) => fills
  | _ =>
    let w := walkUp fs (fun d => (fills d).map fun _ => none) (ancestors start) ⟨[], [], 0⟩
    store start w.lastFoundIndex 0 w.pathsToCache fills

/-- No directory below `dir`, on the way from `origin`, has `node_modules`. -/
def Bare (fs : FileSystem) (origin dir : List Char) : Prop :=
  ∀ d ∈ (ancestors origin).takeWhile (· ≠ dir), nodeModules fs d = none

/-- The first known directory on the way was entered by a walk that found nothing below it. -/
def Served (fs : FileSystem) (fills : Fills) (start : List Char) : Prop :=
  ∀ dir origin, firstKnown fills (ancestors start) = some dir → fills dir = some (some origin) →
    Bare fs origin dir

/-- Every one of the calls is served. -/
def AllServed (fs : FileSystem) : Fills → List (List Char) → Prop
  | _, [] => True
  | fills, start :: starts => Served fs fills start ∧ AllServed fs (fillBy fs fills start) starts

/-- The cache holds, for each known directory, the list of the directory whose walk entered it. -/
structure Matches (fs : FileSystem) (cache : Cache) (fills : Fills) : Prop where
  cache_eq : ∀ d, cache d = (fills d).map fun entry => entry.map (own fs)
  nothing : ∀ d, fills d = some none → own fs d = []
  below : ∀ d origin, fills d = some (some origin) → d ∈ ancestors origin

/-! ### Lists of ancestors -/

variable {origin dir : List Char}

theorem own_split (fs : FileSystem) (h : dir ∈ ancestors origin) :
    own fs origin =
      ((ancestors origin).takeWhile (· ≠ dir)).filterMap (nodeModules fs) ++ own fs dir := by
  unfold own
  conv_lhs => rw [ancestors_split h]
  exact List.filterMap_append

theorem own_eq_iff (fs : FileSystem) (h : dir ∈ ancestors origin) :
    own fs origin = own fs dir ↔ Bare fs origin dir := by
  rw [own_split fs h, List.append_left_eq_self, List.filterMap_eq_nil_iff]
  rfl

theorem unknown_eq_takeWhile {α : Type} {t : Table α} {dirs : List (List Char)}
    (h : firstKnown t dirs = some dir) : unknown t dirs = dirs.takeWhile (· ≠ dir) := by
  obtain ⟨hdir, before, after, rfl, hbefore⟩ := List.find?_eq_some_iff_append.mp h
  have hne : ∀ d ∈ before, d ≠ dir := by
    rintro d hd rfl
    simpa [hdir] using hbefore d hd
  rw [unknown, List.takeWhile_append_of_pos (by simpa using hbefore),
    List.takeWhile_append_of_pos (by simpa using hne), List.takeWhile_cons_of_neg,
    List.takeWhile_cons_of_neg (by simp)]
  simpa using Option.isSome_iff_ne_none.mp hdir

section Call

variable {fs : FileSystem} {cache : Cache} {fills : Fills}

theorem Matches.isSome (h : Matches fs cache fills) (d : List Char) :
    (cache d).isSome = (fills d).isSome := by
  rw [h.cache_eq, Option.isSome_map]

theorem Matches.firstKnown (h : Matches fs cache fills) (dirs : List (List Char)) :
    firstKnown cache dirs = firstKnown fills dirs := by
  unfold NodeModules.firstKnown
  simp only [h.isSome]

variable {start : List Char} {α β : Type}

theorem Matches.fromCache_eq_iff (h : Matches fs cache fills)
    (hf : NodeModules.firstKnown fills (ancestors start) = some dir) :
    fromCache cache (ancestors start) = own fs dir ↔ Served fs fills start := by
  obtain ⟨entry, he⟩ := Option.isSome_iff_exists.mp
    (List.find?_some (p := fun d => (fills d).isSome) hf)
  have hc : fromCache cache (ancestors start) = (entry.map (own fs)).getD [] := by
    unfold fromCache
    rw [h.firstKnown, hf, Option.bind_some, h.cache_eq, he]
    rfl
  rw [hc]
  cases entry with
  | none =>
    refine ⟨fun _ d origin hd ho => ?_, fun _ => (h.nothing dir he).symm⟩
    cases hf.symm.trans hd
    cases he.symm.trans ho
  | some origin =>
    show own fs origin = own fs dir ↔ _
    rw [own_eq_iff fs (h.below dir origin he)]
    constructor
    · intro hb d origin' hd ho
      cases hf.symm.trans hd
      obtain rfl : origin = origin' := by simpa using he.symm.trans ho
      exact hb
    · exact fun hs => hs dir origin hf he

/-- **One call** is right exactly when it is served. -/
theorem Matches.collect_eq_own_iff (h : Matches fs cache fills) (start : List Char) :
    (collectNodeModulesPaths fs cache start).1 = own fs start ↔ Served fs fills start := by
  rw [collect_results]
  cases hf : NodeModules.firstKnown fills (ancestors start) with
  | none =>
    have hc : NodeModules.firstKnown cache (ancestors start) = none := by rw [h.firstKnown, hf]
    rw [unknown_of_firstKnown_none hc, fromCache, hc, Option.bind_none, Option.getD_none,
      List.append_nil]
    refine ⟨fun _ d origin hd => ?_, fun _ => rfl⟩
    cases hf.symm.trans hd
  | some dir =>
    have hc : NodeModules.firstKnown cache (ancestors start) = some dir := by rw [h.firstKnown, hf]
    rw [unknown_eq_takeWhile hc, own_split fs (List.mem_of_find?_eq_some hf),
      List.append_right_inj, h.fromCache_eq_iff hf]

/-! ### What a call enters -/

/-- A property of tables that every entry of the loop keeps holds after it. -/
theorem store_eq_some {value : α} {last i : ℕ} {dirs : List (List Char)} {t : Table α}
    {d : List Char} {entry : Option α} (h : store value last i dirs t d = some entry) :
    t d = some entry ∨ entry = some value ∧ d ∈ dirs ∨
      entry = none ∧ ∃ k, last < i + k ∧ dirs[k]? = some d := by
  induction dirs generalizing i t with
  | nil => exact .inl h
  | cons dir dirs ih =>
    rw [store] at h
    split_ifs at h with hi
    · rcases ih h with h | ⟨he, hd⟩ | ⟨he, k, hk, hd⟩
      · rw [Table.insert] at h
        split_ifs at h with hdir
        · exact .inr (.inl ⟨(Option.some.inj h).symm, hdir ▸ .head _⟩)
        · exact .inl h
      · exact .inr (.inl ⟨he, .tail _ hd⟩)
      · exact .inr (.inr ⟨he, k + 1, by omega, hd⟩)
    · rw [Table.insert] at h
      split_ifs at h with hdir
      · exact .inr (.inr ⟨(Option.some.inj h).symm, 0, by omega, congrArg some hdir.symm⟩)
      · exact .inl h

theorem insert_map (f : α → β) (t : Table α) (dir : List Char) (entry : Option α) :
    (fun d => ((t.insert dir entry) d).map fun e => e.map f) =
      Table.insert (fun d => (t d).map fun e => e.map f) dir (entry.map f) := by
  funext d
  unfold Table.insert
  split_ifs <;> rfl

theorem store_map (f : α → β) (value : α) (last i : ℕ) (dirs : List (List Char)) (t : Table α) :
    store (f value) last i dirs (fun d => (t d).map fun e => e.map f) =
      fun d => ((store value last i dirs t) d).map fun e => e.map f := by
  induction dirs generalizing i t with
  | nil => rfl
  | cons dir dirs ih =>
    rw [store, store]
    split_ifs
    · rw [← ih, insert_map]
      rfl
    · rw [insert_map]
      rfl

theorem Matches.walkUp (h : Matches fs cache fills) (start : List Char) :
    (walkUp fs cache (ancestors start) ⟨[], [], 0⟩).pathsToCache =
        (walkUp fs (fun d => (fills d).map fun _ => none) (ancestors start)
          ⟨[], [], 0⟩).pathsToCache ∧
      (walkUp fs cache (ancestors start) ⟨[], [], 0⟩).lastFoundIndex =
        (walkUp fs (fun d => (fills d).map fun _ => none) (ancestors start)
          ⟨[], [], 0⟩).lastFoundIndex :=
  walkUp_congr fs (fun d => by rw [h.isSome, Option.isSome_map]) _ _ _ rfl rfl

/-- Behind the last index of a walk to the root there is nothing to find. -/
theorem own_eq_nil_of_last {k : ℕ}
    (hk : (walkUp fs cache (ancestors start) ⟨[], [], 0⟩).lastFoundIndex < k)
    (hd : (walkUp fs cache (ancestors start) ⟨[], [], 0⟩).pathsToCache[k]? = some dir) :
    own fs dir = [] := by
  have hsound : (NodeModules.walkUp fs cache (ancestors start) ⟨[], [], 0⟩).Sound fs :=
    Walk.Sound.walkUp fs cache (fun i d _ h => absurd h (by simp)) _
  cases hf : NodeModules.firstKnown cache (ancestors start) with
  | some d =>
    rw [walkUp_last fs cache hf] at hk
    rw [List.getElem?_eq_none (Nat.le_of_lt hk)] at hd
    cases hd
  | none =>
    have hp := walkUp_paths fs cache (ancestors start) ⟨[], [], 0⟩
    rw [unknown_of_firstKnown_none hf, List.nil_append] at hp
    -- the chain of `dir` is what the walk went through from the index on
    rw [hp] at hd
    unfold own
    rw [List.filterMap_eq_nil_iff, ancestors_drop hd]
    intro d hdk
    obtain ⟨i, hi⟩ := List.mem_iff_getElem?.mp hdk
    rw [List.getElem?_drop, ← hp] at hi
    exact hsound (k + i) d (by omega) hi

/-- A walk that finds the right list enters it for directories above its start. -/
theorem Matches.store (h : Matches fs cache fills)
    (hres : (NodeModules.walkUp fs cache (ancestors start) ⟨[], [], 0⟩).results = own fs start) :
    let w := NodeModules.walkUp fs cache (ancestors start) ⟨[], [], 0⟩
    Matches fs (store w.results w.lastFoundIndex 0 w.pathsToCache cache)
      (store start w.lastFoundIndex 0 w.pathsToCache fills) := by
  intro w
  have hcache : cache = fun d => (fills d).map fun entry => entry.map (own fs) := funext h.cache_eq
  have hpaths : ∀ d ∈ w.pathsToCache, d ∈ ancestors start := by
    intro d hd
    rw [walkUp_paths, List.nil_append] at hd
    exact (List.takeWhile_sublist _).mem hd
  constructor
  case cache_eq =>
    intro d
    rw [hres, hcache, store_map]
  case nothing =>
    intro d hd
    rcases store_eq_some hd with hd | ⟨⟨⟩, _⟩ | ⟨_, k, hk, hd⟩
    · exact h.nothing d hd
    · rw [Nat.zero_add] at hk
      exact own_eq_nil_of_last hk hd
  case below =>
    intro d origin hd
    rcases store_eq_some hd with hd | ⟨⟨⟩, hmem⟩ | ⟨⟨⟩, _⟩
    · exact h.below d origin hd
    · exact hpaths d hmem

/-- **One call** keeps the cache as the fills say, if it is served. -/
theorem Matches.collect (h : Matches fs cache fills) (hs : Served fs fills start) :
    Matches fs (collectNodeModulesPaths fs cache start).2 (fillBy fs fills start) := by
  have hres := (h.collect_eq_own_iff start).mpr hs
  have hcs := h.cache_eq start
  obtain ⟨hp, hl⟩ := h.walkUp start
  unfold collectNodeModulesPaths at hres ⊢
  unfold fillBy
  rcases hf : fills start with _ | _ | origin
  all_goals
    rw [hf] at hcs
    rw [hcs] at hres ⊢
  case some.some => exact h
  all_goals
    dsimp only [Option.map_some, Option.map_none]
    rw [← hp, ← hl]
    exact h.store hres

end Call

/-! ### Calls one after the other -/

theorem matches_empty (fs : FileSystem) : Matches fs Table.empty Table.empty where
  cache_eq := fun _ => rfl
  nothing := fun _ h => absurd h (by simp [Table.empty])
  below := fun _ _ h => absurd h (by simp [Table.empty])

theorem Matches.collectAll {fs : FileSystem} {cache : Cache} {fills : Fills}
    (h : Matches fs cache fills) (starts : List (List Char)) :
    collectAll fs cache starts = starts.map (own fs) ↔ AllServed fs fills starts := by
  induction starts generalizing cache fills with
  | nil => exact ⟨fun _ => trivial, fun _ => rfl⟩
  | cons start starts ih =>
    rw [NodeModules.collectAll, List.map_cons, List.cons.injEq, h.collect_eq_own_iff]
    exact and_congr_right fun hs => ih (h.collect hs)

/-! ### Loading a package -/

section Load

variable {ε ρ : Type} (search : List Char → Except ε (Option ρ)) (home : List (List Char))

/-- The first directory in which the package is found. -/
def searchDirs : List (List Char) → Except ε (Option ρ)
  | [] => .ok none
  | dir :: dirs => do
    match ← search dir with
    | some path => .ok (some path)
    | none => searchDirs dirs

/-- `load_node_modules`; `search` is `search_node_modules_dir`, and `home` the global
directories. -/
def loadNodeModules (fs : FileSystem) (cache : Cache) (start : List Char) :
    Except ε (Option ρ) × Cache :=
  let collected := collectNodeModulesPaths fs cache start
  (searchDirs search (collected.1 ++ home), collected.2)

/-- A served call finds a package where it would be found with an empty cache. -/
theorem Matches.loadNodeModules {fs : FileSystem} {cache : Cache} {fills : Fills}
    (h : Matches fs cache fills) {start : List Char} (hs : Served fs fills start) :
    (loadNodeModules search home fs cache start).1 =
      (loadNodeModules search home fs Table.empty start).1 := by
  unfold NodeModules.loadNodeModules
  dsimp only
  rw [(h.collect_eq_own_iff start).mpr hs, collect_empty]

end Load

/-- **The cache is transparent** for a sequence of calls exactly when every call is served. With an
empty cache a call returns the `node_modules` directories of its own ancestors. -/
theorem collectAll_transparent_iff (fs : FileSystem) :
    (∀ start, (collectNodeModulesPaths fs Table.empty start).1 = own fs start) ∧
      ∀ starts, collectAll fs Table.empty starts = starts.map (own fs) ↔
        AllServed fs Table.empty starts :=
  ⟨collect_empty fs, (matches_empty fs).collectAll⟩

/-- A file system with `/a/node_modules` and `/a/b/c/node_modules`. -/
def nested : FileSystem where
  isDir := fun d => d ∈ ["/a/node_modules".toList, "/a/b/c/node_modules".toList]

/-- After a call from `/a/b/c`, a call from `/a/b` finds the directory of `/a/b/c`. -/
theorem collectAll_leaks :
    collectAll nested Table.empty ["/a/b/c".toList, "/a/b".toList] =
        [["/a/b/c/node_modules".toList, "/a/node_modules".toList],
          ["/a/b/c/node_modules".toList, "/a/node_modules".toList]] ∧
      collectAll nested Table.empty ["/a/b".toList] = [["/a/node_modules".toList]] := by
  decide

end RasterRuntime.NodeModules
