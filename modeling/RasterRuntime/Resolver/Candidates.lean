import RasterRuntime.Fallible
import RasterRuntime.Resolver.Model

/-! # The candidates for a file

`load_as_file` and `load_index` try the extensions one after the other, then `.json`. What the
source does after that for `.node` is dead, but `.node` is one of the extensions, so nothing is
missed: the result is the first candidate that is a file. A file that was found by an extension is
given only if the `package.json` of its scope can be read. -/

namespace RasterRuntime.Resolver

open Path
open List (map_append)

variable {env : Env} {cwd : Dir} {x base : List Char} {exts : List (List Char)}

/-- The candidates behind a base, in order. -/
def candidates (exts : List (List Char)) (base : List Char) : List (List Char) :=
  (exts ++ [".json".toList, ".node".toList]).map (base ++ ·)

/-- The first candidate is found, or there is none; an extension counts if the scope is in order. -/
def Finds (env : Env) (cwd : Dir) (x base : List Char) (r : Option (List Char)) : Prop :=
  ∃ exts, extensionCandidates env = .ok exts ∧ r = (candidates exts base).find? (isFile env cwd) ∧
    ((∃ ext ∈ exts, isFile env cwd (base ++ ext)) → checkScope env cwd x = .ok ())

theorem node_mem_extensionCandidates (h : extensionCandidates env = .ok exts) :
    ".node".toList ∈ exts := by
  have hnode : ".node".toList ∈ supportedExtensions := by decide
  unfold extensionCandidates at h
  split_ifs at h
  · exact Except.ok.inj h ▸ hnode
  · obtain ⟨registered, _, rfl⟩ := map_eq_ok.mp h
    by_cases hmem : ".node".toList ∈ registered
    · exact List.mem_append_left _ hmem
    · exact List.mem_append_right _ (List.mem_filter.mpr ⟨hnode, decide_eq_true hmem⟩)

theorem tryExtensions_eq (env : Env) (cwd : Dir) (x base : List Char) (exts : List (List Char)) :
    tryExtensions env cwd x base exts =
      match (exts.map (base ++ ·)).find? (isFile env cwd) with
      | some path => (checkScope env cwd x).map fun _ => some path
      | none => .ok none := by
  induction exts with
  | nil => rfl
  | cons ext exts ih =>
    rw [tryExtensions, ih, List.map_cons, List.find?_cons]
    cases isFile env cwd (base ++ ext) <;> rfl

/-- Behind the extensions only `.json` can be left. -/
theorem find_candidates (h : extensionCandidates env = .ok exts)
    (hno : (exts.map (base ++ ·)).find? (isFile env cwd) = none) :
    (candidates exts base).find? (isFile env cwd) =
      if isFile env cwd (base ++ ".json".toList) then some (base ++ ".json".toList) else none := by
  have hnode : isFile env cwd (base ++ ".node".toList) = false := by
    have hmem := List.mem_map_of_mem (f := (base ++ ·)) (node_mem_extensionCandidates h)
    simpa using List.find?_eq_none.mp hno _ hmem
  rw [candidates, map_append, List.find?_append, hno, Option.none_or, List.map_cons, List.map_cons,
    List.find?_cons, List.find?_cons, hnode]
  cases isFile env cwd (base ++ ".json".toList) <;> rfl

theorem tryBase_iff (env : Env) (cwd : Dir) (x base : List Char) (r : Option (List Char)) :
    tryBase env cwd x base = .ok r ↔ Finds env cwd x base r := by
  unfold tryBase Finds
  cases hexts : extensionCandidates env with
  | error e => exact ⟨nofun, fun ⟨_, h, _⟩ => nomatch h⟩
  | ok exts =>
    show orTry _ _ = _ ↔ _
    rw [tryExtensions_eq]
    cases hfind : (exts.map (base ++ ·)).find? (isFile env cwd) with
    | none =>
      have hno : ¬ ∃ ext ∈ exts, isFile env cwd (base ++ ext) := by
        rintro ⟨ext, hext, hfile⟩
        exact List.find?_eq_none.mp hfind _ (List.mem_map_of_mem hext) hfile
      rw [← find_candidates hexts hfind]
      constructor
      · exact fun h => ⟨exts, rfl, (Except.ok.inj h).symm, fun h' => absurd h' hno⟩
      · rintro ⟨_, ⟨⟩, rfl, -⟩
        rfl
    | some path =>
      have hsome : ∃ ext ∈ exts, isFile env cwd (base ++ ext) := by
        obtain ⟨ext, hext, rfl⟩ := List.mem_map.mp (List.mem_of_find?_eq_some hfind)
        exact ⟨ext, hext, List.find?_some (p := isFile env cwd) hfind⟩
      have hcand : (candidates exts base).find? (isFile env cwd) = some path := by
        rw [candidates, map_append, List.find?_append, hfind]
        rfl
      cases hscope : checkScope env cwd x with
      | error e =>
        refine ⟨nofun, ?_⟩
        rintro ⟨_, ⟨⟩, -, h⟩
        exact nomatch h hsome
      | ok u =>
        constructor
        · exact fun h => ⟨exts, rfl, (Except.ok.inj h).symm.trans hcand.symm, fun _ => rfl⟩
        · rintro ⟨_, ⟨⟩, rfl, -⟩
          rw [hcand]
          rfl

/-- **The first candidate**: `load_as_file` gives the path itself if it is a file, and otherwise it
and `load_index` give the first candidate that is one. They fail where the extensions or the scope
of a file that an extension has found cannot be read. -/
theorem load_first_candidate (env : Env) (cwd : Dir) (x : List Char) (r : Option (List Char)) :
    (loadAsFile env cwd x = .ok r ↔ (isFile env cwd x ∧ r = some x) ∨
      (¬ isFile env cwd x ∧ Finds env cwd x x r)) ∧
    (loadIndex env cwd x = .ok r ↔ Finds env cwd x (x ++ "/index".toList) r) := by
  refine ⟨?_, tryBase_iff env cwd x _ r⟩
  unfold loadAsFile
  split_ifs with hfile
  · simp [hfile, eq_comm]
  · simp [hfile, tryBase_iff]

/-- A file is there, but the `package.json` beside it is not JSON. -/
theorem load_fails_in_scope :
    let fs : FileSystem :=
      { isFile := fun p => p = "/d/a.js".toList ∨ p = "/d/package.json".toList
        isDir := fun _ => false
        readLink := fun _ => none
        read := fun _ => .ok [] }
    let env : Env := ⟨fs, fun _ => none, .ok [], none, true⟩
    isFile env ⟨[], by simp⟩ "/d/a.js".toList ∧
      loadAsFile env ⟨[], by simp⟩ "/d/a".toList =
        .error (.thrown "Invalid package config /d/package.json.".toList) := by
  decide

end RasterRuntime.Resolver
