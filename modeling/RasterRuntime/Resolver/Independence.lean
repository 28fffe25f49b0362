import RasterRuntime.Fallible
import RasterRuntime.Path.Join
import RasterRuntime.Path.Resolve
import RasterRuntime.Resolver.Model

/-! # The resolver and the current directory

A relative specifier of an absolute file should be resolved in the directory of that file, whatever
the current directory of the process is. The steps that put that directory in front of the specifier
only ask for absolute paths, and none of them sees the current directory. The fast paths of the
resolver do see it: they ask for the specifier itself.

* `Fixed`: a step that does not depend on the current directory and returns absolute paths.
* `viaPath_congr`: the steps for a path do not depend on the current directory.
* `fastPath_deep`: what the fast paths find in a deep directory is below that directory, so that two
  directories with other names cannot give the same path. -/

namespace RasterRuntime.Resolver

open Lexical Path
open Option (some_inj)

/-! ### Absolute paths -/

variable {path : List Char}

theorem isFile_congr (env : Env) (cwd cwd' : Dir) (h : isAbsolute path) :
    isFile env cwd path = isFile env cwd' path := by
  unfold isFile locate
  rw [if_pos h, if_pos h]

theorem isDir_congr (env : Env) (cwd cwd' : Dir) (h : isAbsolute path) :
    isDir env cwd path = isDir env cwd' path := by
  unfold isDir locate
  rw [if_pos h, if_pos h]

theorem ne_nil_of_isAbsolute (h : isAbsolute path) : path ≠ [] := by
  rintro rfl
  cases h

theorem isAbsolute_append_right (h : isAbsolute path) (s : List Char) :
    isAbsolute (path ++ s) := by
  rw [isAbsolute_append (ne_nil_of_isAbsolute h), h]

variable {dir : List Char}

theorem isAbsolute_join (h : isAbsolute dir) (name : List Char) :
    isAbsolute (StdPath.join dir name) := by
  unfold StdPath.join
  split_ifs <;> exact isAbsolute_append_right h _

theorem isAbsolute_parent (h : isAbsolute path)
    (hp : StdPath.parent path = some dir) : isAbsolute dir := by
  have hl : StdPath.lead path = ['/'] := if_pos (of_decide_eq_true h)
  unfold StdPath.parent at hp
  rw [hl] at hp
  split at hp
  · rw [if_neg (by decide)] at hp
    cases hp
  · cases hp
    rfl

theorem isAbsolute_ancestors (h : isAbsolute path) :
    ∀ dir ∈ StdPath.ancestors path, isAbsolute dir := by
  induction path using StdPath.ancestors_induction with
  | step path ih =>
    intro dir hdir
    rw [StdPath.ancestors_eq] at hdir
    rcases List.mem_cons.mp hdir with rfl | hdir
    · exact h
    · cases hp : StdPath.parent path with
      | none =>
        rw [hp] at hdir
        cases hdir
      | some q =>
        rw [hp] at hdir
        exact ih q hp (isAbsolute_parent h hp) dir hdir

theorem isAbsolute_take (h : isAbsolute path) {e : ℕ} (he : 0 < e) :
    isAbsolute (path.take e) := by
  unfold isAbsolute at h ⊢
  rwa [List.head?_take, if_neg (Nat.ne_of_gt he)]

theorem dirnameScan_ge {offset : ℕ} : ∀ {i : ℕ} {m : Bool} {e : ℕ},
    dirnameScan path offset i m = some e → offset ≤ e
  | 0, _, _, h => absurd h (by simp [dirnameScan])
  | i + 1, m, e, h => by
    unfold dirnameScan at h
    split_ifs at h with h0 h1 h2
    · exact dirnameScan_ge h
    · have := some_inj.mp h
      omega
    · exact dirnameScan_ge h

theorem isAbsolute_dirname (h : isAbsolute path) :
    isAbsolute (dirname path) := by
  have hh : path.head? = some '/' := of_decide_eq_true h
  unfold dirname
  rw [if_neg fun h0 => ne_nil_of_isAbsolute h (List.length_eq_zero_iff.mp h0)]
  split_ifs
  · exact h
  · split
    · next e he =>
      split_ifs
      · rfl
      · exact isAbsolute_take h (dirnameScan_ge he)
    · rfl

/-! ### Steps that do not see the current directory -/

/-- A step that does not depend on the current directory, and whose results are absolute. -/
structure Fixed (step : Dir → Except ResolveError (Option (List Char))) : Prop where
  congr : ∀ cwd cwd', step cwd = step cwd'
  isAbsolute : ∀ cwd path, step cwd = .ok (some path) → isAbsolute path = true

theorem Fixed.orTry {first second : Dir → Except ResolveError (Option (List Char))}
    (h : Fixed first) (h' : Fixed second) :
    Fixed fun cwd => orTry (first cwd) (second cwd) where
  congr := fun cwd cwd' => by rw [h.congr cwd cwd', h'.congr cwd cwd']
  isAbsolute := fun cwd path hp => by
    unfold Resolver.orTry at hp
    split at hp
    · next path' hf => exact h.isAbsolute cwd path (hf.trans hp)
    · exact h'.isAbsolute cwd path hp
    · cases hp

theorem Fixed.continueOnUnresolved {step : Dir → Except ResolveError (Option (List Char))}
    (h : Fixed step) : Fixed fun cwd => continueOnUnresolved (step cwd) where
  congr := fun cwd cwd' => by rw [h.congr cwd cwd']
  isAbsolute := fun cwd path hp => by
    unfold Resolver.continueOnUnresolved at hp
    split at hp
    · cases hp
    · exact h.isAbsolute cwd path hp

theorem Fixed.error (e : ResolveError) : Fixed fun _ => .error e where
  congr := fun _ _ => rfl
  isAbsolute := nofun

section Steps

variable (env : Env) {dirs : List (List Char)} {x base : List Char} (cwd cwd' : Dir)

theorem closestScope_spec (h : ∀ dir ∈ dirs, isAbsolute dir) :
    closestScope env cwd dirs = closestScope env cwd' dirs ∧
      ∀ path ∈ closestScope env cwd' dirs, isAbsolute path := by
  induction dirs with
  | nil => exact ⟨rfl, nofun⟩
  | cons dir dirs ih =>
    obtain ⟨hdir, h⟩ := List.forall_mem_cons.mp h
    have hj := isAbsolute_join hdir "package.json".toList
    unfold closestScope
    rw [isFile_congr env cwd cwd' hj, (ih h).1]
    split_ifs
    · exact ⟨rfl, nofun⟩
    · exact ⟨rfl, fun _ hp => some_inj.mp hp ▸ hj⟩
    · exact ⟨rfl, (ih h).2⟩

variable {y : List Char}

theorem findScope_spec (hx : isAbsolute x) :
    findTheClosestPackageScope env cwd x = findTheClosestPackageScope env cwd' x ∧
      ∀ path ∈ findTheClosestPackageScope env cwd' x, isAbsolute path := by
  unfold findTheClosestPackageScope
  rw [isFile_congr env cwd cwd' hx]
  split_ifs
  · cases hp : StdPath.parent x with
    | none => exact ⟨rfl, nofun⟩
    | some dir =>
      have hdir := isAbsolute_parent hx hp
      dsimp only
      rw [if_neg (ne_nil_of_isAbsolute hdir), if_neg (ne_nil_of_isAbsolute hdir)]
      exact closestScope_spec env cwd cwd' (isAbsolute_ancestors hdir)
  · exact closestScope_spec env cwd cwd' (isAbsolute_ancestors hx)

theorem parsePackageJson_congr (h : isAbsolute path) :
    parsePackageJson env cwd path = parsePackageJson env cwd' path := by
  unfold parsePackageJson locate
  rw [if_pos h, if_pos h]

theorem checkScope_congr (h : isAbsolute x) : checkScope env cwd x = checkScope env cwd' x := by
  obtain ⟨hs, ha⟩ := findScope_spec env cwd cwd' h
  unfold checkScope
  rw [hs]
  cases hc : findTheClosestPackageScope env cwd' x with
  | none => rfl
  | some path =>
    dsimp only
    rw [parsePackageJson_congr env cwd cwd' (ha path hc)]

section

variable (hx : isAbsolute x)

include hx

theorem tryExtensions_fixed (hb : isAbsolute base) (exts : List (List Char)) :
    Fixed fun cwd => tryExtensions env cwd x base exts := by
  induction exts with
  | nil => exact ⟨fun _ _ => rfl, fun _ _ h => absurd h (by simp [tryExtensions])⟩
  | cons ext exts ih =>
    have hf := isAbsolute_append_right hb ext
    constructor
    · intro cwd cwd'
      unfold tryExtensions
      rw [isFile_congr env cwd cwd' hf, checkScope_congr env cwd cwd' hx, ih.congr cwd cwd']
    · intro cwd path hp
      unfold tryExtensions at hp
      split_ifs at hp
      · obtain ⟨_, _, ⟨⟩⟩ := map_eq_ok.mp hp
        exact hf
      · exact ih.isAbsolute cwd path hp

theorem tryBase_fixed (hb : isAbsolute base) : Fixed fun cwd => tryBase env cwd x base := by
  have hf := isAbsolute_append_right hb ".json".toList
  have hjson : Fixed fun cwd => (.ok (if isFile env cwd (base ++ ".json".toList) then
      some (base ++ ".json".toList) else none) : Except ResolveError (Option (List Char))) := by
    constructor
    · intro cwd cwd'
      rw [isFile_congr env cwd cwd' hf]
    · intro cwd path hp
      split_ifs at hp
      · obtain rfl : base ++ ".json".toList = path := by simpa using hp
        exact hf
      · cases hp
  unfold tryBase
  cases extensionCandidates env with
  | error e => exact Fixed.error e
  | ok exts => exact (tryExtensions_fixed env hx hb exts).orTry hjson

theorem loadAsFile_fixed : Fixed fun cwd => loadAsFile env cwd x := by
  have hb := tryBase_fixed env hx hx
  constructor
  · intro cwd cwd'
    unfold loadAsFile
    rw [isFile_congr env cwd cwd' hx, hb.congr cwd cwd']
  · intro cwd path hp
    unfold loadAsFile at hp
    split_ifs at hp
    · obtain rfl : x = path := by simpa using hp
      exact hx
    · exact hb.isAbsolute cwd path hp

theorem loadIndex_fixed : Fixed fun cwd => loadIndex env cwd x :=
  tryBase_fixed env hx (isAbsolute_append_right hx _)

omit hx in
theorem packageMain_congr (hx : isAbsolute x) : packageMain env cwd x = packageMain env cwd' x := by
  have hp := isAbsolute_append_right hx "/package.json".toList
  unfold packageMain
  rw [isFile_congr env cwd cwd' hp, parsePackageJson_congr env cwd cwd' hp]

theorem loadMain_fixed (main : List Char) : Fixed fun cwd => loadMain env cwd x main := by
  have hm : isAbsolute (x ++ ['/'] ++ main) :=
    isAbsolute_append_right (isAbsolute_append_right hx _) _
  exact (loadAsFile_fixed env hm).continueOnUnresolved.orTry
    ((loadIndex_fixed env hm).continueOnUnresolved.orTry (Fixed.error _))

theorem loadAsDirectory_fixed : Fixed fun cwd => loadAsDirectory env cwd x := by
  have hi := (loadIndex_fixed env hx).continueOnUnresolved
  constructor
  · intro cwd cwd'
    unfold loadAsDirectory
    rw [packageMain_congr env cwd cwd' hx]
    cases packageMain env cwd' x with
    | error e => rfl
    | ok main =>
      cases main with
      | none => exact hi.congr cwd cwd'
      | some main => exact (loadMain_fixed env hx main).congr cwd cwd'
  · intro cwd path hp
    obtain ⟨main, -, hp⟩ := bind_eq_ok.mp hp
    cases main with
    | none => exact hi.isAbsolute cwd path hp
    | some main => exact (loadMain_fixed env hx main).isAbsolute cwd path hp

end

/-! ### The directory of the importing file -/

theorem isAbsolute_render (dir : List (List Char)) : isAbsolute (render dir) := by
  cases dir with
  | nil => rfl
  | cons n dir => exact isAbsolute_trail n dir

theorem resolvePath_congr {p : List Char} (h : isAbsolute p) :
    resolvePath cwd [p] = resolvePath cwd' [p] := by
  rw [resolvePath_absolute cwd h, resolvePath_absolute cwd' h]

theorem dirnameY_congr (hy : isAbsolute y) : dirnameY env cwd y = dirnameY env cwd' y := by
  unfold dirnameY
  rw [isDir_congr env cwd cwd' hy, resolvePath_congr cwd cwd' hy,
    resolvePath_congr cwd cwd' (isAbsolute_dirname hy)]

theorem isAbsolute_dirnameY (cwd : Dir) (hy : isAbsolute y) :
    isAbsolute (dirnameY env cwd y) := by
  unfold dirnameY
  split_ifs
  · rw [resolvePath_absolute cwd hy]
    exact isAbsolute_render _
  · rw [resolvePath_absolute cwd (isAbsolute_dirname hy)]
    exact isAbsolute_render _

theorem yPlusX_congr (x : List Char) (hy : isAbsolute y) :
    yPlusX env cwd x y = yPlusX env cwd' x y := by
  unfold yPlusX
  rw [dirnameY_congr env cwd cwd' hy]

theorem isAbsolute_yPlusX (cwd : Dir) (x : List Char) (hy : isAbsolute y) :
    isAbsolute (yPlusX env cwd x y) := by
  have hd := isAbsolute_dirnameY env cwd hy
  unfold yPlusX
  split_ifs with hx
  · exact hx
  all_goals exact isAbsolute_append_right (isAbsolute_append_right hd _) _

/-- **The steps for a path** do not depend on the current directory. -/
theorem viaPath_congr (x : List Char) (hy : isAbsolute y) :
    viaPath env cwd x y = viaPath env cwd' x y := by
  have ha := isAbsolute_yPlusX env cwd' x hy
  have hfix := (loadAsFile_fixed env ha).continueOnUnresolved.orTry
    (loadAsDirectory_fixed env ha).continueOnUnresolved
  have hc := hfix.congr cwd cwd'
  unfold viaPath
  rw [yPlusX_congr env cwd cwd' x hy, hc]
  cases hr : orTry (continueOnUnresolved (loadAsFile env cwd' (yPlusX env cwd' x y)))
      (continueOnUnresolved (loadAsDirectory env cwd' (yPlusX env cwd' x y))) with
  | error e => rfl
  | ok path =>
    cases path with
    | none => rfl
    | some path =>
      have hp := hfix.isAbsolute cwd' path hr
      show Except.ok (toAbsPath cwd path) = Except.ok (toAbsPath cwd' path)
      unfold toAbsPath
      rw [if_pos hp, if_pos hp]

theorem followLink_congr (hy : isAbsolute y) : followLink env cwd y = followLink env cwd' y := by
  unfold followLink locate
  rw [if_pos hy, if_pos hy]

theorem isAbsolute_followLink (cwd : Dir) (hy : isAbsolute y) :
    isAbsolute (followLink env cwd y) := by
  unfold followLink
  split
  · split_ifs with h
    · exact h
    · exact isAbsolute_append_right (isAbsolute_append_right hy _) _
  · exact hy

end Steps

/-! ### The fast paths -/

theorem trail_append_singleton (dir : List (List Char)) (n : List Char) :
    trail (dir ++ [n]) = '/' :: n ++ trail dir := by
  induction dir with
  | nil => simp [trail]
  | cons m dir ih =>
    rw [List.cons_append, trail, ih]
    simp [trail]

/-- A part that stays below the first name of a directory gives a path that starts with it. -/
theorem resolvePath_deep (c : Char) (hc : IsName [c]) (k : ℕ) {p : List Char}
    (hp : isAbsolute p = false) (hu : (normal (moves p)).1 < k) :
    (resolvePath (deepDir c hc k) [p])[1]? = some c := by
  have hlen : (deepDir c hc k).names.length = k := List.length_replicate
  rw [resolvePath_relative _ hp (by rw [hlen]; exact hu), walk_eq]
  show (render (_ ++ (List.replicate k [c]).drop _))[1]? = some c
  obtain ⟨m, hm⟩ : ∃ m, k - (normal (moves p)).1 = m + 1 := ⟨k - (normal (moves p)).1 - 1, by omega⟩
  rw [List.drop_replicate, hm, List.replicate_succ', ← List.append_assoc]
  unfold render
  rw [if_neg (by simp), trail_append_singleton]
  rfl

/-- A specifier that starts with `./` or `../`. -/
def IsRelative (x : List Char) : Prop :=
  ['.', '/'].isPrefixOf x = true ∨ ['.', '.', '/'].isPrefixOf x = true

instance (x : List Char) : Decidable (IsRelative x) :=
  inferInstanceAs (Decidable (['.', '/'].isPrefixOf x = true ∨ ['.', '.', '/'].isPrefixOf x = true))

variable {x : List Char}

section

variable (h : IsRelative x)

include h

theorem IsRelative.head : x.head? = some '.' := by
  rcases h with h | h
  all_goals
    obtain ⟨t, rfl⟩ := List.isPrefixOf_iff_prefix.mp h
    rfl

theorem IsRelative.isAbsolute : isAbsolute x = false := by
  unfold Lexical.isAbsolute
  rw [h.head]
  decide

theorem IsRelative.startsWithSep : startsWithSep x = false := by
  unfold Path.startsWithSep
  rw [h.head]
  decide

theorem IsRelative.trimmed : trimmed x = x := by
  have hx := h.head
  have hs : trimStartMatches "file://".toList x.length x = x := by
    cases x with
    | nil => rfl
    | cons c x =>
      cases hx
      rfl
  unfold Resolver.trimmed
  rw [hs, if_neg (by simp [hx])]

theorem IsRelative.isPath :
    startsWithCurrentDir x ∨ Lexical.isAbsolute x ∨ startsWithParentDir x := by
  rcases h with h | h
  · exact .inl h
  · refine .inr (.inr ?_)
    obtain ⟨s, rfl⟩ := List.isPrefixOf_iff_prefix.mp h
    rfl

/-- The normalized specifier is relative, and does not climb. -/
theorem IsRelative.normalize :
    Lexical.isAbsolute (normalize x) = false ∧ (normal (moves (Path.normalize x))).1 = 0 := by
  obtain ⟨hm, ha⟩ := joinPath_spec [x]
  unfold Path.normalize
  rw [hm, ha, normal_map_down]
  refine ⟨decide_eq_false ?_, rfl⟩
  rw [rooted_singleton, h.startsWithSep]
  decide

end

variable {env : Env} {t : List Char}

/-- What the fast paths find is resolved in the current directory. -/
theorem fastPath_cases {cwd : Dir} (hx : IsRelative x) (h : fastPath env cwd x = some t) :
    t = resolvePath cwd [x] ∨ t = resolvePath cwd [normalize x] := by
  have hn : toAbsPath cwd x = resolvePath cwd [x] := if_neg (by simp [hx.isAbsolute])
  have hn' : toAbsPath cwd (normalize x) = resolvePath cwd [normalize x] :=
    if_neg (by simp [hx.normalize.1])
  unfold fastPath at h
  rw [hn, hn'] at h
  split_ifs at h
  · exact .inl (some_inj.mp h).symm
  · exact .inr (some_inj.mp h).symm

/-- The fast paths find nothing in one deep directory that they find in another. -/
theorem fastPath_deep (hx : IsRelative x) (c : Char) (hc : IsName [c])
    (h : fastPath env (deepDir c hc ((normal (moves x)).1 + 1)) x = some t) : t[1]? = some c := by
  rcases fastPath_cases hx h with rfl | rfl
  · exact resolvePath_deep c hc _ hx.isAbsolute (Nat.lt_succ_self _)
  · refine resolvePath_deep c hc _ hx.normalize.1 ?_
    rw [hx.normalize.2]
    exact Nat.succ_pos _

/-! ### Independence -/

/-- A current directory that a step does not see. -/
def rootDir : Dir := ⟨[], nofun⟩

/-- What the hook returns for a relative specifier. -/
def hookedPath (env : Env) (x y : List Char) : Option (List Char) :=
  env.hooked.bind fun hook => hook x (followLink env rootDir y)

/-- What the directory of the importing file gives. -/
def fromDirectory (env : Env) (x y : List Char) : Except ResolveError (List Char) :=
  viaPath env rootDir x (followLink env rootDir y)

section Relative

variable (bare : Env → Dir → List Char → List Char → Except ResolveError (List Char)) (env : Env)
  {y : List Char}

section

variable (hx : IsRelative x) (hy : isAbsolute y) (hh : hookedPath env x y = none)

include hx hy hh

omit hh in
theorem requireResolve_hooked (hh : hookedPath env x y = some path) (cwd : Dir) :
    requireResolve bare env cwd x y = .ok path := by
  unfold requireResolve
  dsimp only
  unfold hookedPath at hh
  rw [hx.trimmed, followLink_congr env cwd rootDir hy, hh]

theorem requireResolve_relative (cwd : Dir) : requireResolve bare env cwd x y =
      (fastPath env cwd x).elim (fromDirectory env x y) .ok := by
  have hf := isAbsolute_followLink env rootDir hy
  unfold requireResolve
  dsimp only
  unfold hookedPath at hh
  rw [hx.trimmed, followLink_congr env cwd rootDir hy, hh, if_pos hx.isPath,
    if_neg (by simp [hx.isAbsolute]), viaPath_congr env cwd rootDir x hf]
  cases fastPath env cwd x <;> rfl

/-- If no two current directories differ, the fast paths add nothing. -/
theorem fastPath_eq_of_congr
    (h : ∀ cwd cwd', requireResolve bare env cwd x y = requireResolve bare env cwd' x y) {cwd : Dir}
    (hp : fastPath env cwd x = some path) :
    fromDirectory env x y = .ok path := by
  by_contra hne
  -- every current directory gives the path, and then from the fast paths
  have hall (cwd' : Dir) : fastPath env cwd' x = some path := by
    have hc := h cwd' cwd
    rw [requireResolve_relative bare env hx hy hh,
      requireResolve_relative bare env hx hy hh, hp] at hc
    cases hf : fastPath env cwd' x with
    | none =>
      rw [hf] at hc
      exact absurd hc hne
    | some path' =>
      rw [hf] at hc
      exact congrArg some (Except.ok.inj hc)
  have hd := fastPath_deep hx 'd' (by decide) (hall _)
  have he := fastPath_deep hx 'e' (by decide) (hall _)
  rw [hd] at he
  cases he

end

/-- **Independence**: a relative specifier of an absolute file is resolved alike in every current
directory exactly when the hook resolves it, or when whatever the fast paths find in a current
directory is what the directory of the file gives. -/
theorem requireResolve_independent_iff (hx : IsRelative x) (hy : isAbsolute y = true) :
    (∀ cwd cwd', requireResolve bare env cwd x y = requireResolve bare env cwd' x y) ↔
      hookedPath env x y ≠ none ∨
        ∀ cwd path, fastPath env cwd x = some path → fromDirectory env x y = .ok path := by
  cases hh : hookedPath env x y with
  | some path =>
    refine ⟨fun _ => .inl (by simp), fun _ cwd cwd' => ?_⟩
    rw [requireResolve_hooked bare env hx hy hh, requireResolve_hooked bare env hx hy hh]
  | none =>
    constructor
    · exact fun h => .inr fun cwd path hp => fastPath_eq_of_congr bare env hx hy hh h hp
    · intro h cwd cwd'
      have hfast := h.resolve_left fun h => h rfl
      have key (cwd : Dir) : requireResolve bare env cwd x y = fromDirectory env x y := by
        rw [requireResolve_relative bare env hx hy hh]
        cases hf : fastPath env cwd x with
        | none => rfl
        | some path => exact (hfast cwd path hf).symm
      rw [key cwd, key cwd']

end Relative

/-- The files `/p/foo.js` and `/q/foo.js`, and the directories `/p` and `/q`. -/
def twoDirs : Env where
  fs :=
    { isFile := fun t => place [] t ∈
        [["foo.js".toList, "p".toList], ["foo.js".toList, "q".toList]]
      isDir := fun t => place [] t ∈ [["p".toList], ["q".toList]]
      readLink := fun _ => none
      read := fun _ => .error [] }
  parseJson := fun _ => none
  registered := .ok []
  hooked := none
  isEsm := false

def notFound (_ : Env) (_ : Dir) (x y : List Char) : Except ResolveError (List Char) :=
  .error (.resolving y x)

/-- A specifier without an extension is resolved alike in `/p` and in `/q`. -/
theorem requireResolve_independent_plain :
    requireResolve notFound twoDirs ⟨["p".toList], by decide⟩ "./foo".toList "/p/main.js".toList =
      requireResolve notFound twoDirs ⟨["q".toList], by decide⟩ "./foo".toList
        "/p/main.js".toList := by
  refine (requireResolve_independent_iff notFound twoDirs (by decide) (by decide)).mpr (.inr ?_) _ _
  intro cwd path hp
  have hnone : fastPath twoDirs cwd "./foo".toList = none := by
    have hext : isSupportedExt (extname "./foo".toList) = false := by decide
    unfold fastPath
    rw [hext, if_neg (by simp), if_neg (by simp)]
  cases hnone.symm.trans hp

/-- `require("./foo.js")` in `/p/main.js` is `/q/foo.js` if the process runs in `/q`. -/
theorem requireResolve_sees_cwd :
    requireResolve notFound twoDirs ⟨["p".toList], by decide⟩
        "./foo.js".toList "/p/main.js".toList =
        .ok "/p/foo.js".toList ∧
      requireResolve notFound twoDirs ⟨["q".toList], by decide⟩ "./foo.js".toList
        "/p/main.js".toList = .ok "/q/foo.js".toList := by
  decide

end RasterRuntime.Resolver
