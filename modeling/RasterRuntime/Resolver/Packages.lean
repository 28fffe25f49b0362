import Mathlib.Algebra.GroupWithZero.Nat
import RasterRuntime.NodeModules.Collect
import RasterRuntime.Resolver.Model

/-! # Resolving a bare specifier

The steps of `require_resolve` for a specifier that is not a path: the imports and the exports of
the package that the importing file is in, then the `node_modules` directories on the way to the
root and those of the home directory, and at last the specifier as a file of the current directory.

* `packageExportsResolve`, `packageImportsResolve`: the target that a `package.json` names.
* `searchNodeModulesDir`: a specifier in one `node_modules` directory. What is found there by the
  name of a file or of a directory is not normalized, unlike the other results.
* `bare`: the steps together. -/

namespace RasterRuntime.Resolver

open Lexical Path

/-! ### `package.json` -/

/-- A parsed `package.json`. -/
inductive Json
  | null
  | string (text : List Char)
  | object (fields : List (List Char × Json))
  | other

namespace Json

def get (key : List Char) : Json → Option Json
  | .object fields => (fields.find? (·.1 = key)).map Prod.snd
  | _ => none

/-- The value behind keys. -/
def lookup (json : Json) (keys : List (List Char)) : Option Json :=
  keys.foldlM (fun value key => value.get key) json

/-- The text behind keys, if it is one. -/
def textAt (json : Json) (keys : List (List Char)) : Option (List Char) :=
  match json.lookup keys with
  | some (.string text) => some text
  | _ => none

def isObject : Json → Bool
  | .object _ => true
  | _ => false

end Json

/-- What the steps for bare specifiers depend on in addition. -/
structure Packages where
  /-- The parser for `package.json`. -/
  json : List UInt8 → Option Json
  /-- `HOME_NODE_MODULES`. -/
  home : List (List Char)
  /-- `RASTER_RUNTIME_PLATFORM`. -/
  platform : List Char
  /-- `NODE_MODULES_PATHS_CACHE`. -/
  cache : NodeModules.Cache

/-- `has_exports_field`. -/
def hasExportsField (json : Json) : Bool :=
  match json.get "exports".toList with
  | none => false
  | some .null => false
  | some _ => true

/-- `is_exports_field_exists`. -/
def isExportsFieldExists (json : Json) : Bool :=
  (json.get "exports".toList).any Json.isObject

/-! ### Names -/

/-- The position of the `n`-th separator from the end. -/
def sepFromEnd (x : List Char) : ℕ → Option ℕ
  | 0 => some x.length
  | n + 1 => (sepFromEnd x n).bind fun p => rfind '/' (x.take p)

structure NameAndScope where
  name : List Char
  scope : List Char
  isLast : Bool

def getNameAndScope (x : List Char) (n : ℕ) : NameAndScope :=
  match sepFromEnd x n with
  | some pos => ⟨x.drop (pos + 1), x.take pos, false⟩
  | none => ⟨['.'], x, true⟩

/-- The ways to cut a specifier into a package and a path in it, the longest package first. -/
def splits (x : List Char) : List NameAndScope :=
  (List.range (x.length + 1)).map fun i => getNameAndScope x (i + 1)

/-- The number of bytes of a text. -/
def byteLength (s : List Char) : ℕ := (s.map Char.utf8Size).sum

def replaceStar (scope name : List Char) : List Char :=
  scope.flatMap fun c => if c = '*' then name else [c]

/-! ### Targets -/

section Targets

variable (platform : List Char) (isEsm : Bool)

/-- The condition under which a module is loaded. -/
def conditionOf : List Char := if isEsm then "import".toList else "require".toList

/-- The target in an object of conditions. -/
def conditionTarget (o : Json) : Option (List Char) :=
  o.textAt [platform, conditionOf isEsm] <|> o.textAt [conditionOf isEsm, "default".toList] <|>
    o.textAt [platform] <|> o.textAt [conditionOf isEsm] <|> o.textAt ["default".toList]

/-- The key of a pattern for a name, and the text that its star stands for. The position of a
separator is taken for a number of separators. -/
def wildcardOf (name : List Char) : Option (List Char × List Char) :=
  (sepFromEnd name 2).map fun pos =>
    let split := getNameAndScope name (byteLength (name.take pos))
    (split.scope ++ "/*".toList, split.name)

/-- The target that `exports` names for a module. -/
def exportsTarget (exports : Json) (name : List Char) : Option (List Char) :=
  exports.textAt [name] <|> (exports.get name).bind (conditionTarget platform isEsm) <|>
    ((wildcardOf name).bind fun (key, star) =>
      ((exports.get key).bind (conditionTarget platform isEsm)).map (replaceStar · star)) <|>
    exports.textAt [conditionOf isEsm, "default".toList] <|> exports.textAt [conditionOf isEsm] <|>
    if isEsm then none else exports.textAt ["default".toList]

/-- The target that the other fields name. -/
def fieldsTarget (json : Json) : Option (List Char) :=
  json.textAt [platform] <|> (if isEsm then json.textAt ["module".toList] else none) <|>
    json.textAt ["main".toList]

/-- `package_exports_resolve`: the target, and whether it is a CommonJS module. -/
def packageExportsResolve (json : Json) (name : List Char) : List Char × Bool :=
  let name := if name = ['.'] then name else "./".toList ++ name
  let target :=
    (if name = ['.'] then json.textAt ["exports".toList] else none) <|>
      (json.get "exports".toList).bind (exportsTarget platform isEsm · name) <|>
      fieldsTarget platform isEsm json
  match target with
  | some path => (path, json.textAt ["type".toList] ≠ some "module".toList)
  | none => ("./index.js".toList, true)

/-- `package_imports_resolve`. -/
def packageImportsResolve (json : Json) (name : List Char) : Option (List Char) :=
  (json.get "imports".toList).bind fun imports =>
    imports.textAt [name, platform] <|> imports.textAt [name, "require".toList] <|>
      imports.textAt [name, "module-sync".toList] <|> imports.textAt [name, "default".toList] <|>
      imports.textAt [name]

end Targets

/-! ### Packages -/

section Packages

variable (pkgs : Packages) (env : Env) (cwd : Dir)

/-- `Path::exists`. -/
def pathExists (path : List Char) : Bool := isFile env cwd path || isDir env cwd path

/-- `parse_package_json` with all fields. -/
def parseJson (path : List Char) : Except ResolveError Json :=
  match env.fs.read (locate cwd path) with
  | .error source =>
    .error (.thrown
      ("Invalid package config ".toList ++ path ++ " (".toList ++ source ++ ").".toList))
  | .ok bytes =>
    match pkgs.json bytes with
    | some json => .ok json
    | none => .error (.thrown ("Invalid package config ".toList ++ path ++ ".".toList))

def correctExtensions (x : List Char) : Except ResolveError (List Char) :=
  if isFile env cwd x then .ok x
  else do
    let base := x ++ if isDir env cwd x then "/index".toList else []
    let exts ← extensionCandidates env
    return (((exts.map (base ++ ·)).find? (isFile env cwd)).getD x)

def cjsLoaderPrefix : List Char := "__cjsm:".toList

/-- A CommonJS module of a package; an import of it is marked. -/
def markCjs (isCjs : Bool) (path : List Char) : List Char :=
  if isCjs && env.isEsm then cjsLoaderPrefix ++ path else path

/-- `JS_EXTENSIONS`. -/
def jsExtensions : List (List Char) := [".js".toList, ".mjs".toList, ".cjs".toList, ".node".toList]

/-- The file of a package that has the name of the path in it, with an extension. -/
def subModule (dir : List Char) (split : NameAndScope) : Option (List Char × List Char) :=
  let name := split.name.dropWhile (· = '.')
  let base := dir ++ ['/'] ++ split.scope ++ if name = [] then [] else '/' :: name
  (jsExtensions.find? fun ext => pathExists env cwd (base ++ ext)).map fun ext => (base ++ ext, ext)

/-- The last part of `load_package_exports`: the package is found. -/
def fromPackage (x dir scope name : List Char) (sub : Option (List Char)) :
    Except ResolveError (List Char) :=
  let packageJson := dir ++ ['/'] ++ scope ++ "/package.json".toList
  if ¬ isFile env cwd packageJson then .error (.resolving dir x)
  else do
    let json ← parseJson pkgs env cwd packageJson
    match sub with
    | some path =>
      if json.textAt ["type".toList] ≠ some "module".toList then
        .ok (markCjs env true (toAbsPath cwd path))
      else .ok path
    | none =>
      if name ≠ ['.'] ∧ ¬ hasExportsField json then .error (.resolving dir x)
      else
        let (path, isCjs) := packageExportsResolve pkgs.platform env.isEsm json name
        let path ← correctExtensions env cwd (dir ++ ['/'] ++ scope ++ ['/'] ++ path)
        .ok (markCjs env isCjs (toAbsPath cwd path))

def loadPackageExports (x dir : List Char) : Except ResolveError (List Char) :=
  let found (scope : List Char) : Bool :=
    pathExists env cwd (dir ++ ['/'] ++ scope ++ "/package.json".toList)
  let split :=
    ((splits x).find? fun split => found split.scope || split.isLast).getD ⟨['.'], x, true⟩
  if found split.scope then
    match subModule env cwd dir split with
    | some (path, ext) =>
      if ext = ".mjs".toList then .ok path
      else fromPackage pkgs env cwd x dir split.scope split.name (some path)
    | none => fromPackage pkgs env cwd x dir split.scope split.name none
  else if split.name ≠ ['.'] ∧ found x then fromPackage pkgs env cwd x dir x ['.'] none
  else .error (.resolving dir x)

/-- The directory of a `package.json`, with a separator behind it. -/
def scopeDir (path : List Char) : List Char :=
  (trimStartMatches "package.json".toList.reverse path.length path.reverse).reverse

def loadPackageSelf (x dir : List Char) : Except ResolveError (Option (List Char)) :=
  match findTheClosestPackageScope env cwd dir with
  | none => .ok none
  | some path => do
    let json ← parseJson pkgs env cwd path
    let own (split : NameAndScope) : Bool :=
      isExportsFieldExists json && json.textAt ["name".toList] == some split.scope
    match (splits x).find? own with
    | none => .ok none
    | some split =>
      let target := (packageExportsResolve pkgs.platform env.isEsm json split.name).1
      return some (← correctExtensions env cwd (scopeDir path ++ target))

def loadPackageImports (x dir : List Char) : Except ResolveError (Option (List Char)) :=
  match findTheClosestPackageScope env cwd dir with
  | none => .ok none
  | some path => do
    let json ← parseJson pkgs env cwd path
    match packageImportsResolve pkgs.platform json x with
    | none => .ok none
    | some target =>
      return some (toAbsPath cwd (← correctExtensions env cwd (scopeDir path ++ target)))

/-- `search_node_modules_dir`. -/
def searchNodeModulesDir (x dir : List Char) : Except ResolveError (Option (List Char)) :=
  orTry (continueOnUnresolved ((loadPackageExports pkgs env cwd x dir).map some))
    (orTry (continueOnUnresolved (loadAsFile env cwd (dir ++ ['/'] ++ x)))
      (continueOnUnresolved (loadAsDirectory env cwd (dir ++ ['/'] ++ x))))

/-- `load_node_modules`. -/
def loadNodeModules (x start : List Char) : Except ResolveError (Option (List Char)) :=
  let dirs := (NodeModules.collectNodeModulesPaths ⟨isDir env cwd⟩ pkgs.cache start).1
  (dirs ++ pkgs.home).foldr (fun dir rest => orTry (searchNodeModulesDir pkgs env cwd x dir) rest)
    (.ok none)

/-- Steps 4 to 7 of `require_resolve`. -/
def bare (x y : List Char) : Except ResolveError (List Char) := do
  let start := dirnameY env cwd y
  let imported ←
    if x.head? = some '#' then continueOnUnresolved (loadPackageImports pkgs env cwd x start)
    else .ok none
  match imported with
  | some path => .ok path
  | none =>
    match ← continueOnUnresolved (loadPackageSelf pkgs env cwd x start) with
    | some path => .ok (toAbsPath cwd path)
    | none =>
      match ← loadNodeModules pkgs env cwd x start with
      | some path => .ok path
      | none =>
        match loadAsFile env cwd x with
        | .ok (some path) => .ok (toAbsPath cwd path)
        | _ => .error (.resolving y x)

end Packages

end RasterRuntime.Resolver
