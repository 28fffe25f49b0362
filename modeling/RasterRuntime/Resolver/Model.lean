import RasterRuntime.Path.JoinResolve
import RasterRuntime.StdPath

/-! # Resolving a module

`require_resolve` turns a specifier `x` and the file `y` that imports it into the path of a module.
It first trusts its argument: a specifier with a supported extension that is a file is taken as it
is. Otherwise the directory of `y` is put in front of a relative specifier, and the text is tried as
a file, with the extensions and as a directory.

The operating system reads a relative path in the current directory. Here every question to the file
system is about an absolute text, and `locate` puts the current directory in front of a relative
one. The parser for `package.json` and the steps for bare specifiers are parameters. -/

namespace RasterRuntime.Resolver

open Lexical Path

/-! ### The file system and the process -/

/-- The file system, by absolute paths. -/
structure FileSystem where
  isFile : List Char → Bool
  isDir : List Char → Bool
  readLink : List Char → Option (List Char)
  read : List Char → Except (List Char) (List UInt8)

/-- A field of a `package.json`. -/
inductive Field
  | absent
  | string (text : List Char)
  | other

/-- A parsed `package.json`, as far as the resolver reads it. -/
inductive PackageJson
  | object (type main : Field)
  | other

inductive ResolveError
  | resolving (base name : List Char)
  | thrown (message : List Char)
  deriving DecidableEq, Repr

/-- What a run of the resolver depends on besides its arguments and the current directory. -/
structure Env where
  fs : FileSystem
  parseJson : List UInt8 → Option PackageJson
  /-- The keys of `require.extensions` that hold a function. -/
  registered : Except ResolveError (List (List Char))
  hooked : Option (List Char → List Char → Option (List Char))
  isEsm : Bool

/-- The absolute text that a path stands for in the current directory. -/
def locate (cwd : Dir) (path : List Char) : List Char :=
  if isAbsolute path then path else StdPath.join cwd.text path

def isFile (env : Env) (cwd : Dir) (path : List Char) : Bool :=
  path ≠ [] && env.fs.isFile (locate cwd path)

def isDir (env : Env) (cwd : Dir) (path : List Char) : Bool :=
  path ≠ [] && env.fs.isDir (locate cwd path)

/-! ### Texts -/

/-- The scan of `find_dirname_end` from index `i` down. -/
def dirnameScan (path : List Char) (offset : ℕ) : ℕ → Bool → Option ℕ
  | 0, _ => none
  | i + 1, matchedSlash =>
    if i < offset then none
    else if path[i]? = some '/' then
      if matchedSlash then dirnameScan path offset i matchedSlash else some i
    else dirnameScan path offset i false

def findDirnameEnd (path : List Char) (offset : ℕ) : Option ℕ :=
  dirnameScan path offset path.length true

def dirname (path : List Char) : List Char :=
  if path.length = 0 then ['.']
  else if path.length = 1 then
    if path.head? = some '/' then path else ['.']
  else
    match findDirnameEnd path 1 with
    | some e => if path.head? = some '/' ∧ e = 1 then ['/', '/'] else path.take e
    | none => if path.head? = some '/' then ['/'] else ['.']

/-- The index of the last `c`. -/
def rfind (c : Char) : List Char → Option ℕ
  | [] => none
  | d :: s =>
    match rfind c s with
    | some i => some (i + 1)
    | none => if d = c then some 0 else none

/-- The second part of `name_extname`. -/
def extname (path : List Char) : List Char :=
  let path := if endsWithSep path then path.take (path.length - 1) else path
  let name := match findLastSep path with
    | some i => path.drop (i + 1)
    | none => path
  if name.head? = some '.' then []
  else
    match rfind '.' name with
    | some i => name.drop i
    | none => []

/-- `SUPPORTED_EXTENSIONS`. -/
def supportedExtensions : List (List Char) :=
  [".js".toList, ".mjs".toList, ".cjs".toList, ".node".toList, ".lrt".toList]

def isSupportedExt (ext : List Char) : Bool := ext ∈ supportedExtensions

/-- `trim_start_matches`, at most `fuel` times. -/
def trimStartMatches (pat : List Char) : ℕ → List Char → List Char
  | 0, s => s
  | fuel + 1, s =>
    if pat.isPrefixOf s then trimStartMatches pat fuel (s.drop pat.length) else s

/-- The specifier without its schema, and a bare one without separators at its end. -/
def trimmed (x : List Char) : List Char :=
  let x := trimStartMatches "file://".toList x.length x
  if x.head? ≠ some '.' ∧ x.head? ≠ some '/' then (x.reverse.dropWhile (· = '/')).reverse else x

def startsWithCurrentDir (x : List Char) : Bool := ['.', '/'].isPrefixOf x

def startsWithParentDir (x : List Char) : Bool := ['.', '.'].isPrefixOf x

def toAbsPath (cwd : Dir) (path : List Char) : List Char :=
  if isAbsolute path then normalize path else resolvePath cwd [path]

/-! ### Package scopes -/

/-- The loop of `find_the_closest_package_scope`. -/
def closestScope (env : Env) (cwd : Dir) : List (List Char) → Option (List Char)
  | [] => none
  | dir :: dirs =>
    if StdPath.fileName dir = some "node_modules".toList then none
    else if isFile env cwd (StdPath.join dir "package.json".toList) then
      some (StdPath.join dir "package.json".toList)
    else closestScope env cwd dirs

def findTheClosestPackageScope (env : Env) (cwd : Dir) (start : List Char) : Option (List Char) :=
  if isFile env cwd start then
    match StdPath.parent start with
    | some dir => if dir = [] then none else closestScope env cwd (StdPath.ancestors dir)
    | none => none
  else closestScope env cwd (StdPath.ancestors start)

def parsePackageJson (env : Env) (cwd : Dir) (path : List Char) : Except ResolveError PackageJson :=
  match env.fs.read (locate cwd path) with
  | .error source =>
    .error (.thrown
      ("Invalid package config ".toList ++ path ++ " (".toList ++ source ++ ").".toList))
  | .ok bytes =>
    match env.parseJson bytes with
    | some json => .ok json
    | none => .error (.thrown ("Invalid package config ".toList ++ path ++ ".".toList))

def packageTypeField (json : PackageJson) (path : List Char) :
    Except ResolveError (Option (List Char)) :=
  match json with
  | .other => .ok none
  | .object .absent _ => .ok none
  | .object (.string text) _ => .ok (some text)
  | .object .other _ => .error (.thrown ("Invalid package config ".toList ++ path ++ ".".toList))

/-- The `main` field, if it is a string. -/
def mainField : PackageJson → Option (List Char)
  | .object _ (.string text) => some text
  | _ => none

/-- The scope of a file that was found: its `type` is read, but no value of it changes the path. -/
def checkScope (env : Env) (cwd : Dir) (x : List Char) : Except ResolveError Unit :=
  match findTheClosestPackageScope env cwd x with
  | none => .ok ()
  | some path => do
    let json ← parsePackageJson env cwd path
    let _ ← packageTypeField json path
    return ()

/-! ### Files and directories -/

def extensionCandidates (env : Env) : Except ResolveError (List (List Char)) :=
  if env.isEsm then .ok supportedExtensions
  else env.registered.map fun exts => exts ++ supportedExtensions.filter (· ∉ exts)

/-- The loop over the extensions of `load_as_file` and `load_index`. -/
def tryExtensions (env : Env) (cwd : Dir) (x base : List Char) :
    List (List Char) → Except ResolveError (Option (List Char))
  | [] => .ok none
  | ext :: exts =>
    if isFile env cwd (base ++ ext) then (checkScope env cwd x).map fun _ => some (base ++ ext)
    else tryExtensions env cwd x base exts

/-- The first result, or else the second. -/
def orTry (first second : Except ResolveError (Option (List Char))) :
    Except ResolveError (Option (List Char)) :=
  match first with
  | .ok (some path) => .ok (some path)
  | .ok none => second
  | .error e => .error e

/-- What `load_as_file` and `load_index` share. The source tries `.node` after `.json`, but has
given its buffer away by then, so that nothing is tried. -/
def tryBase (env : Env) (cwd : Dir) (x base : List Char) :
    Except ResolveError (Option (List Char)) := do
  let exts ← extensionCandidates env
  orTry (tryExtensions env cwd x base exts)
    (.ok (if isFile env cwd (base ++ ".json".toList) then some (base ++ ".json".toList) else none))

def loadAsFile (env : Env) (cwd : Dir) (x : List Char) : Except ResolveError (Option (List Char)) :=
  if isFile env cwd x then .ok (some x) else tryBase env cwd x x

def loadIndex (env : Env) (cwd : Dir) (x : List Char) : Except ResolveError (Option (List Char)) :=
  tryBase env cwd x (x ++ "/index".toList)

/-- `continue_on_unresolved_option`. -/
def continueOnUnresolved (result : Except ResolveError (Option (List Char))) :
    Except ResolveError (Option (List Char)) :=
  match result with
  | .error (.resolving _ _) => .ok none
  | r => r

/-- A directory whose `package.json` has a `main`. -/
def loadMain (env : Env) (cwd : Dir) (x main : List Char) :
    Except ResolveError (Option (List Char)) :=
  let m := x ++ ['/'] ++ main
  orTry (continueOnUnresolved (loadAsFile env cwd m))
    (orTry (continueOnUnresolved (loadIndex env cwd m)) (.error (.resolving [] x)))

/-- The `main` of a directory, if it has a `package.json` with one. -/
def packageMain (env : Env) (cwd : Dir) (x : List Char) :
    Except ResolveError (Option (List Char)) :=
  if isFile env cwd (x ++ "/package.json".toList) then
    (parsePackageJson env cwd (x ++ "/package.json".toList)).map mainField
  else .ok none

def loadAsDirectory (env : Env) (cwd : Dir) (x : List Char) :
    Except ResolveError (Option (List Char)) := do
  match ← packageMain env cwd x with
  | some main => loadMain env cwd x main
  | none => continueOnUnresolved (loadIndex env cwd x)

/-! ### Resolution -/

/-- A specifier with a supported extension that is a file as it stands, or once normalized. -/
def fastPath (env : Env) (cwd : Dir) (x : List Char) : Option (List Char) :=
  if isSupportedExt (extname x) ∧ isFile env cwd x then some (toAbsPath cwd x)
  else if ¬ startsWithParentDir x ∧ isSupportedExt (extname x) ∧ isFile env cwd (normalize x) then
    some (toAbsPath cwd (normalize x))
  else none

/-- The importing file, behind a link. -/
def followLink (env : Env) (cwd : Dir) (y : List Char) : List Char :=
  match env.fs.readLink (locate cwd y) with
  | some path => if isAbsolute path then path else y ++ "/../".toList ++ path
  | none => y

/-- The directory of the importing file. -/
def dirnameY (env : Env) (cwd : Dir) (y : List Char) : List Char :=
  if isDir env cwd y then resolvePath cwd [y] else resolvePath cwd [dirname y]

/-- The text that a relative or absolute specifier is tried as. -/
def yPlusX (env : Env) (cwd : Dir) (x y : List Char) : List Char :=
  if isAbsolute x then x
  else if startsWithCurrentDir x then dirnameY env cwd y ++ ['/'] ++ x.drop 2
  else dirnameY env cwd y ++ ['/'] ++ x

/-- Step 3: a specifier that is a path. -/
def viaPath (env : Env) (cwd : Dir) (x y : List Char) : Except ResolveError (List Char) := do
  let path ← orTry (continueOnUnresolved (loadAsFile env cwd (yPlusX env cwd x y)))
    (continueOnUnresolved (loadAsDirectory env cwd (yPlusX env cwd x y)))
  match path with
  | some path => .ok (toAbsPath cwd path)
  | none => .error (.resolving y x)

/-- `require_resolve`; `bare` are its steps from 4 on. -/
def requireResolve (bare : Env → Dir → List Char → List Char → Except ResolveError (List Char))
    (env : Env) (cwd : Dir) (x y : List Char) : Except ResolveError (List Char) :=
  let x := trimmed x
  let y := followLink env cwd y
  match env.hooked.bind fun hook => hook x y with
  | some path => .ok path
  | none =>
    match fastPath env cwd x with
    | some path => .ok path
    | none =>
      let y := if isAbsolute x then ['/'] else y
      if startsWithCurrentDir x ∨ isAbsolute x ∨ startsWithParentDir x then viaPath env cwd x y
      else bare env cwd x y

end RasterRuntime.Resolver
