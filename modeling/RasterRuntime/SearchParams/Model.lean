import Mathlib.Data.List.Sort

/-! # The parameters of a query

The parameters are not kept as a list: they are read from the query of the URL, and an operation
writes the query again. What a query is, and how it is read and written, is left to the crate of the
URLs (`Form`); of that crate it is used that the pairs added to a query are read from it after those
that were in it. -/

namespace RasterRuntime.SearchParams

/-- A name and a value. -/
abbrev Pair := String × String

/-- How the pairs of a query of type `Q` are read and written. -/
structure Form (Q : Type) where
  empty : Q
  parse : Q → List Pair
  /-- The query with more pairs. -/
  extend : Q → List Pair → Q
  /-- The path a URL of a scheme has after `set_path`. -/
  setPath : String → String → String
  parse_empty : parse empty = []
  parse_extend : ∀ q pairs, parse (extend q pairs) = parse q ++ pairs

structure Url (Q : Type) where
  scheme : String
  path : String
  query : Option Q
  fragment : Option String

section

variable {Q : Type} (F : Form Q)

def Url.queryPairs (url : Url Q) : List Pair := F.parse (url.query.getD F.empty)

/-- `query_pairs_mut().clear().extend_pairs(…)`. -/
def Url.setPairs (url : Url Q) (pairs : List Pair) : Url Q :=
  { url with query := some (F.extend F.empty pairs) }

def convertTrailingSpace (url : Url Q) : Url Q :=
  if url.scheme ∈ ["file", "ftp", "http", "https", "ws", "wss"] then url
  else if url.path.toList.getLast? = some ' ' ∧ (url.fragment.isSome ∨ url.query.isSome) then
    let path := String.ofList (url.path.toList.dropLast ++ "%20".toList)
    { url with path := F.setPath url.scheme path }
  else url

/-! ### The methods that read -/

def size (url : Url Q) : ℕ := (url.queryPairs F).length

def get (url : Url Q) (key : String) : Option String :=
  ((url.queryPairs F).find? (·.1 = key)).map Prod.snd

def getAll (url : Url Q) (key : String) : List String :=
  (url.queryPairs F).filterMap fun (k, v) => if k = key then some v else none

/-- Whether a pair has the name, and the value if one is given. -/
def matchesPair (key : String) (value : Option String) (pair : Pair) : Bool :=
  match value with
  | some value => pair.1 = key && pair.2 = value
  | none => pair.1 = key

def has (url : Url Q) (key : String) (value : Option String) : Bool :=
  (url.queryPairs F).any (matchesPair key value)

/-! ### The methods that write -/

def append (url : Url Q) (key value : String) : Url Q :=
  let url := convertTrailingSpace F url
  { url with query := some (F.extend (url.query.getD F.empty) [(key, value)]) }

def delete (url : Url Q) (key : String) (value : Option String) : Url Q :=
  let url := convertTrailingSpace F url
  let newPairs := (url.queryPairs F).filter (!matchesPair key value ·)
  if newPairs ≠ [] then url.setPairs F newPairs else { url with query := none }

/-- The pairs `set` has seen, and those it keeps. -/
structure Uniques where
  uniques : List Pair
  newQueryPairs : List Pair

/-- A pair is kept if it is the first of its kind. -/
def Uniques.push (s : Uniques) (pair : Pair) : Uniques :=
  if pair ∈ s.uniques then s else ⟨pair :: s.uniques, s.newQueryPairs ++ [pair]⟩

/-- The pair with the value that is set. -/
def update (key value : String) (pair : Pair) : Pair :=
  (pair.1, if pair.1 = key then value else pair.2)

/-- The loop of `set`. -/
def setLoop (key value : String) : List Pair → Uniques → Uniques
  | [], s => s
  | pair :: pairs, s => setLoop key value pairs (s.push (update key value pair))

def set (url : Url Q) (key value : String) : Url Q :=
  let url := convertTrailingSpace F url
  let s := setLoop key value (url.queryPairs F) ⟨[], []⟩
  url.setPairs F (s.push (key, value)).newQueryPairs

def sort (url : Url Q) : Url Q :=
  let newPairs := (url.queryPairs F).mergeSort fun a b => a.1 ≤ b.1
  if newPairs = [] then { url with query := none } else url.setPairs F newPairs

end

end RasterRuntime.SearchParams
