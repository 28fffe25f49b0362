import RasterRuntime.EsModule.Lexer

/-! # Modules

The module items that generated texts use, with their early errors and their meaning: `const`
declarations of a name or of an object pattern of names, default exports, and export clauses. A text
has a meaning, is refused by every engine, or is outside of this part of the language. -/

namespace RasterRuntime.EsModule

/-- The verdict on a text: what it stands for, that it is an error, or that it is not described
here. -/
inductive Verdict (α : Type)
  | ok (a : α)
  | error
  | unsupported
  deriving DecidableEq, Repr

def Verdict.bind {α β : Type} : Verdict α → (α → Verdict β) → Verdict β
  | .ok a, f => f a
  | .error, _ => .error
  | .unsupported, _ => .unsupported

inductive Expr
  | ident (x : List Char)
  | member (e : Expr) (key : List Char)
  | call (e : Expr) (argument : List Char)
  | or (e e' : Expr)
  deriving DecidableEq, Repr

inductive Item
  | const (x : List Char) (e : Expr)
  | pattern (xs : List (List Char)) (e : Expr)
  | exportDefault (e : Expr)
  | exportNames (xs : List (List Char))
  deriving DecidableEq, Repr

/-- The words that cannot be bound in a module, whose code is strict. -/
def reservedWords : List (List Char) :=
  ["await", "break", "case", "catch", "class", "const", "continue", "debugger", "default", "delete",
    "do", "else", "enum", "export", "extends", "false", "finally", "for", "function", "if",
    "import", "in", "instanceof", "new", "null", "return", "super", "switch", "this", "throw",
    "true", "try", "typeof",
    "var", "void", "while", "with", "yield", "let", "static", "implements", "interface", "package",
    "private", "protected", "public", "eval", "arguments"].map String.toList

/-! ### Parsing -/

/-- The names behind an opening brace, up to the closing one. -/
def names : List Token → Verdict (List (List Char) × List Token)
  | .punct '}' :: ts => .ok ([], ts)
  | .word w :: .punct ',' :: ts =>
    if w ∈ reservedWords then .error else (names ts).bind fun (ws, ts) => .ok (w :: ws, ts)
  | .word w :: .punct '}' :: ts => if w ∈ reservedWords then .error else .ok ([w], ts)
  | _ => .unsupported

/-- An expression up to the semicolon: the alternatives on its left, and the operand so far. -/
def expr (left : Option Expr) (e : Expr) : List Token → Verdict (Expr × List Token)
  | .punct '.' :: .word w :: ts => expr left (.member e w) ts
  | .punct '(' :: .str s :: .punct ')' :: ts => expr left (.call e s) ts
  | .or :: .word w :: ts =>
    if w ∈ reservedWords then .unsupported
    else expr (some (left.elim e fun l => .or l e)) (.ident w) ts
  | .punct ';' :: ts => .ok (left.elim e fun l => .or l e, ts)
  | _ => .unsupported

/-- An expression that begins with a name. -/
def exprFrom : List Token → Verdict (Expr × List Token)
  | .word w :: ts => if w ∈ reservedWords then .unsupported else expr none (.ident w) ts
  | _ => .unsupported

/-- A declaration behind `const`. Only a name or a pattern can follow. -/
def constItem : List Token → Verdict (Item × List Token)
  | .word x :: .punct '=' :: ts =>
    if x ∈ reservedWords then .error else (exprFrom ts).bind fun (e, ts) => .ok (.const x e, ts)
  | .punct '{' :: ts =>
    (names ts).bind fun
      | (xs, .punct '=' :: ts) => (exprFrom ts).bind fun (e, ts) => .ok (.pattern xs e, ts)
      | _ => .unsupported
  | .punct '}' :: _ => .error
  | _ => .unsupported

/-- A declaration behind `export`. -/
def exportItem : List Token → Verdict (Item × List Token)
  | .word w :: ts =>
    if w = "default".toList then (exprFrom ts).bind fun (e, ts) => .ok (.exportDefault e, ts)
    else .unsupported
  | .punct '{' :: ts =>
    (names ts).bind fun
      | (xs, .punct ';' :: ts) => .ok (.exportNames xs, ts)
      | _ => .unsupported
  | _ => .unsupported

def item : List Token → Verdict (Item × List Token)
  | .word w :: ts =>
    if w = "const".toList then constItem ts
    else if w = "export".toList then exportItem ts
    else .unsupported
  | _ => .unsupported

/-- The items of a text, at most `fuel` of them. -/
def items : ℕ → List Token → Verdict (List Item)
  | _, [] => .ok []
  | 0, _ => .unsupported
  | fuel + 1, ts => (item ts).bind fun (i, ts) => (items fuel ts).bind fun is => .ok (i :: is)

theorem items_of_ok {ts ts' : List Token} {i : Item} (h : item ts = .ok (i, ts')) (fuel : ℕ) :
    items (fuel + 1) ts = (items fuel ts').bind fun is => .ok (i :: is) := by
  cases ts with
  | nil => cases h
  | cons t ts =>
    rw [items, h, Verdict.bind]
    exact nofun

theorem items_of_error {ts : List Token} (h : item ts = .error) (fuel : ℕ) :
    items (fuel + 1) ts = .error := by
  cases ts with
  | nil => cases h
  | cons t ts =>
    rw [items, h, Verdict.bind]
    exact nofun

/-! ### Early errors -/

def Item.declares : Item → List (List Char)
  | .const x _ => [x]
  | .pattern xs _ => xs
  | _ => []

def Item.exportedNames : Item → List (List Char)
  | .exportDefault _ => ["default".toList]
  | .exportNames xs => xs
  | _ => []

def Item.exportedBindings : Item → List (List Char)
  | .exportNames xs => xs
  | _ => []

/-- No name is declared or exported twice, and the exported names are declared. -/
def Early (is : List Item) : Prop :=
  (is.flatMap Item.declares).Nodup ∧ (is.flatMap Item.exportedNames).Nodup ∧
    ∀ x ∈ is.flatMap Item.exportedBindings, x ∈ is.flatMap Item.declares

instance (is : List Item) : Decidable (Early is) := inferInstanceAs (Decidable (_ ∧ _ ∧ _))

/-- The module of a text. -/
def parse (U : Unicode) (text : List Char) : Verdict (List Item) :=
  match lex U text with
  | none => .unsupported
  | some ts => (items ts.length ts).bind fun is => if Early is then .ok is else .error

/-! ### Evaluation -/

/-- What modules are evaluated with: the global `require`, the properties of values and their
truth. -/
structure Realm (V : Type) where
  require : List Char → V
  get : V → List Char → V
  truthy : V → Bool

section Evaluation

variable {V : Type} (realm : Realm V)

/-- The value of an expression: a name that is declared cannot be used before its declaration,
whatever is global under it. -/
def Expr.eval (declared : List (List Char)) (env : List (List Char × V)) : Expr → Verdict V
  | .ident x =>
    if x ∈ declared then
      match env.lookup x with
      | some v => .ok v
      | none => .error
    else .unsupported
  | .member e key => (e.eval declared env).bind fun v => .ok (realm.get v key)
  | .call e argument =>
    match e with
    | .ident f =>
      if f ∈ declared then if (env.lookup f).isNone then .error else .unsupported
      else if f = "require".toList then .ok (realm.require argument)
      else .unsupported
    | _ => .unsupported
  | .or e e' => (e.eval declared env).bind fun v =>
      if realm.truthy v then .ok v else e'.eval declared env

/-- The bindings and the default export after an item. -/
def Item.run (declared : List (List Char)) (state : List (List Char × V) × Option V) :
    Item → Verdict (List (List Char × V) × Option V)
  | .const x e => (e.eval realm declared state.1).bind fun v => .ok ((x, v) :: state.1, state.2)
  | .pattern xs e => (e.eval realm declared state.1).bind fun v =>
      .ok (xs.map (fun x => (x, realm.get v x)) ++ state.1, state.2)
  | .exportDefault e => (e.eval realm declared state.1).bind fun v => .ok (state.1, some v)
  | .exportNames _ => .ok state

def runItems (declared : List (List Char)) :
    List (List Char × V) × Option V → List Item → Verdict (List (List Char × V) × Option V)
  | state, [] => .ok state
  | state, i :: is => (i.run realm declared state).bind fun state => runItems declared state is

/-- The namespace of a module: its default export, and what it exports under names. -/
structure Exports (V : Type) where
  default : Option V
  named : List (List Char × Option V)

/-- The exports of a module once it is evaluated. -/
def exports (is : List Item) : Verdict (Exports V) :=
  (runItems realm (is.flatMap Item.declares) ([], none) is).bind fun (env, default) =>
    .ok ⟨default, (is.flatMap Item.exportedBindings).map fun x => (x, env.lookup x)⟩

end Evaluation

end RasterRuntime.EsModule
