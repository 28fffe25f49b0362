import RasterRuntime.EsModule.Module

/-! # CommonJS modules as ES modules

For an import of a CommonJS module, `load_cjs_module` writes the text of an ES module that requires
the file again, exports its value as the default, and destructures it into the keys that its exports
had. Keys and the file name go into the text as they are. -/

namespace RasterRuntime.CjsSource

open EsModule
open List (append_assoc append_nil cons_append mem_cons nodup_cons)
open Option (bind_some)

abbrev Text := List Char

def defaultKey : Text := "default".toList

/-- The loop that pushes the keys, each with a comma behind it. -/
def pushKeys (module : Text) (keys : List Text) : Text :=
  keys.foldl (fun module p => if p = defaultKey then module else module ++ p ++ [',']) module

/-- The text that is there for every module. -/
def sourceHead (name : Text) : Text :=
  "const value = require(\"".toList ++ name ++ "\");export default value.default||value;".toList

/-- The text that `load_cjs_module` writes, for the keys of an object that a module exports. -/
def source (name : Text) (keys : Option (List Text)) : Text :=
  match keys with
  | none => sourceHead name
  | some keys =>
    if keys = [] then sourceHead name
    else
      let module := pushKeys (sourceHead name ++ "const".toList ++ ['{']) keys
      let module := module.dropLast ++ '}' :: "=value;".toList
      let module := pushKeys (module ++ "export".toList ++ ['{']) keys
      module.dropLast ++ ['}', ';']

/-- The keys that are pushed. -/
def named (keys : List Text) : List Text := keys.filter (· ≠ defaultKey)

/-- The exports that the ES module of a file should have. -/
def expected {V : Type} (realm : Realm V) (name : Text) (keys : List Text) : Exports V where
  default :=
    let value := realm.require name
    let d := realm.get value defaultKey
    some (if realm.truthy d then d else value)
  named := (named keys).map fun k => (k, some (realm.get (realm.require name) k))

/-- The text is a module, and it has these exports. -/
def Faithful (U : Unicode) {V : Type} (realm : Realm V) (name : Text) (keys : Option (List Text)) :
    Prop :=
  ∃ is, parse U (source name keys) = .ok is ∧
    exports realm is = .ok (expected realm name (keys.getD []))

/-! ### The text -/

theorem named_default (keys : List Text) : named (defaultKey :: keys) = named keys :=
  List.filter_cons_of_neg (by simp)

theorem named_cons {k : Text} (h : k ≠ defaultKey) (keys : List Text) :
    named (k :: keys) = k :: named keys := List.filter_cons_of_pos (by simpa using h)

theorem pushKeys_eq (module : Text) (keys : List Text) :
    pushKeys module keys = module ++ (named keys).flatMap (· ++ [',']) := by
  induction keys generalizing module with
  | nil => exact (append_nil _).symm
  | cons k keys ih =>
    unfold pushKeys at ih ⊢
    rw [List.foldl_cons]
    by_cases hk : k = defaultKey
    · rw [if_pos hk, ih, hk, named_default]
    · rw [if_neg hk, ih, named_cons hk, List.flatMap_cons, append_assoc, append_assoc,
        append_assoc]

/-- The keys with commas between them. -/
def listed : List Text → Text
  | [] => []
  | [k] => k
  | k :: k' :: ks => k ++ ',' :: listed (k' :: ks)

variable (k : Text) (ks : List Text)

theorem flatMap_comma : (k :: ks).flatMap (· ++ [',']) = listed (k :: ks) ++ [','] := by
  induction ks generalizing k with
  | nil => simp [listed]
  | cons k' ks ih =>
    rw [List.flatMap_cons, ih, listed, append_assoc, append_assoc, List.singleton_append,
      cons_append]

/-- The keys between braces; the brace itself is lost if there are none. -/
def braced : List Text → Text
  | [] => []
  | k :: ks => '{' :: listed (k :: ks)

theorem dropLast_pushKeys (module : Text) (keys : List Text) :
    (pushKeys (module ++ ['{']) keys).dropLast = module ++ braced (named keys) := by
  rw [pushKeys_eq]
  cases named keys with
  | nil => rw [List.flatMap_nil, append_nil, List.dropLast_concat, braced, append_nil]
  | cons k ks =>
    rw [flatMap_comma, ← append_assoc, List.dropLast_concat, braced, append_assoc,
      List.singleton_append]

/-- The text behind that of every module, where the object has keys. -/
def sourceTail (ks : List Text) : Text :=
  "const".toList ++ braced ks ++
    ('}' :: "=value;".toList ++ "export".toList ++ braced ks ++ ['}', ';'])

theorem source_some {name : Text} {keys : List Text} (h : keys ≠ []) :
    source name (some keys) = sourceHead name ++ sourceTail (named keys) := by
  unfold source sourceTail
  dsimp only
  rw [if_neg h, dropLast_pushKeys, dropLast_pushKeys]
  simp only [append_assoc, cons_append]

/-! ### The tokens -/

section Tokens

variable {U : Unicode}

/-- The tokens that are there for every module. -/
def headTokens (name : Text) : List Token :=
  [.word "const".toList, .word "value".toList, .punct '=', .word "require".toList, .punct '(',
    .str name, .punct ')', .punct ';', .word "export".toList, .word defaultKey,
    .word "value".toList,
    .punct '.', .word defaultKey, .or, .word "value".toList, .punct ';']

variable {name k : Text} {ks : List Text}

theorem feeds_head (hname : IsPlain name) :
    Feeds U .start (sourceHead name) .start (headTokens name) := by
  have hbefore :
      Feeds U .start "const value = require(\"".toList (.inString []) [.word "const".toList,
      .word "value".toList, .punct '=', .word "require".toList, .punct '('] :=
    feeds_fixed (by decide)
  have hafter : Feeds U .start ");export default value.default||value;".toList .start [.punct ')',
      .punct ';', .word "export".toList, .word defaultKey, .word "value".toList, .punct '.',
      .word defaultKey, .or, .word "value".toList, .punct ';'] := feeds_fixed (by decide)
  have hquote : "\");export default value.default||value;".toList =
      '"' :: ");export default value.default||value;".toList := by decide
  have hclose : lexStep U (.inString name) '"' = some (.start, [.str name]) := rfl
  have h := (hbefore.append (feeds_plain [] hname)).append (.cons hclose hafter)
  rw [← hquote] at h
  exact h

/-- The tokens of the keys. -/
def listedTokens : List Text → List Token
  | [] => []
  | [k] => [.word k]
  | k :: k' :: ks => .word k :: .punct ',' :: listedTokens (k' :: ks)

theorem feeds_listed (h : ∀ x ∈ k :: ks, IdentifierName U x) :
    Feeds U .start (listed (k :: ks) ++ ['}']) .start (listedTokens (k :: ks) ++ [.punct '}']) := by
  induction ks generalizing k with
  | nil => exact feeds_word (h k (.head _)) rfl
  | cons k' ks ih =>
    have hcomma : lexStep U (.inWord k) ',' = some (.start, [.word k, .punct ',']) := rfl
    have hword := (feeds_word (h k (.head _)) hcomma).append
      (ih fun x hx => h x (List.mem_cons_of_mem k hx))
    have htext : k ++ [','] ++ (listed (k' :: ks) ++ ['}']) = listed (k :: k' :: ks) ++ ['}'] := by
      simp [listed]
    rwa [htext] at hword

/-- The tokens behind those of every module, where there are keys. -/
def keyTokens (ks : List Text) : List Token :=
  .word "const".toList :: .punct '{' :: (listedTokens ks ++
    .punct '}' :: .punct '=' :: .word "value".toList :: .punct ';' :: .word "export".toList ::
      .punct '{' :: (listedTokens ks ++ [.punct '}', .punct ';']))

theorem sourceTail_eq (k : Text) (ks : List Text) :
    sourceTail (k :: ks) = "const".toList ++ ['{'] ++ (listed (k :: ks) ++ ['}'] ++
      ("=value;".toList ++ "export".toList ++ ['{'] ++ (listed (k :: ks) ++ ['}'] ++ [';']))) := by
  unfold sourceTail braced
  simp

theorem lex_of_feeds {text : Text} {ts : List Token} (h : Feeds U .start text .start ts) :
    lex U text = some ts := by
  rw [lex, h []]
  rfl

theorem lex_keys (hname : IsPlain name) (h : ∀ x ∈ k :: ks, IdentifierName U x) :
    lex U (sourceHead name ++ sourceTail (k :: ks)) =
      some (headTokens name ++ keyTokens (k :: ks)) := by
  have hbefore : Feeds U .start ("const".toList ++ ['{']) .start
      [.word "const".toList, .punct '{'] := feeds_fixed (by decide)
  have hbetween : Feeds U .start ("=value;".toList ++ "export".toList ++ ['{']) .start
      [.punct '=', .word "value".toList, .punct ';', .word "export".toList, .punct '{'] :=
    feeds_fixed (by decide)
  have hend : Feeds U .start [';'] .start [.punct ';'] := feeds_fixed (by decide)
  have htail :=
    hbefore.append ((feeds_listed h).append (hbetween.append ((feeds_listed h).append hend)))
  rw [lex_of_feeds ((feeds_head hname).append (sourceTail_eq k ks ▸ htail)), keyTokens]
  simp

end Tokens

/-! ### The items -/

section Items

theorem require_free : "require".toList ∉ reservedWords := by simp [reservedWords]

theorem value_free : "value".toList ∉ reservedWords := by simp [reservedWords]

/-- The statement that requires the file. -/
def requireItem (name : Text) : Item := .const "value".toList (.call (.ident "require".toList) name)

/-- The statement that exports the default. -/
def defaultItem : Item :=
  .exportDefault (.or (.member (.ident "value".toList) defaultKey) (.ident "value".toList))

theorem item_require (name : Text) (ts : List Token) :
    item (.word "const".toList :: .word "value".toList :: .punct '=' :: .word "require".toList ::
      .punct '(' :: .str name :: .punct ')' :: .punct ';' :: ts) = .ok (requireItem name, ts) := by
  rw [item, if_pos rfl, constItem, if_neg value_free, exprFrom, if_neg require_free, expr, expr]
  rfl

theorem item_default (ts : List Token) :
    item (.word "export".toList :: .word defaultKey :: .word "value".toList :: .punct '.' ::
      .word defaultKey :: .or :: .word "value".toList :: .punct ';' :: ts) =
      .ok (defaultItem, ts) := by
  have hexport : "export".toList ≠ "const".toList := by decide
  rw [item, if_neg hexport, if_pos rfl, exportItem,
    if_pos (show defaultKey = "default".toList from rfl),
    exprFrom, if_neg value_free, expr, expr, if_neg value_free, expr]
  rfl

/-- The names between braces are refused if one of them is reserved. -/
theorem names_listed (ts : List Token) : names (listedTokens (k :: ks) ++ .punct '}' :: ts) =
      if ∀ x ∈ k :: ks, x ∉ reservedWords then .ok (k :: ks, ts) else .error := by
  induction ks generalizing k with
  | nil =>
    rw [listedTokens, List.singleton_append, names]
    by_cases hk : k ∈ reservedWords <;> simp [hk]
  | cons k' ks ih =>
    rw [listedTokens, cons_append, cons_append, names, ih]
    simp only [List.forall_mem_cons (a := k)]
    by_cases hk : k ∈ reservedWords
    · rw [if_pos hk, if_neg fun h => h.1 hk]
    · simp only [hk, if_false, not_false_eq_true, true_and]
      split_ifs <;> rfl

theorem item_pattern (ts : List Token) :
    item (.word "const".toList :: .punct '{' :: (listedTokens (k :: ks) ++
      .punct '}' :: .punct '=' :: .word "value".toList :: .punct ';' :: ts)) =
      if ∀ x ∈ k :: ks, x ∉ reservedWords then
        .ok (.pattern (k :: ks) (.ident "value".toList), ts) else .error := by
  rw [item, if_pos rfl, constItem, names_listed]
  split_ifs
  · change (exprFrom (.word "value".toList :: .punct ';' :: ts)).bind
      (fun r => .ok (Item.pattern (k :: ks) r.1, r.2)) = _
    rw [exprFrom, if_neg value_free, expr]
    rfl
  · rfl

theorem item_exportNames (h : ∀ x ∈ k :: ks, x ∉ reservedWords) :
    item (.word "export".toList :: .punct '{' ::
      (listedTokens (k :: ks) ++ [.punct '}', .punct ';'])) =
      .ok (.exportNames (k :: ks), []) := by
  have hexport : "export".toList ≠ "const".toList := by decide
  rw [item, if_neg hexport, if_pos rfl, exportItem, names_listed, if_pos h]
  rfl

theorem items_head (name : Text) (ts : List Token) :
    items (headTokens name ++ ts).length (headTokens name ++ ts) =
      (items (ts.length + 14) ts).bind fun is => .ok (requireItem name :: defaultItem :: is) := by
  have hlength : (headTokens name ++ ts).length = ts.length + 14 + 1 + 1 := by
    rw [List.length_append, headTokens]
    simp only [List.length_cons, List.length_nil]
    omega
  rw [hlength, headTokens]
  simp only [cons_append, List.nil_append]
  rw [items_of_ok (item_require name _), items_of_ok (item_default ts)]
  cases items (ts.length + 14) ts <;> rfl

/-- The items of the text with keys. -/
def keyItems (name : Text) (ks : List Text) : List Item :=
  [requireItem name, defaultItem, .pattern ks (.ident "value".toList), .exportNames ks]

theorem declares_keyItems (name : Text) (ks : List Text) :
    (keyItems name ks).flatMap Item.declares = "value".toList :: ks :=
  congrArg ("value".toList :: ·) (append_nil ks)

theorem bindings_keyItems (name : Text) (ks : List Text) :
    (keyItems name ks).flatMap Item.exportedBindings = ks :=
  append_nil ks

theorem items_keys (name k : Text) (ks : List Text) :
    items (headTokens name ++ keyTokens (k :: ks)).length (headTokens name ++ keyTokens (k :: ks)) =
      if ∀ x ∈ k :: ks, x ∉ reservedWords then .ok (keyItems name (k :: ks)) else .error := by
  have hpattern := item_pattern k ks
    (.word "export".toList :: .punct '{' :: (listedTokens (k :: ks) ++ [.punct '}', .punct ';']))
  rw [items_head, keyTokens]
  split_ifs at hpattern ⊢ with h
  · rw [items_of_ok hpattern, items_of_ok (item_exportNames k ks h)]
    rfl
  · rw [items_of_error hpattern]
    rfl

end Items

/-! ### Verdicts -/

theorem parse_of_lex {U : Unicode} {text : Text} {ts : List Token} (h : lex U text = some ts) :
    parse U text = (items ts.length ts).bind fun is => if Early is then .ok is else .error := by
  rw [parse, h]

section Verdicts

variable {U : Unicode} {name : Text} (hname : IsPlain name)
include hname

theorem parse_head : parse U (sourceHead name) = .ok [requireItem name, defaultItem] := by
  have hlex := lex_of_feeds (feeds_head (U := U) hname)
  have hitems := items_head name []
  rw [append_nil] at hitems
  have hearly : Early [requireItem name, defaultItem] := by
    refine ⟨?_, ?_, fun x hx => ?_⟩
    · simp [requireItem, defaultItem, Item.declares]
    · simp [requireItem, defaultItem, Item.exportedNames]
    · cases hx
  rw [parse_of_lex hlex, hitems]
  exact if_pos (e := .error) hearly

/-- The brace that is lost makes the text an error. -/
theorem parse_lost : parse U (sourceHead name ++ sourceTail []) = .error := by
  let tokens : List Token :=
    [.word "const".toList, .punct '}', .punct '=', .word "value".toList, .punct ';',
      .word "export".toList, .punct '}', .punct ';']
  have htail : Feeds U .start (sourceTail []) .start tokens := feeds_fixed (by decide)
  have hlex := lex_of_feeds ((feeds_head hname).append htail)
  have hitems : items (headTokens name ++ tokens).length (headTokens name ++ tokens) = .error := by
    rw [items_head]
    rfl
  rw [parse_of_lex hlex, hitems]
  rfl

/-- The text with keys is a module if none of them is reserved or the name of the value. -/
theorem parse_keys {k : Text} {ks : List Text} (hid : ∀ x ∈ k :: ks, IdentifierName U x)
    (hnodup : (k :: ks).Nodup) (hdefault : defaultKey ∉ k :: ks) :
    parse U (sourceHead name ++ sourceTail (k :: ks)) =
      if (∀ x ∈ k :: ks, x ∉ reservedWords) ∧ "value".toList ∉ k :: ks then
        .ok (keyItems name (k :: ks)) else .error := by
  have hearly : Early (keyItems name (k :: ks)) ↔ "value".toList ∉ k :: ks := by
    have hexported : (keyItems name (k :: ks)).flatMap Item.exportedNames = defaultKey :: k :: ks :=
      congrArg (defaultKey :: ·) (append_nil (k :: ks))
    unfold Early
    rw [declares_keyItems, hexported, bindings_keyItems]
    refine ⟨fun h => (nodup_cons.mp h.1).1, fun h => ⟨?_, ?_, ?_⟩⟩
    · exact nodup_cons.mpr ⟨h, hnodup⟩
    · exact nodup_cons.mpr ⟨hdefault, hnodup⟩
    · exact fun x hx => .tail _ hx
  rw [parse_of_lex (lex_keys hname hid), items_keys, ite_and]
  by_cases hfree : ∀ x ∈ k :: ks, x ∉ reservedWords
  · rw [if_pos hfree, if_pos hfree]
    exact if_congr hearly rfl rfl
  · rw [if_neg hfree, if_neg hfree]
    rfl

end Verdicts

/-! ### The exports -/

section Exports

variable {V : Type} (realm : Realm V) (name : Text)

/-- The default export that a file should have. -/
def defaultExport : V :=
  if realm.truthy (realm.get (realm.require name) defaultKey) then
    realm.get (realm.require name) defaultKey
  else realm.require name

variable {declared : List Text} (hvalue : "value".toList ∈ declared)

include hvalue

theorem eval_value : (Expr.ident "value".toList).eval realm declared
    [("value".toList, realm.require name)] = .ok (realm.require name) := by
  rw [Expr.eval, if_pos hvalue, List.lookup_cons_self]

theorem run_head (hrequire : "require".toList ∉ declared) (is : List Item) :
    runItems realm declared ([], none) (requireItem name :: defaultItem :: is) =
      runItems realm declared
        ([("value".toList, realm.require name)], some (defaultExport realm name)) is := by
  have hcall : (Expr.call (.ident "require".toList) name).eval realm declared [] =
      .ok (realm.require name) := by
    rw [Expr.eval, if_neg hrequire, if_pos rfl]
  have hident := eval_value realm name hvalue
  have hdefault :
      (Expr.or (.member (.ident "value".toList) defaultKey) (.ident "value".toList)).eval
      realm declared [("value".toList, realm.require name)] = .ok (defaultExport realm name) := by
    have hmember : (Expr.member (.ident "value".toList) defaultKey).eval realm declared
        [("value".toList, realm.require name)] =
          .ok (realm.get (realm.require name) defaultKey) := by
      rw [Expr.eval, hident]
      rfl
    rw [Expr.eval, hmember, hident]
    dsimp only [Verdict.bind]
    unfold defaultExport
    split_ifs <;> rfl
  rw [runItems, requireItem, Item.run, hcall, Verdict.bind, Verdict.bind]
  rw [runItems, defaultItem, Item.run, hdefault, Verdict.bind, Verdict.bind]

omit hvalue

theorem lookup_map (f : Text → V) (env : List (Text × V)) {ks : List Text} {x : Text}
    (hx : x ∈ ks) :
    (ks.map (fun k => (k, f k)) ++ env).lookup x = some (f x) := by
  rw [List.lookup_append, List.lookup_graph f hx]
  rfl

theorem exports_head :
    exports realm [requireItem name, defaultItem] = .ok (expected realm name []) := by
  have hrequire : "require".toList ∉ ["value".toList] := by decide
  have hrun := run_head realm name (.head _) hrequire []
  unfold exports
  rw [show [requireItem name, defaultItem].flatMap Item.declares = ["value".toList] from rfl, hrun]
  rfl

/-- A key `require` hides the function that the first statement calls. -/
theorem exports_keys : exports realm (keyItems name ks) = if "require".toList ∈ ks then .error else
      .ok ⟨some (defaultExport realm name),
        ks.map fun k => (k, some (realm.get (realm.require name) k))⟩ := by
  have hne : "require".toList ≠ "value".toList := by decide
  unfold exports
  rw [declares_keyItems, bindings_keyItems]
  by_cases hrequire : "require".toList ∈ ks
  · have hcall : (Expr.call (.ident "require".toList) name).eval realm ("value".toList :: ks) [] =
        .error := by
      rw [Expr.eval, if_pos (.tail _ hrequire)]
      rfl
    rw [if_pos hrequire, keyItems, runItems, requireItem, Item.run, hcall]
    rfl
  · have hnot : "require".toList ∉ "value".toList :: ks :=
      List.not_mem_cons_of_ne_of_not_mem hne hrequire
    rw [if_neg hrequire, keyItems, run_head realm name (.head _) hnot, runItems, Item.run,
      eval_value realm name (.head _)]
    dsimp only [Verdict.bind, runItems, Item.run]
    congr 2
    refine List.map_congr_left fun x hx => ?_
    rw [lookup_map _ _ hx]

end Exports

/-- The keys do not break the text: some key other than `default` is left if there are keys at all,
and none of those is reserved or hides a name that the text uses. -/
def KeysFit (keys : List Text) : Prop :=
  (keys = [] ∨ named keys ≠ []) ∧
    ∀ k ∈ named keys, k ∉ reservedWords ∧ k ≠ "value".toList ∧ k ≠ "require".toList

/-- **The ES module of a CommonJS file**, for a file name that can stand between quotes and keys
that are identifier names: the text is a module with the right exports exactly if the keys fit. -/
theorem import_faithful_iff (U : Unicode) {V : Type} (realm : Realm V) {name : Text}
    (hname : IsPlain name) (keys : Option (List Text)) (hnodup : (keys.getD []).Nodup)
    (hid : ∀ k ∈ keys.getD [], IdentifierName U k) :
    Faithful U realm name keys ↔ KeysFit (keys.getD []) := by
  have hempty : ∀ {keys : Option (List Text)}, keys.getD [] = [] →
      (Faithful U realm name keys ↔ KeysFit (keys.getD [])) := by
    intro keys hkeys
    have hsource : source name keys = sourceHead name := by
      cases keys with
      | none => rfl
      | some keys => exact if_pos hkeys
    rw [Faithful, hsource, hkeys]
    refine ⟨fun _ => ⟨.inl rfl, fun k hk => by cases hk⟩, fun _ => ?_⟩
    exact ⟨_, parse_head hname, exports_head realm name⟩
  cases keys with
  | none => exact hempty rfl
  | some keys =>
    by_cases hkeys : keys = []
    · exact hempty hkeys
    · have hnamed : (named keys).Nodup := hnodup.filter _
      have hnot : defaultKey ∉ named keys := by
        intro h
        simpa using (List.mem_filter.mp h).2
      have hidentifiers : ∀ k ∈ named keys, IdentifierName U k :=
        fun k hk => hid k (List.mem_filter.mp hk).1
      rw [Faithful, source_some hkeys, Option.getD_some, KeysFit, expected]
      cases hks : named keys with
      | nil =>
        rw [parse_lost hname]
        constructor
        · rintro ⟨is, h, -⟩
          cases h
        · exact fun h => absurd rfl (h.1.resolve_left hkeys)
      | cons k ks =>
        rw [hks] at hnamed hnot hidentifiers
        rw [parse_keys hname hidentifiers hnamed hnot]
        constructor
        · rintro ⟨is, hparse, hexports⟩
          split_ifs at hparse with hfree
          cases hparse
          rw [exports_keys] at hexports
          split_ifs at hexports with hrequire
          refine ⟨.inr (List.cons_ne_nil k ks), fun x hx => ⟨hfree.1 x hx, ?_, ?_⟩⟩
          · rintro rfl
            exact hfree.2 hx
          · rintro rfl
            exact hrequire hx
        · rintro ⟨-, h⟩
          have hfree : (∀ x ∈ k :: ks, x ∉ reservedWords) ∧ "value".toList ∉ k :: ks :=
            ⟨fun x hx => (h x hx).1, fun hx => (h _ hx).2.1 rfl⟩
          refine ⟨_, if_pos hfree, ?_⟩
          rw [exports_keys, if_neg fun hx => (h _ hx).2.2 rfl]
          rfl

/-- The letters of ASCII only. -/
def ascii : Unicode := ⟨fun _ => false, fun _ => false⟩

/-- Numbers as values. -/
def numbers : Realm ℕ := ⟨List.length, fun v key => v + key.length, fun v => v ≠ 0⟩

/-- A module that exports `default` and `a`. -/
theorem import_faithful_two :
    Faithful ascii numbers "/app/a.js".toList (some [defaultKey, "a".toList]) := by
  refine (import_faithful_iff ascii numbers ?_ _ (by decide) ?_).mpr ?_
  · have hplain : "/app/a.js".toList.all
        (fun c => c ≠ '"' ∧ c ≠ '\\' ∧ c ≠ '\n' ∧ c ≠ '\r') = true := by decide
    exact fun c hc => of_decide_eq_true (List.all_eq_true.mp hplain c hc)
  · intro k hk
    rcases mem_cons.mp hk with rfl | hk
    · exact identifierName_of_alpha (by decide) (by decide)
    · obtain rfl := List.mem_singleton.mp hk
      exact identifierName_of_alpha (by decide) (by decide)
  · exact ⟨.inr (by decide), by decide⟩

/-- A module whose only key is `default`, and one with a key that is a reserved word, cannot be
imported. -/
theorem import_refused :
    parse ascii (source "/app/a.js".toList (some [defaultKey])) = .error ∧
      parse ascii (source "/app/a.js".toList (some ["get".toList, "delete".toList])) = .error := by
  decide +kernel

end RasterRuntime.CjsSource
