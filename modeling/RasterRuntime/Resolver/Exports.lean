import RasterRuntime.Resolver.Packages

/-! # Subpaths of a package with `exports`

What a subpath should resolve to (`Expected`): the target of its key, or else that of the pattern
`P*` with the longest `P` that the subpath begins with. The source looks at one pattern, which it
finds by counting separators, and only if the target is an object of conditions; where that gives
nothing it goes on to the other fields of the package, as if there were no `exports`. -/

namespace RasterRuntime.Resolver

variable {platform : List Char} {isEsm : Bool} {es : List (List Char × Json)} {m t : List Char}

/-- The text of a target. -/
def targetText (platform : List Char) (isEsm : Bool) : Json → Option (List Char)
  | .string text => some text
  | target => conditionTarget platform isEsm target

/-- The key `P*` is there, and stands for the subpath. -/
def Covers (exports : Json) (m P : List Char) : Prop :=
  (exports.get (P ++ ['*'])).isSome ∧ P <+: m ∧ P ≠ m

/-- The longest pattern that stands for the subpath is `P*`, with a text for its target. -/
structure Best (platform : List Char) (isEsm : Bool) (exports : Json) (m P text : List Char) :
    Prop where
  covers : Covers exports m P
  longest : ∀ Q, Covers exports m Q → Q.length ≤ P.length
  target : (exports.get (P ++ ['*'])).bind (targetText platform isEsm) = some text

/-- **What a subpath should resolve to.** -/
def Expected (platform : List Char) (isEsm : Bool) (exports : Json) (m t : List Char) : Prop :=
  match exports.get m with
  | some target => targetText platform isEsm target = some t
  | none => ∃ P text, Best platform isEsm exports m P text ∧ t = replaceStar text (m.drop P.length)

theorem Expected.unique {t' : List Char} (h : Expected platform isEsm (.object es) m t)
    (h' : Expected platform isEsm (.object es) m t') : t = t' := by
  unfold Expected at h h'
  split at h
  · next target hm =>
    rw [hm] at h'
    exact Option.some_inj.mp (h.symm.trans h')
  · next hm =>
    rw [hm] at h'
    obtain ⟨P, text, hP, rfl⟩ := h
    obtain ⟨Q, text', hQ, rfl⟩ := h'
    have hlen : P.length = Q.length :=
      Nat.le_antisymm (hQ.longest P hP.covers) (hP.longest Q hQ.covers)
    have hpre : P <+: Q :=
      List.prefix_of_prefix_length_le hP.covers.2.1 hQ.covers.2.1 (Nat.le_of_eq hlen)
    obtain rfl : P = Q := hpre.eq_of_length hlen
    rw [Option.some_inj.mp (hP.target.symm.trans hQ.target)]

theorem textAt_of_get {json : Json} {key : List Char} (h : json.get key = none)
    (keys : List (List Char)) : json.textAt (key :: keys) = none := by
  unfold Json.textAt Json.lookup
  rw [List.foldlM_cons, h]
  rfl

theorem textAt_or_condition (exports : Json) (m : List Char) :
    (exports.textAt [m] <|> (exports.get m).bind (conditionTarget platform isEsm)) =
      (exports.get m).bind (targetText platform isEsm) := by
  cases hm : exports.get m with
  | none =>
    rw [textAt_of_get hm]
    rfl
  | some target =>
    have htext : exports.textAt [m] = target.textAt [] := by
      unfold Json.textAt Json.lookup
      rw [List.foldlM_cons, hm]
      rfl
    rw [htext]
    cases target <;> rfl

theorem targetText_of_condition {target : Json}
    (h : conditionTarget platform isEsm target = some t) :
    targetText platform isEsm target = some t := by
  cases target with
  | string text => cases h
  | null | other | object _ => exact h

/-- All keys are subpaths. -/
def Subpaths (es : List (List Char × Json)) : Prop := ∀ e ∈ es, e.1.head? = some '.'

theorem Subpaths.get_eq_none (h : Subpaths es) {key : List Char} (hk : key.head? ≠ some '.') :
    (Json.object es).get key = none := by
  have hno : es.find? (·.1 = key) = none := by
    refine List.find?_eq_none.mpr fun e he hek => hk ?_
    rw [← of_decide_eq_true hek]
    exact h e he
  simp [Json.get, hno]

/-- The target of the pattern that the source looks at. -/
def consulted (platform : List Char) (isEsm : Bool) (exports : Json) (m : List Char) :
    Option (List Char) :=
  (wildcardOf m).bind fun (key, star) =>
    ((exports.get key).bind (conditionTarget platform isEsm)).map (replaceStar · star)

theorem exportsTarget_eq (h : Subpaths es) (m : List Char) :
    exportsTarget platform isEsm (.object es) m =
      (((Json.object es).get m).bind (targetText platform isEsm) <|>
        consulted platform isEsm (.object es) m) := by
  have hcond : (Json.object es).get (conditionOf isEsm) = none :=
    h.get_eq_none (by cases isEsm <;> decide)
  have hdefault : (Json.object es).get "default".toList = none := h.get_eq_none (by decide)
  unfold exportsTarget
  rw [textAt_of_get hcond, textAt_of_get hcond, textAt_of_get hdefault, ite_self,
    ← textAt_or_condition]
  unfold consulted
  generalize (Json.object es).textAt [m] = a
  generalize ((Json.object es).get m).bind (conditionTarget platform isEsm) = b
  cases a with
  | some | none => cases b <;> cases (wildcardOf m).bind _ <;> rfl

/-! ### The pattern that is looked at -/

theorem rfind_eq_none {c : Char} {s : List Char} : rfind c s = none ↔ c ∉ s := by
  induction s with
  | nil => simp [rfind]
  | cons d s ih =>
    rw [rfind, List.mem_cons, not_or, ← ih]
    cases rfind c s with
    | some i => simp
    | none => simp [eq_comm]

theorem rfind_eq_some {c : Char} {s : List Char} {p : ℕ} :
    rfind c s = some p ↔ ∃ a b, s = a ++ c :: b ∧ a.length = p ∧ c ∉ b := by
  constructor
  · intro h
    induction s generalizing p with
    | nil => cases h
    | cons d s ih =>
      rw [rfind] at h
      cases hs : rfind c s with
      | some i =>
        rw [hs] at h
        obtain ⟨a, b, rfl, rfl, hb⟩ := ih hs
        exact ⟨d :: a, b, rfl, Option.some_inj.mp h, hb⟩
      | none =>
        rw [hs] at h
        obtain ⟨rfl, rfl⟩ : d = c ∧ 0 = p := by simpa using h
        exact ⟨[], s, rfl, rfl, rfind_eq_none.mp hs⟩
  · rintro ⟨a, b, rfl, rfl, hb⟩
    induction a with
    | nil => simp [rfind, rfind_eq_none.mpr hb]
    | cons d a ih => simp [rfind, ih]

/-- The `n + 1`-th separator from the end has `n` behind it. -/
theorem sepFromEnd_eq_some {x : List Char} {n p : ℕ} :
    sepFromEnd x (n + 1) = some p ↔
      ∃ scope rest, x = scope ++ '/' :: rest ∧ scope.length = p ∧ rest.count '/' = n := by
  rw [sepFromEnd, Option.bind_eq_some_iff]
  simp only [rfind_eq_some]
  induction n generalizing p with
  | zero =>
    simp only [sepFromEnd, Option.some_inj, List.count_eq_zero]
    constructor
    · rintro ⟨_, rfl, h⟩
      rwa [List.take_length] at h
    · intro h
      refine ⟨x.length, rfl, ?_⟩
      rwa [List.take_length]
  | succ n ih =>
    rw [sepFromEnd]
    simp only [Option.bind_eq_some_iff, rfind_eq_some, ih]
    constructor
    · rintro ⟨_, ⟨scope, rest, rfl, rfl, hcount⟩, a, b, htake, rfl, hb⟩
      rw [List.take_left] at htake
      subst htake
      refine ⟨a, b ++ '/' :: rest, by simp, rfl, ?_⟩
      rw [List.count_append, List.count_cons_self, List.count_eq_zero.mpr hb, hcount, Nat.zero_add]
    · rintro ⟨a, r, rfl, rfl, hcount⟩
      have hmem : '/' ∈ r := List.count_pos_iff.mp (by omega)
      obtain ⟨b, rest, rfl, hb⟩ := List.eq_append_cons_of_mem hmem
      rw [List.count_append, List.count_cons_self, List.count_eq_zero.mpr hb] at hcount
      refine ⟨_, ⟨a ++ '/' :: b, rest, by simp, rfl, by omega⟩, a, b, ?_, rfl, hb⟩
      rw [← List.cons_append, ← List.append_assoc, List.take_left]

/-- The pattern `P*` that counting separators finds: there are as many from the end of `P` on as
there are bytes before the last separator but one. -/
def Counted (m P : List Char) : Prop :=
  ∃ scope rest a r, m = scope ++ '/' :: rest ∧ P = scope ++ ['/'] ∧
    m = a ++ '/' :: r ∧ r.count '/' = 1 ∧ rest.count '/' + 1 = byteLength a

/-- The key that is looked at for a subpath, and what its star stands for. -/
inductive LookedAt (m : List Char) : List Char → List Char → Prop
  | counted {P : List Char} (h : Counted m P) : LookedAt m (P ++ ['*']) (m.drop P.length)
  /-- There are not that many separators. -/
  | whole {a r : List Char} (hm : m = a ++ '/' :: r) (hr : r.count '/' = 1)
    (h : ∀ P, ¬ Counted m P) : LookedAt m (m ++ "/*".toList) ['.']

section Separators

variable {a r : List Char} (hm : m = a ++ '/' :: r) (hr : r.count '/' = 1)

include hm hr

theorem wildcardOf_eq :
    wildcardOf m = some ((getNameAndScope m (byteLength a)).scope ++ "/*".toList,
      (getNameAndScope m (byteLength a)).name) := by
  have hpos : sepFromEnd m 2 = some a.length := sepFromEnd_eq_some.mpr ⟨a, r, hm, rfl, hr⟩
  have htake : m.take a.length = a := by rw [hm, List.take_left]
  rw [wildcardOf, hpos, Option.map_some, htake]

theorem wildcardOf_cut {scope rest : List Char} (hscope : m = scope ++ '/' :: rest)
    (hcount : rest.count '/' + 1 = byteLength a) :
    wildcardOf m = some (scope ++ "/*".toList, rest) := by
  have hcut : sepFromEnd m (byteLength a) = some scope.length :=
    hcount ▸ sepFromEnd_eq_some.mpr ⟨scope, rest, hscope, rfl, rfl⟩
  have htake : m.take scope.length = scope := by rw [hscope, List.take_left]
  have hdrop : m.drop (scope.length + 1) = rest := by rw [hscope, List.drop_append]; simp
  rw [wildcardOf_eq hm hr, getNameAndScope, hcut]
  dsimp only
  rw [htake, hdrop]

theorem wildcardOf_whole (hdot : m.head? = some '.') (h : ∀ P, ¬ Counted m P) :
    wildcardOf m = some (m ++ "/*".toList, ['.']) := by
  have hnone : sepFromEnd m (byteLength a) = none := by
    obtain ⟨n, hn⟩ : ∃ n, byteLength a = n + 1 := by
      cases a with
      | nil =>
        rw [hm] at hdot
        cases hdot
      | cons c a =>
        refine Nat.exists_eq_succ_of_ne_zero (Nat.add_pos_left (Char.utf8Size_pos c) _).ne'
    refine Option.eq_none_iff_forall_ne_some.mpr fun p hp => ?_
    obtain ⟨scope, rest, hscope, -, hcount⟩ := sepFromEnd_eq_some.mp (hn ▸ hp)
    exact h _ ⟨scope, rest, a, r, hscope, rfl, hm, hr, by omega⟩
  rw [wildcardOf_eq hm hr, getNameAndScope, hnone]

end Separators

theorem wildcardOf_counted {P : List Char} (h : Counted m P) :
    wildcardOf m = some (P ++ ['*'], m.drop P.length) := by
  obtain ⟨scope, rest, a, r, hscope, rfl, hm, hr, hcount⟩ := h
  rw [wildcardOf_cut hm hr hscope hcount, hscope]
  simp [List.drop_append]

theorem lookedAt_iff (hdot : m.head? = some '.') {key star : List Char} :
    LookedAt m key star ↔ wildcardOf m = some (key, star) := by
  constructor
  · rintro (⟨hcounted⟩ | ⟨hm, hr, hnone⟩)
    · exact wildcardOf_counted hcounted
    · exact wildcardOf_whole hm hr hdot hnone
  · intro h
    obtain ⟨p, hp, -⟩ := Option.map_eq_some_iff.mp h
    obtain ⟨a, r, hm, -, hr⟩ := sepFromEnd_eq_some.mp hp
    by_cases hcounted : ∃ P, Counted m P
    · obtain ⟨P, hP⟩ := hcounted
      cases h.symm.trans (wildcardOf_counted hP)
      exact .counted hP
    · have hnone : ∀ P, ¬ Counted m P := not_exists.mp hcounted
      cases h.symm.trans (wildcardOf_whole hm hr hdot hnone)
      exact .whole hm hr hnone

theorem packageExportsResolve_fst {name : List Char} (hname : name ≠ ['.'])
    (fields : List (List Char × Json)) :
    (packageExportsResolve platform isEsm
      (.object (("exports".toList, .object es) :: fields)) name).1 =
      (exportsTarget platform isEsm (.object es) ("./".toList ++ name) <|>
        fieldsTarget platform isEsm
        (.object (("exports".toList, .object es) :: fields))).getD "./index.js".toList := by
  have hdot : "./".toList ++ name ≠ ['.'] := by simp
  unfold packageExportsResolve
  rw [if_neg hname]
  dsimp only
  rw [if_neg hdot]
  split
  all_goals
    next h =>
      rw [show (exportsTarget platform isEsm (.object es) ("./".toList ++ name) <|> _) = _ from h]
      rfl

theorem fieldsTarget_main (v : List Char) :
    fieldsTarget platform isEsm
      (.object [("exports".toList, .object es), ("main".toList, .string v)]) =
      some v := by
  generalize hjson : Json.object [("exports".toList, .object es), ("main".toList, .string v)] = json
  have hmain : json.textAt ["main".toList] = some v := hjson ▸ rfl
  have hmodule : json.textAt ["module".toList] = none := hjson ▸ rfl
  -- the platform may have the name of a field
  have hplatform : json.textAt [platform] = none ∨ json.textAt [platform] = some v := by
    by_cases h : platform = "exports".toList
    · exact .inl (h ▸ hjson ▸ rfl)
    · by_cases h' : platform = "main".toList
      · exact .inr (h' ▸ hmain)
      · refine .inl (textAt_of_get ?_ [])
        rw [← hjson]
        simp only [Json.get, Option.map_eq_none_iff, List.find?_eq_none, decide_eq_true_eq]
        simpa using ⟨Ne.symm h, Ne.symm h'⟩
  unfold fieldsTarget
  rw [hmain, hmodule, ite_self]
  rcases hplatform with h | h <;> rw [h] <;> rfl

/-! ### When the right pattern is looked at -/

/-- The longest pattern is the one that is looked at, and its target is an object of conditions. -/
def ByPattern (platform : List Char) (isEsm : Bool) (exports : Json) (m : List Char) : Prop :=
  ∃ P text, Best platform isEsm exports m P text ∧ Counted m P ∧
    (exports.get (P ++ ['*'])).bind (conditionTarget platform isEsm) = some text

/-- Another key than that of the longest pattern is looked at, and its target becomes the same
text. -/
def ByChance (platform : List Char) (isEsm : Bool) (exports : Json) (m : List Char) : Prop :=
  ∃ P text key star other, Best platform isEsm exports m P text ∧
    LookedAt m key star ∧ key ≠ P ++ ['*'] ∧
    (exports.get key).bind (conditionTarget platform isEsm) = some other ∧
    replaceStar other star = replaceStar text (m.drop P.length)

theorem consulted_eq_some (hdot : m.head? = some '.') (exports : Json) :
    consulted platform isEsm exports m = some t ↔ ∃ key star other, LookedAt m key star ∧
      (exports.get key).bind (conditionTarget platform isEsm) = some other ∧
      replaceStar other star = t := by
  simp only [lookedAt_iff hdot, consulted, Option.bind_eq_some_iff (x := wildcardOf m),
    Option.map_eq_some_iff, Prod.exists]
  constructor
  · rintro ⟨key, star, hw, other, ho, ht⟩
    exact ⟨key, star, other, hw, ho, ht⟩
  · rintro ⟨key, star, other, hw, ho, ht⟩
    exact ⟨key, star, hw, other, ho, ht⟩

theorem Best.of_condition {exports : Json} {P text other : List Char}
    (h : Best platform isEsm exports m P text)
    (ho : (exports.get (P ++ ['*'])).bind (conditionTarget platform isEsm) = some other) :
    other = text := by
  obtain ⟨target, hget, ht⟩ := Option.bind_eq_some_iff.mp ho
  have htext := h.target
  rw [hget, Option.bind_some, targetText_of_condition ht] at htext
  exact Option.some_inj.mp htext

/-- The key that is looked at is that of the longest pattern only if counting finds the pattern. -/
theorem LookedAt.counted_of_eq {exports : Json} {P star : List Char} (hP : Covers exports m P)
    (h : LookedAt m (P ++ ['*']) star) : Counted m P ∧ star = m.drop P.length := by
  generalize hkey : P ++ ['*'] = key at h
  cases h with
  | counted hcounted =>
    obtain rfl := List.append_cancel_right hkey
    exact ⟨hcounted, rfl⟩
  | whole hm hr hnone =>
    -- the key is longer than the subpath
    have hlen := hP.2.1.length_le
    have hkey := congrArg List.length hkey
    simp only [List.length_append, List.length_cons, List.length_nil] at hkey
    have htwo : "/*".toList.length = 2 := rfl
    omega

theorem consulted_expected_iff {exports : Json} (hdot : m.head? = some '.')
    (hget : exports.get m = none) :
    (∃ t, consulted platform isEsm exports m = some t ∧ Expected platform isEsm exports m t) ↔
      ByPattern platform isEsm exports m ∨ ByChance platform isEsm exports m := by
  simp only [consulted_eq_some hdot, Expected, hget]
  constructor
  · rintro ⟨t, ⟨key, star, other, hlook, ho, ht⟩, P, text, hbest, rfl⟩
    by_cases hkey : key = P ++ ['*']
    · subst hkey
      obtain ⟨hcounted, -⟩ := hlook.counted_of_eq hbest.covers
      exact .inl ⟨P, text, hbest, hcounted, hbest.of_condition ho ▸ ho⟩
    · exact .inr ⟨P, text, key, star, other, hbest, hlook, hkey, ho, ht⟩
  · rintro (⟨P, text, hbest, hcounted, ho⟩ | ⟨P, text, key, star, other, hbest, hlook, -, ho, ht⟩)
    · exact ⟨_, ⟨_, _, text, .counted hcounted, ho, rfl⟩, P, text, hbest, rfl⟩
    · exact ⟨_, ⟨key, star, other, hlook, ho, rfl⟩, P, text, hbest, ht⟩

/-- The prefixes that the only key of a map covers subpaths with. -/
theorem Covers.eq_of_singleton {P Q : List Char} {target : Json}
    (h : Covers (.object [(Q ++ ['*'], target)]) m P) : P = Q := by
  obtain ⟨e, he, hkey⟩ := List.find?_isSome.mp ((Option.isSome_map ..).symm.trans h.1)
  rw [List.mem_singleton.mp he, decide_eq_true_eq] at hkey
  exact (List.append_cancel_right hkey).symm

end RasterRuntime.Resolver
