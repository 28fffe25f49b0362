import RasterRuntime.Path.JoinResolve

/-! # `path.relative`

`relative(from, to)` skips the components that both paths start with, writes `..` for each component
that is left of `from` and appends what is left of `to`. The components are cut from the paths as
they are, so that an empty component, `.` or `..` left of `from` counts as one level like a name
does. -/

namespace RasterRuntime.Path

open Lexical
open List (append_assoc append_nil drop_drop replicate)

/-- The first loop: what is left of two lists behind their common start. -/
def skipCommon : List (List Char) → List (List Char) → List (List Char) × List (List Char)
  | f :: fs, t :: ts => if f = t then skipCommon fs ts else (f :: fs, t :: ts)
  | fs, ts => (fs, ts)

/-- The common start itself. -/
def commonStart : List (List Char) → List (List Char) → List (List Char)
  | f :: fs, t :: ts => if f = t then f :: commonStart fs ts else []
  | _, _ => []

/-- A separator, unless nothing is written yet. -/
def separated (relative : List Char) : List Char :=
  if relative = [] then relative else relative ++ ['/']

/-- A round of the second loop. -/
def pushUp (relative _component : List Char) : List Char := separated relative ++ ['.', '.']

/-- A round of the third loop. -/
def pushComponent (relative component : List Char) : List Char :=
  if component ≠ ['.'] then separated relative ++ component else separated relative

/-- A path in the current directory, unless it is absolute. -/
def absRef (cwd : Dir) (path : List Char) : List Char :=
  if isAbsolute path then path else cwd.text ++ ['/'] ++ path

/-- The components that the second and the third loop go through. -/
def leftOver (cwd : Dir) (fromRef toRef : List Char) : List (List Char) × List (List Char) :=
  skipCommon (subParts (absRef cwd fromRef)) (subParts (absRef cwd toRef))

def relative (cwd : Dir) (fromRef toRef : List Char) : List Char :=
  if fromRef = toRef then []
  else
    let rest := leftOver cwd fromRef toRef
    let text := rest.2.foldl pushComponent (rest.1.foldl pushUp [])
    if text = [] then ['.'] else text

/-! ### The common start -/

theorem commonStart_append (fs ts : List (List Char)) :
    commonStart fs ts ++ (skipCommon fs ts).1 = fs ∧
      commonStart fs ts ++ (skipCommon fs ts).2 = ts := by
  induction fs generalizing ts with
  | nil => exact ⟨by simp [commonStart, skipCommon], by simp [commonStart, skipCommon]⟩
  | cons f fs ih =>
    cases ts with
    | nil => exact ⟨rfl, rfl⟩
    | cons t ts =>
      rw [commonStart, skipCommon]
      by_cases h : f = t
      · rw [if_pos h, if_pos h]
        refine ⟨congrArg (f :: ·) (ih ts).1, ?_⟩
        rw [h]
        exact congrArg (t :: ·) (ih ts).2
      · rw [if_neg h, if_neg h]
        exact ⟨rfl, rfl⟩

theorem skipCommon_self (fs : List (List Char)) : skipCommon fs fs = ([], []) := by
  induction fs with
  | nil => rfl
  | cons f fs ih => rw [skipCommon, if_pos rfl, ih]

theorem not_mem_of_mem_subParts {s c : List Char} (h : c ∈ subParts s) : '/' ∉ c := by
  refine not_mem_of_mem_splitOn (s := s) ?_
  rcases splitOn_eq_subParts s with hs | hs
  · rwa [hs]
  · rw [hs]
    exact List.mem_append_left _ h

/-! ### The result -/

theorem moves_separated (r c : List Char) : moves (separated r ++ c) = moves r ++ moves c := by
  unfold separated
  split_ifs with h
  · rw [h]
    rfl
  · rw [append_assoc, List.singleton_append, moves_append]

variable {c r : List Char} {ts : List (List Char)}

theorem moves_pushComponent (r : List Char) (h : '/' ∉ c) :
    moves (pushComponent r c) = moves r ++ (moveOf c).toList := by
  rw [← moves_component h]
  unfold pushComponent
  split_ifs with hc
  · exact moves_separated r c
  · rw [not_not.mp hc, ← append_nil (separated r)]
    exact moves_separated r []

theorem moves_foldl_pushUp (fs : List (List Char)) (r : List Char) :
    moves (fs.foldl pushUp r) = moves r ++ replicate fs.length .up := by
  induction fs generalizing r with
  | nil => exact (append_nil _).symm
  | cons f fs ih =>
    have hr : moves (pushUp r f) = moves r ++ [.up] := moves_separated r ['.', '.']
    rw [List.foldl_cons, ih, hr, List.length_cons, List.replicate_succ, append_assoc]
    rfl

theorem moves_foldl_pushComponent (h : ∀ t ∈ ts, '/' ∉ t) (r : List Char) :
    moves (ts.foldl pushComponent r) = moves r ++ ts.filterMap moveOf := by
  induction ts generalizing r with
  | nil => exact (append_nil _).symm
  | cons t ts ih =>
    rw [List.foldl_cons, ih (fun t ht => h t (.tail _ ht)),
      moves_pushComponent r (h t (.head _)), append_assoc, List.filterMap_cons]
    cases moveOf t <;> rfl

theorem isAbsolute_separated (hr : isAbsolute r = false) (hc : '/' ∉ c) :
    isAbsolute (separated r ++ c) = false := by
  unfold separated
  split_ifs with h
  · rw [h]
    exact decide_eq_false fun hd => hc (List.mem_of_head? hd)
  · rw [append_assoc, isAbsolute_append h, hr]

theorem isAbsolute_pushComponent (hr : isAbsolute r = false) (hc : '/' ∉ c) :
    isAbsolute (pushComponent r c) = false := by
  unfold pushComponent
  split_ifs
  · exact isAbsolute_separated hr hc
  · rw [← append_nil (separated r)]
    exact isAbsolute_separated hr List.not_mem_nil

section Relative

variable (cwd : Dir) (fromRef toRef : List Char)

theorem not_mem_leftOver : ∀ t ∈ (leftOver cwd fromRef toRef).2, '/' ∉ t := by
  intro t ht
  have h := (commonStart_append (subParts (absRef cwd fromRef)) (subParts (absRef cwd toRef))).2
  exact not_mem_of_mem_subParts (h ▸ List.mem_append_right _ ht)

/-- **The moves of the result**: up once for each component left of `from`, then the rest of
`to`. -/
theorem moves_relative : moves (relative cwd fromRef toRef) =
    replicate (leftOver cwd fromRef toRef).1.length .up ++
      (leftOver cwd fromRef toRef).2.filterMap moveOf := by
  have htext := moves_foldl_pushComponent (not_mem_leftOver cwd fromRef toRef)
    ((leftOver cwd fromRef toRef).1.foldl pushUp [])
  rw [moves_foldl_pushUp, moves_nil, List.nil_append] at htext
  unfold relative
  dsimp only
  split_ifs with h h0
  · rw [← h, leftOver, skipCommon_self]
    rfl
  · rw [← htext, h0]
    rfl
  · exact htext

theorem isAbsolute_relative : isAbsolute (relative cwd fromRef toRef) = false := by
  unfold relative
  dsimp only
  split_ifs
  · rfl
  · rfl
  · refine List.foldlRecOn (motive := fun r => isAbsolute r = false) _ _ ?_ fun r hr t ht =>
      isAbsolute_pushComponent hr (not_mem_leftOver cwd fromRef toRef t ht)
    exact List.foldlRecOn (motive := fun r => isAbsolute r = false) _ _ rfl fun r hr _ _ =>
      isAbsolute_separated hr (by decide)

end Relative

/-! ### Levels -/

theorem countP_filterMap_le (fs : List (List Char)) (h : ∀ f ∈ fs, '/' ∉ f) :
    (fs.filterMap moveOf).countP Move.isDown ≤ fs.countP (IsName ·) := by
  rw [List.countP_filterMap]
  refine List.countP_mono_left fun f hf hdown => ?_
  match hm : moveOf f with
  | none | some .up => cases hm ▸ hdown
  | some (.down n) =>
    rw [(moveOf_eq_down hm).1]
    exact decide_eq_true (isName_of_moveOf (h f hf) hm)

variable {fs : List (List Char)}

theorem filterMap_names (h : ∀ f ∈ fs, IsName f) :
    fs.filterMap moveOf = fs.map .down := by
  rw [List.filterMap_congr fun f hf => moveOf_name (h f hf)]
  exact congrFun (List.filterMap_eq_map' ..) fs

theorem length_normal_filterMap_le (fs : List (List Char)) (h : ∀ f ∈ fs, '/' ∉ f) :
    (normal (fs.filterMap moveOf)).2.length ≤ fs.length :=
  Nat.le_trans (length_normal_le _)
    (Nat.le_trans (countP_filterMap_le fs h) List.countP_le_length)

/-- The levels by which one `..` for each component goes above the start of the components. -/
def overshoot (fs : List (List Char)) : ℕ :=
  (normal (fs.filterMap moveOf)).1 + (fs.length - (normal (fs.filterMap moveOf)).2.length)

theorem overshoot_eq_zero_iff (h : ∀ f ∈ fs, '/' ∉ f) :
    overshoot fs = 0 ↔ ∀ f ∈ fs, IsName f := by
  constructor
  · intro h0
    have h1 := length_normal_le (fs.filterMap moveOf)
    have h2 := countP_filterMap_le fs h
    have h3 : fs.countP (IsName ·) ≤ fs.length := List.countP_le_length
    unfold overshoot at h0
    have hc : fs.countP (IsName ·) = fs.length := by omega
    exact fun f hf => of_decide_eq_true (List.countP_eq_length.mp hc f hf)
  · intro hn
    unfold overshoot
    rw [filterMap_names hn, ← List.reverse_reverse fs, normal_map_down]
    simp

theorem walk_back (dir fs : List (List Char)) (h : ∀ f ∈ fs, '/' ∉ f) :
    walk dir (fs.filterMap moveOf ++ replicate fs.length .up) = dir.drop (overshoot fs) := by
  rw [walk_append, walk_replicate_up, walk_eq, List.drop_append,
    List.drop_of_length_le (length_normal_filterMap_le fs h), List.nil_append, drop_drop]
  rfl

theorem drop_eq_drop_iff (dir : List (List Char)) (k v : ℕ) :
    (dir.drop k).drop v = dir.drop v ↔ k = 0 ∨ dir.length ≤ v := by
  constructor
  · intro h
    have hlen := congrArg List.length h
    rw [drop_drop, List.length_drop, List.length_drop] at hlen
    omega
  · rintro (rfl | h)
    · rfl
    · rw [drop_drop, List.drop_of_length_le h, List.drop_of_length_le (by omega)]

/-- **Relative** leads from one absolute path to the other exactly when every component left of the
first is a name, or when the rest of the second climbs to the root anyway. -/
theorem relative_reaches_iff (cwd : Dir) (fromRef toRef : List Char)
    (hf : isAbsolute fromRef = true) (ht : isAbsolute toRef = true) :
    place (place cwd.names fromRef) (relative cwd fromRef toRef) = place cwd.names toRef ↔
      (∀ c ∈ (skipCommon (subParts fromRef) (subParts toRef)).1, IsName c) ∨
        (walk [] ((commonStart (subParts fromRef) (subParts toRef)).filterMap moveOf)).length ≤
          (normal ((skipCommon (subParts fromRef) (subParts toRef)).2.filterMap moveOf)).1 := by
  have hrest : leftOver cwd fromRef toRef = skipCommon (subParts fromRef) (subParts toRef) := by
    unfold leftOver absRef
    rw [if_pos hf, if_pos ht]
  obtain ⟨hfs, hts⟩ := commonStart_append (subParts fromRef) (subParts toRef)
  have hsep : ∀ f ∈ (skipCommon (subParts fromRef) (subParts toRef)).1, '/' ∉ f := fun f h =>
    not_mem_of_mem_subParts (hfs ▸ List.mem_append_right _ h)
  unfold place
  rw [isAbsolute_relative, if_neg Bool.false_ne_true, if_pos hf, if_pos ht, moves_relative, hrest,
    ← filterMap_subParts fromRef, ← filterMap_subParts toRef, ← overshoot_eq_zero_iff hsep]
  generalize hP : commonStart (subParts fromRef) (subParts toRef) = P at *
  generalize hF : (skipCommon (subParts fromRef) (subParts toRef)).1 = F at *
  generalize hT : (skipCommon (subParts fromRef) (subParts toRef)).2 = T at *
  rw [← hfs, ← hts, List.filterMap_append, List.filterMap_append, ← walk_append,
    append_assoc, ← append_assoc (F.filterMap moveOf), walk_append, walk_append,
    walk_back _ _ hsep, walk_append, walk_eq (List.drop _ _), walk_eq (walk [] _) (T.filterMap _),
    List.append_right_inj, drop_eq_drop_iff]

theorem relative_reaches_sibling :
    place (place [] "/a/b".toList) (relative ⟨[], by simp⟩ "/a/b".toList "/a/c".toList) =
      place [] "/a/c".toList :=
  (relative_reaches_iff ⟨[], by simp⟩ "/a/b".toList "/a/c".toList rfl rfl).mpr
    (.inl (by decide))

/-- `relative("/a//b", "/a/c")` is `../../c`, which leads from `/a//b` to `/c`. -/
theorem relative_counts_empty :
    relative ⟨[], by simp⟩ "/a//b".toList "/a/c".toList = "../../c".toList ∧
      place (place [] "/a//b".toList) "../../c".toList = ["c".toList] ∧
      place [] "/a/c".toList = ["c".toList, "a".toList] := by
  decide

end RasterRuntime.Path
