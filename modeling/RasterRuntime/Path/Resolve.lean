import RasterRuntime.Path.JoinResolve

/-! # `path.resolve`

What `resolve` should return is the lexical resolution of its parts, `lexicalResolve`. What it does
return is that text or the same text without its first separator. `Climb` says which: it follows the
moves with two counters, how much is left of the current directory and how many names are on the
index stack.

* A `..` that climbs out of the last name of the current directory, or out of `/`, cuts the text
  before its first separator, and the root is lost.
* A part that starts at the root restores it, but keeps the index stack. If the first name on it was
  pushed while the root was lost, its index is 0, and the `..` that pops it loses the root again.

The proof ties the text and the stack to the names by `Rep`. -/

namespace RasterRuntime.Path

open Lexical
open List (cons_ne_nil foldl_cons length_cons length_eq_zero_iff length_tail)

/-- The lexical resolution of the parts. -/
def lexicalResolve (cwd : Dir) (parts : List (List Char)) : List (List Char) :=
  parts.foldl place cwd.names

/-- What decides whether the root is lost: the names left of the current directory, whether no part
has restarted the path, the height of the index stack, and whether its lowest index is 0. -/
structure Climb where
  left : ℕ
  fromCwd : Bool
  lost : Bool
  depth : ℕ
  hollow : Bool
  deriving DecidableEq, Repr

def Climb.move (c : Climb) : Move (List Char) → Climb
  | .down _ =>
    { c with depth := c.depth + 1, hollow := if c.depth = 0 then c.lost else c.hollow }
  | .up =>
    if c.depth = 0 then
      if c.fromCwd then { c with left := c.left - 1, lost := c.lost || decide (c.left ≤ 1) } else c
    else { c with depth := c.depth - 1, lost := c.lost || (decide (c.depth = 1) && c.hollow) }

def Climb.part (c : Climb) (p : List Char) : Climb :=
  (moves p).foldl Climb.move
    (if isAbsolute p then { c with fromCwd := false, lost := false } else c)

/-- How the parts climb from the current directory. -/
def climb (cwd : Dir) (parts : List (List Char)) : Climb :=
  parts.foldl Climb.part ⟨cwd.names.length, true, false, 0, false⟩

/-! ### The text and the stack -/

/-- The text below the names: that of a directory, or nothing once the root is lost. -/
def baseText (lost : Bool) (base : List (List Char)) : List Char := if lost then [] else render base

/-- Every index is positive, except that the lowest is 0 when the stack is hollow. -/
def Bottomed (hollow : Bool) : List ℕ → Prop
  | [] => True
  | [i] => i = 0 ↔ hollow = true
  | i :: j :: is => 0 < i ∧ Bottomed hollow (j :: is)

theorem render_ne_nil (dir : List (List Char)) : render dir ≠ [] := by
  unfold render
  split_ifs with h
  · exact cons_ne_nil _ _
  · obtain ⟨n, dir, rfl⟩ := List.exists_cons_of_ne_nil h
    exact List.append_ne_nil_of_right_ne_nil _ (cons_ne_nil _ _)

theorem length_baseText (lost : Bool) (base : List (List Char)) :
    (baseText lost base).length = 0 ↔ lost := by
  rw [length_eq_zero_iff]
  cases lost with
  | true => exact ⟨fun _ => rfl, fun _ => rfl⟩
  | false => exact ⟨fun h => absurd h (render_ne_nil base), nofun⟩

theorem eq_nil_of_idxOf {bt : List Char} {ns : List (List Char)} {stale : List ℕ}
    (h : idxOf bt ns ++ stale = []) : ns = [] := by
  cases ns with
  | nil => rfl
  | cons n ns => cases h

theorem length_textOf_pos (bt n : List Char) (ns : List (List Char)) :
    0 < (textOf bt (n :: ns)).length := by
  show 0 < (sealed (textOf bt ns) ++ n ++ ['/']).length
  rw [List.length_append]
  exact Nat.succ_pos _

variable {hollow : Bool} {i : ℕ} {is : List ℕ}

theorem Bottomed.tail (h : Bottomed hollow (i :: is)) :
    Bottomed hollow is := by
  cases is with
  | nil => trivial
  | cons j is => exact h.2

theorem Bottomed.cons (h : Bottomed hollow is) (hi : is ≠ [] → 0 < i)
    (h0 : is = [] → (i = 0 ↔ hollow)) : Bottomed hollow (i :: is) := by
  cases is with
  | nil => exact h0 rfl
  | cons j is => exact ⟨hi (cons_ne_nil _ _), h⟩

/-- The variables of the loop stand for the directory `dir`: the names `ns` pushed since the last
restart, below them the rest of the current directory or the root, and old indexes under theirs. -/
structure Rep (j : Joining) (c : Climb) (dir ns base : List (List Char)) (stale : List ℕ) :
    Prop where
  dir_eq : dir = ns ++ base
  result_eq : j.result = textOf (baseText c.lost base) ns
  stack_eq : j.indexStack = idxOf (baseText c.lost base) ns ++ stale
  empty_eq : j.empty = c.fromCwd
  fromCwd : c.fromCwd = true → base.length = c.left ∧ stale = []
  restarted : c.fromCwd = false → base = []
  lost : c.lost = true → base = [] ∧ stale = []
  depth_eq : c.depth = j.indexStack.length
  bottom : Bottomed c.hollow j.indexStack
  isName : ∀ n ∈ base, IsName n

/-- The variables of the loop stand for a directory. -/
def Stands (j : Joining) (c : Climb) (dir : List (List Char)) : Prop :=
  ∃ ns base stale, Rep j c dir ns base stale

section Step

variable {j : Joining} {c : Climb} {dir ns base : List (List Char)} {stale : List ℕ}

theorem Rep.down (h : Rep j c dir ns base stale) (n : List Char) :
    Stands (j.down n) (c.move (.down n)) (n :: dir) := by
  refine ⟨n :: ns, base, stale, { h with
    dir_eq := ?dir_eq, result_eq := ?result_eq, stack_eq := ?stack_eq
    depth_eq := congrArg (· + 1) h.depth_eq, bottom := ?bottom }⟩
  case dir_eq => rw [h.dir_eq, List.cons_append]
  case result_eq =>
    show sealed j.result ++ n ++ ['/'] = _
    rw [h.result_eq]
    rfl
  case stack_eq =>
    show j.result.length :: j.indexStack = _
    rw [h.result_eq, h.stack_eq]
    rfl
  case bottom =>
    show Bottomed (if c.depth = 0 then c.lost else c.hollow) (j.result.length :: j.indexStack)
    by_cases hs : j.indexStack = []
    · -- the first name: its index is the length of the base
      rw [if_pos (by rw [h.depth_eq, hs]; rfl)]
      rw [hs, h.result_eq, eq_nil_of_idxOf (h.stack_eq.symm.trans hs)]
      exact length_baseText c.lost base
    · rw [if_neg (by rw [h.depth_eq]; exact fun h0 => hs (length_eq_zero_iff.mp h0))]
      refine h.bottom.cons (fun _ => ?_) fun h0 => absurd h0 hs
      rw [h.result_eq]
      cases ns with
      | cons n ns => exact length_textOf_pos _ _ _
      | nil =>
        refine Nat.pos_of_ne_zero fun h0 => hs ?_
        rw [h.stack_eq, (h.lost ((length_baseText _ _).mp h0)).2]
        rfl

theorem move_up_of_depth (h : c.depth ≠ 0) : c.move .up =
    { c with depth := c.depth - 1, lost := c.lost || (decide (c.depth = 1) && c.hollow) } :=
  if_neg h

variable {n : List Char}

theorem Rep.up_name (h : Rep j c dir (n :: ns) base stale) :
    Stands j.up (c.move .up) dir.tail := by
  have hs : j.indexStack = (textOf (baseText c.lost base) ns).length ::
      (idxOf (baseText c.lost base) ns ++ stale) := h.stack_eq
  have hd : c.depth ≠ 0 := by rw [h.depth_eq, hs]; exact Nat.succ_ne_zero _
  have hb := h.bottom
  rw [hs] at hb
  -- the lowest index is 0 only if the root is lost already
  have hl : (c.lost || (decide (c.depth = 1) && c.hollow)) = c.lost := by
    rcases hc : c.lost with _ | _
    · rw [Bool.false_or, Bool.and_eq_false_imp]
      intro h1
      have h0 : idxOf (baseText c.lost base) ns ++ stale = [] := by
        have := h.depth_eq.symm.trans (of_decide_eq_true h1)
        rw [hs, length_cons] at this
        exact length_eq_zero_iff.mp (by omega)
      obtain rfl := eq_nil_of_idxOf h0
      rw [h0] at hb
      have hh : (baseText c.lost base).length = 0 ↔ c.hollow := hb
      rw [length_baseText, hc] at hh
      exact Bool.eq_false_iff.mpr fun h => absurd (hh.mpr h) (by decide)
    · rfl
  rw [move_up_of_depth hd, hl, Joining.up_cons hs]
  refine ⟨ns, base, stale, { h with
    dir_eq := ?dir_eq, result_eq := ?result_eq, stack_eq := rfl
    depth_eq := ?depth_eq, bottom := hb.tail }⟩
  case dir_eq => rw [h.dir_eq]; rfl
  case result_eq =>
    rw [h.result_eq]
    exact take_textOf _ _ _
  case depth_eq =>
    rw [h.depth_eq, hs]
    rfl

/-- A `..` at the root that pops an index from before the restart. -/
theorem Rep.up_stale (h : Rep j c dir [] base (i :: is)) :
    Stands j.up (c.move .up) dir.tail := by
  have hs : j.indexStack = i :: is := h.stack_eq
  have hd : c.depth ≠ 0 := by rw [h.depth_eq, hs]; exact Nat.succ_ne_zero _
  have hc : c.fromCwd = false := Bool.eq_false_iff.mpr fun hc => by
    exact absurd (h.fromCwd hc).2 (cons_ne_nil _ _)
  have hl : c.lost = false := Bool.eq_false_iff.mpr fun hl => by
    exact absurd (h.lost hl).2 (cons_ne_nil _ _)
  obtain rfl : base = [] := h.restarted hc
  have hr : j.result = ['/'] := by rw [h.result_eq, hl]; rfl
  have hb := h.bottom
  rw [hs] at hb
  -- the text is cut before its separator exactly when the index is 0
  have hcut : j.result.take i =
      baseText (c.lost || (decide (c.depth = 1) && c.hollow)) [] := by
    rw [hr, hl, Bool.false_or]
    cases is with
    | nil =>
      have h1 : c.depth = 1 := by rw [h.depth_eq, hs]; rfl
      have hb' : i = 0 ↔ c.hollow := hb
      rw [decide_eq_true h1, Bool.true_and]
      cases hh : c.hollow with
      | true => rw [hb'.mpr hh]; rfl
      | false =>
        refine List.take_of_length_le (Nat.pos_of_ne_zero fun h0 => ?_)
        rw [hb'.mp h0] at hh
        cases hh
    | cons k is =>
      have h1 : c.depth ≠ 1 := by rw [h.depth_eq, hs]; simp
      rw [decide_eq_false h1]
      exact List.take_of_length_le hb.1
  rw [move_up_of_depth hd, Joining.up_cons hs]
  refine ⟨[], [], is, { h with
    dir_eq := ?dir_eq, result_eq := hcut, stack_eq := rfl, fromCwd := ?fromCwd
    lost := ?lost, depth_eq := ?depth_eq, bottom := hb.tail }⟩
  case dir_eq => rw [h.dir_eq]; rfl
  case fromCwd => exact fun h => absurd (hc.symm.trans h) (by decide)
  case lost =>
    intro hlost
    refine ⟨rfl, ?_⟩
    have hlost : (c.lost || (decide (c.depth = 1) && c.hollow)) := hlost
    rw [hl, Bool.false_or, Bool.and_eq_true, decide_eq_true_eq] at hlost
    have := h.depth_eq.symm.trans hlost.1
    rw [hs, length_cons] at this
    exact length_eq_zero_iff.mp (by omega)
  case depth_eq =>
    rw [h.depth_eq, hs]
    rfl

theorem findLastSep_render (hn : IsName n) (base : List (List Char)) :
    findLastSep (render (n :: base)) = some (trail base).length :=
  findLastSep_append hn.2.2.2

theorem take_render (n : List Char) (base : List (List Char)) :
    (render (n :: base)).take (trail base).length = trail base := List.take_left

theorem Joining.up_nil (h : j.indexStack = []) (he : j.empty) :
    j.up = { j with result := ((findLastSep j.result).elim j.result j.result.take) } := by
  unfold Joining.up
  rw [h, he]
  rw [if_pos rfl]
  cases findLastSep j.result with
  | none =>
    obtain ⟨r, is, e⟩ := j
    obtain rfl : is = [] := h
    obtain rfl : e := he
    rfl
  | some i => rfl

theorem Rep.take_cwd (h : Rep j c dir [] base []) (hc : c.fromCwd) :
    (findLastSep j.result).elim j.result j.result.take =
      baseText (c.lost || decide (c.left ≤ 1)) base.tail := by
  have hr : j.result = baseText c.lost base := h.result_eq
  have hleft : base.length = c.left := (h.fromCwd hc).1
  rw [hr]
  cases hl : c.lost with
  | true => rfl
  | false =>
    rw [Bool.false_or]
    show (findLastSep (render base)).elim (render base) (render base).take = _
    cases base with
    | nil =>
      rw [decide_eq_true (by rw [← hleft]; exact Nat.zero_le _)]
      rfl
    | cons n base =>
      rw [findLastSep_render (h.isName n List.mem_cons_self), Option.elim_some, take_render]
      cases base with
      | nil =>
        rw [decide_eq_true (by rw [← hleft]; exact Nat.le_refl _)]
        rfl
      | cons m base =>
        rw [decide_eq_false (by rw [← hleft]; simp)]
        rfl

theorem Rep.up_base (h : Rep j c dir [] base []) : Stands j.up (c.move .up) dir.tail := by
  have hs : j.indexStack = [] := h.stack_eq
  have hd : c.depth = 0 := by rw [h.depth_eq, hs]; rfl
  cases hc : c.fromCwd with
  | false =>
    obtain rfl : base = [] := h.restarted hc
    have hj : j.up = j := by
      unfold Joining.up
      rw [hs, h.empty_eq, hc]
      rfl
    have hm : c.move .up = c := by
      show (if _ then _ else _) = c
      rw [if_pos hd, hc]
      rfl
    rw [hj, hm]
    refine ⟨[], [], [], ?_⟩
    obtain rfl := h.dir_eq
    exact h
  | true =>
    have hm : c.move .up =
        { c with left := c.left - 1, lost := c.lost || decide (c.left ≤ 1) } := by
      show (if _ then _ else _) = _
      rw [if_pos hd, hc]
      rfl
    rw [hm, Joining.up_nil hs (h.empty_eq.trans hc)]
    refine ⟨[], base.tail, [], { h with
      dir_eq := ?dir_eq, result_eq := h.take_cwd hc, fromCwd := ?fromCwd
      restarted := ?restarted, lost := ?lost, isName := ?isName }⟩
    case dir_eq => rw [h.dir_eq]; rfl
    case fromCwd =>
      intro _
      refine ⟨?_, rfl⟩
      rw [length_tail, (h.fromCwd hc).1]
    case restarted => exact fun h => absurd (hc.symm.trans h) (by decide)
    case lost =>
      intro hlost
      refine ⟨?_, rfl⟩
      have hlost : (c.lost || decide (c.left ≤ 1)) := hlost
      rw [Bool.or_eq_true, decide_eq_true_eq] at hlost
      rcases hlost with hl | hl
      · rw [(h.lost hl).1]
        rfl
      · refine length_eq_zero_iff.mp ?_
        rw [length_tail, (h.fromCwd hc).1]
        omega
    case isName => exact fun n hn => h.isName n (List.mem_of_mem_tail hn)

/-- **One move** keeps the representation. -/
theorem Stands.move (h : Stands j c dir) (m : Move (List Char)) :
    Stands (j.move m) (c.move m) (m.from dir) := by
  obtain ⟨ns, base, stale, h⟩ := h
  cases m with
  | down n => exact h.down n
  | up =>
    cases ns with
    | cons n ns => exact h.up_name
    | nil =>
      cases stale with
      | cons i is => exact h.up_stale
      | nil => exact h.up_base

theorem Stands.moves (h : Stands j c dir) (ms : List (Move (List Char))) :
    Stands (ms.foldl Joining.move j) (ms.foldl Climb.move c) (walk dir ms) := by
  induction ms generalizing j c dir with
  | nil => exact h
  | cons m ms ih => exact ih (h.move m)

theorem Stands.restart (h : Stands j c dir) :
    Stands { j with result := ['/'], empty := false } { c with fromCwd := false, lost := false }
      [] := by
  obtain ⟨ns, base, stale, h⟩ := h
  refine ⟨[], [], j.indexStack, ?_⟩
  constructor
  case fromCwd => exact nofun
  case lost => exact nofun
  case depth_eq => exact h.depth_eq
  case bottom => exact h.bottom
  case isName => exact nofun
  all_goals first | rfl | exact fun _ => rfl

/-- **One part** keeps the representation. -/
theorem Stands.part (h : Stands j c dir) (p : List Char) :
    Stands (j.part true p) (c.part p) (place dir p) := by
  rw [part_resolve]
  unfold Climb.part place
  cases isAbsolute p with
  | true => exact h.restart.moves _
  | false => exact h.moves _

theorem Stands.parts (h : Stands j c dir) (parts : List (List Char)) :
    Stands (parts.foldl (Joining.part true) j) (parts.foldl Climb.part c)
      (parts.foldl place dir) := by
  induction parts generalizing j c dir with
  | nil => exact h
  | cons p parts ih => exact ih (h.part p)

end Step

/-! ### The result -/

theorem endsWithSep_name {n : List Char} (h : IsName n) (s : List Char) :
    endsWithSep (s ++ '/' :: n) = false := by
  rw [show s ++ '/' :: n = (s ++ ['/']) ++ n by simp, endsWithSep_append h.1,
    endsWithSep_of_not_mem h.2.2.2]

theorem trail_ne_nil (n : List Char) (dir : List (List Char)) : trail (n :: dir) ≠ [] :=
  List.append_ne_nil_of_right_ne_nil _ (cons_ne_nil _ _)

variable {dir : List (List Char)} {p : List Char}

theorem trimEnd_render (h : ∀ n ∈ dir, IsName n) :
    trimEnd (render dir) = render dir := by
  cases dir with
  | nil => rfl
  | cons n dir => exact trimEnd_of_not_sep (endsWithSep_name (h n (.head _)) _)

theorem sealed_render (h : ∀ n ∈ dir, IsName n) :
    sealed (render dir) = trail dir ++ ['/'] := by
  cases dir with
  | nil => rfl
  | cons n dir =>
    refine if_neg (not_or.mpr ⟨?_, trail_ne_nil n dir⟩)
    rw [show render (n :: dir) = trail (n :: dir) from rfl, trail,
      endsWithSep_name (h n (.head _))]
    decide

variable {base : List (List Char)}

theorem sealed_textOf_render (h : ∀ n ∈ base, IsName n) (ns : List (List Char)) :
    sealed (textOf (render base) ns) = trail (ns ++ base) ++ ['/'] := by
  induction ns with
  | nil => exact sealed_render h
  | cons n ns ih =>
    rw [textOf, sealed_of_sep (endsWithSep_concat _), ih]
    simp [trail]

theorem sealed_textOf_nil (ns : List (List Char)) : sealed (textOf [] ns) = textOf [] ns := by
  cases ns with
  | nil => rfl
  | cons n ns => exact sealed_of_sep (endsWithSep_concat _)

theorem textOf_nil (ns : List (List Char)) : textOf [] ns = (trail ns ++ ['/']).tail := by
  induction ns with
  | nil => rfl
  | cons n ns ih =>
    rw [textOf, sealed_textOf_nil, ih, ← List.tail_append_of_ne_nil (by simp),
      ← List.tail_append_of_ne_nil (by simp)]
    simp [trail]

theorem trimEnd_textOf (lost : Bool) {ns : List (List Char)} (hb : ∀ n ∈ base, IsName n)
    (hn : ∀ n ∈ ns, IsName n) (hl : lost → base = []) :
    trimEnd (textOf (baseText lost base) ns) =
      if lost then (render (ns ++ base)).tail else render (ns ++ base) := by
  cases lost with
  | false =>
    cases ns with
    | nil => exact trimEnd_render hb
    | cons n ns =>
      show trimEnd (sealed (textOf (render base) ns) ++ n ++ ['/']) = trail (n :: (ns ++ base))
      rw [sealed_textOf_render hb, trimEnd_concat (by simp)]
      simp [trail]
  | true =>
    obtain rfl := hl rfl
    show trimEnd (textOf [] ns) = (render (ns ++ [])).tail
    rw [List.append_nil]
    cases ns with
    | nil => rfl
    | cons n ns =>
      have hne : (trail (n :: ns)).tail ≠ [] := by
        intro h
        have hlen := congrArg List.length h
        have := List.length_pos_iff.mpr (hn n List.mem_cons_self).1
        simp only [trail, length_tail, List.length_append, length_cons,
          List.length_nil] at hlen
        omega
      rw [textOf_nil, List.tail_append_of_ne_nil (trail_ne_nil n ns), trimEnd_concat hne]
      rfl

variable (cwd : Dir) (parts : List (List Char))

theorem isName_lexicalResolve : ∀ n ∈ lexicalResolve cwd parts, IsName n := by
  refine parts.foldlRecOn (motive := fun dir => ∀ n ∈ dir, IsName n) place cwd.isName
    fun dir h p _ => mem_walk ?_ fun n hn => isName_of_mem_moves hn
  split_ifs
  · exact nofun
  · exact h

theorem stands_start :
    Stands ⟨render cwd.names, [], true⟩ ⟨cwd.names.length, true, false, 0, false⟩ cwd.names := by
  refine ⟨[], cwd.names, [], ?_⟩
  constructor
  case fromCwd => exact fun _ => ⟨rfl, rfl⟩
  case restarted => exact fun h => absurd h.symm Bool.false_ne_true
  case lost => exact nofun
  case bottom => trivial
  case isName => exact cwd.isName
  all_goals rfl

/-- The text that the loop starts with is that of the current directory. -/
theorem trimEnd_start :
    trimEnd (if endsWithSep cwd.text then cwd.text else cwd.text ++ ['/']) = render cwd.names := by
  split_ifs with h
  · exact trimEnd_render cwd.isName
  · exact trimEnd_concat (render_ne_nil _)

/-- **A run**: after all parts the variables stand for the lexical resolution. -/
theorem stands_run :
    Stands (parts.foldl (Joining.part true) ⟨render cwd.names, [], true⟩) (climb cwd parts)
      (lexicalResolve cwd parts) := (stands_start cwd).parts parts

/-- **The result**: the text of the lexical resolution, without its first separator once the root is
lost. -/
theorem resolvePath_eq : resolvePath cwd parts =
      if (climb cwd parts).lost then (render (lexicalResolve cwd parts)).tail
      else render (lexicalResolve cwd parts) := by
  obtain ⟨ns, base, stale, h⟩ := stands_run cwd parts
  have hd := isName_lexicalResolve cwd parts
  unfold resolvePath joinResolvePath
  rw [trimEnd_start, h.result_eq, h.dir_eq]
  rw [h.dir_eq] at hd
  exact trimEnd_textOf _ (fun n hn => hd n (List.mem_append_right _ hn))
    (fun n hn => hd n (List.mem_append_left _ hn)) fun hl => (h.lost hl).1

/-- An absolute path without a separator at its end, unless it is the root. -/
def Canonical (path : List Char) : Prop :=
  isAbsolute path = true ∧ (endsWithSep path = true → path = ['/'])

theorem isAbsolute_trail (n : List Char) (dir : List (List Char)) :
    isAbsolute (trail (n :: dir)) := by
  induction dir generalizing n with
  | nil => rfl
  | cons m dir ih =>
    rw [trail, isAbsolute_append (trail_ne_nil m dir)]
    exact ih m

theorem canonical_render (h : ∀ n ∈ dir, IsName n) :
    Canonical (render dir) := by
  cases dir with
  | nil => exact ⟨rfl, fun _ => rfl⟩
  | cons n dir =>
    refine ⟨isAbsolute_trail n dir, fun he => ?_⟩
    have he : endsWithSep (trail dir ++ '/' :: n) := he
    rw [endsWithSep_name (h n (.head _))] at he
    cases he

/-! ### One part -/

/-- Moves keep the root, from the root or from a directory that they do not climb out of. -/
theorem lost_foldl_move : ∀ (ms : List (Move (List Char))) (p : ℕ × List (List Char)) (c : Climb),
    c.lost = false → c.hollow = false → c.depth = p.2.length →
    (c.fromCwd → (ms.foldl Move.after p).1 < c.left + p.1) →
    (ms.foldl Climb.move c).lost = false
  | [], _, _, hl, _, _, _ => hl
  | .down n :: ms, (u, ns), c, hl, hh, hd, hleft => by
    have ha : Move.after (u, ns) (.down n) = (u, n :: ns) := by cases ns <;> rfl
    rw [foldl_cons, ha] at hleft
    refine lost_foldl_move ms (u, n :: ns) (c.move (.down n)) hl ?_ ?_ hleft
    · show (if c.depth = 0 then c.lost else c.hollow) = false
      split_ifs
      · exact hl
      · exact hh
    · exact congrArg (· + 1) hd
  | .up :: ms, (u, n :: ns), c, hl, hh, hd, hleft => by
    have hd0 : c.depth ≠ 0 := by rw [hd]; exact Nat.succ_ne_zero _
    rw [foldl_cons, move_up_of_depth hd0]
    refine lost_foldl_move ms (u, ns) _ ?_ hh ?_ hleft
    · rw [hl, hh, Bool.and_false]
      rfl
    · rw [hd]
      rfl
  | .up :: ms, (u, []), c, hl, hh, hd, hleft => by
    have hd0 : c.depth = 0 := hd
    have hm : c.move .up = if c.fromCwd then
        { c with left := c.left - 1, lost := c.lost || decide (c.left ≤ 1) } else c := if_pos hd0
    rw [foldl_cons, hm]
    rw [foldl_cons] at hleft
    have hmono := fst_le_foldl_after ms (Move.after (u, ([] : List (List Char))) .up)
    have hmono : u + 1 ≤ (ms.foldl Move.after (u + 1, [])).1 := hmono
    cases hc : c.fromCwd with
    | false =>
      rw [if_neg Bool.false_ne_true]
      exact lost_foldl_move ms (u + 1, []) c hl hh hd fun h => absurd (hc.symm.trans h) (by decide)
    | true =>
      have hlt : (ms.foldl Move.after (u + 1, [])).1 < c.left + u := hleft hc
      rw [if_pos rfl]
      refine lost_foldl_move ms (u + 1, []) _ ?_ hh hd fun _ => ?_
      · show (c.lost || decide (c.left ≤ 1)) = false
        rw [hl, decide_eq_false (by omega)]
        rfl
      · show _ < c.left - 1 + (u + 1)
        omega

theorem resolvePath_one (hu : isAbsolute p = false → (normal (moves p)).1 < cwd.names.length) :
    resolvePath cwd [p] = render (place cwd.names p) := by
  have hl : (climb cwd [p]).lost = false := by
    refine lost_foldl_move (moves p) (0, []) _ ?_ ?_ ?_ ?_
    all_goals cases hp : isAbsolute p
    case refine_4.false => exact fun _ => hu hp
    case refine_4.true => exact nofun
    all_goals rfl
  rw [resolvePath_eq, hl]
  rfl

theorem resolvePath_absolute (h : isAbsolute p) :
    resolvePath cwd [p] = render (walk [] (moves p)) := by
  rw [resolvePath_one cwd fun hp => by simp [h] at hp, place, if_pos h]

theorem resolvePath_relative (h : isAbsolute p = false)
    (hu : (normal (moves p)).1 < cwd.names.length) :
    resolvePath cwd [p] = render (walk cwd.names (moves p)) := by
  rw [resolvePath_one cwd fun _ => hu, place, if_neg (by simp [h])]

/-! ### The lexical resolution -/

/-- **Resolve** returns the lexical resolution, an absolute path without a separator at its end,
exactly when the root is not lost on the way. -/
theorem resolvePath_lexical_iff (cwd : Dir) (parts : List (List Char)) :
    (resolvePath cwd parts = render (lexicalResolve cwd parts) ∧
      Canonical (resolvePath cwd parts)) ↔ (climb cwd parts).lost = false := by
  rw [resolvePath_eq]
  cases (climb cwd parts).lost with
  | false => exact ⟨fun _ => rfl, fun _ => ⟨rfl, canonical_render (isName_lexicalResolve _ _)⟩⟩
  | true =>
    refine ⟨fun h => ?_, nofun⟩
    have hlen := congrArg List.length h.1
    have := List.length_pos_iff.mpr (render_ne_nil (lexicalResolve cwd parts))
    rw [if_pos rfl, length_tail] at hlen
    omega

/-- From `/x`, `resolve("..", "b")` is `b`, and `resolve("..")` is empty. -/
theorem resolvePath_loses_root :
    resolvePath ⟨["x".toList], by decide⟩ ["..".toList, "b".toList] = "b".toList ∧
      render (lexicalResolve ⟨["x".toList], by decide⟩ ["..".toList, "b".toList]) = "/b".toList ∧
      resolvePath ⟨["x".toList], by decide⟩ ["..".toList] = [] := by
  decide

end RasterRuntime.Path
