import RasterRuntime.Path.JoinResolve

/-! # `path.join` and `path.normalize`

`join` should keep the meaning of its parts: read from any directory, its result leads where the
parts lead one after the other. The loop of `join_resolve_path` gives a text that has no `..` in it,
so that a relative path that climbs above its start cannot be kept, and it takes the first part with
a separator in front as the start of the path, wherever it stands.

* `joinPath_spec`: the moves of the result, and whether it is absolute, for any parts.
* `keeps_iff`: a text that only goes down has the meaning of the parts exactly when they do not
  climb above their start. -/

namespace RasterRuntime.Path

open Lexical
open List (append_assoc append_nil foldl_cons map_append)

/-- The non-empty parts with a separator between them. -/
def concat (parts : List (List Char)) : List Char :=
  ['/'].intercalate (parts.filter (· ≠ []))

/-- Whether the first non-empty part is absolute. -/
def firstAbsolute (parts : List (List Char)) : Bool := (parts.find? (· ≠ [])).any isAbsolute

/-- The text has the meaning of the parts, from every directory. -/
def Keeps (parts : List (List Char)) (result : List Char) : Prop :=
  (∀ dir : Dir, place dir.names result = place dir.names (concat parts)) ∧
    isAbsolute result = firstAbsolute parts

/-- The moves of all parts. -/
def movesOf (parts : List (List Char)) : List (Move (List Char)) := parts.flatMap moves

theorem movesOf_cons (p : List Char) (parts : List (List Char)) :
    movesOf (p :: parts) = moves p ++ movesOf parts := List.flatMap_cons

/-- The parts, the first one with a separator in front without it. -/
def dropLead : List (List Char) → List (List Char)
  | [] => []
  | p :: ps => if startsWithSep p then p.drop 1 :: ps else p :: dropLead ps

/-- The first part with a separator in front comes when nothing is left of those before it. -/
def Rooted (parts : List (List Char)) : Prop :=
  (∃ p ∈ parts, startsWithSep p = true) ∧
    walk [] (movesOf (parts.takeWhile (!startsWithSep ·))) = []

instance (parts : List (List Char)) : Decidable (Rooted parts) :=
  inferInstanceAs (Decidable ((∃ p ∈ parts, startsWithSep p = true) ∧
    walk [] (movesOf (parts.takeWhile (!startsWithSep ·))) = []))

/-! ### Texts -/

theorem moves_push (r n : List Char) : moves (sealed r ++ n ++ ['/']) = moves r ++ moves n := by
  rw [moves_append_sep]
  unfold sealed
  split_ifs with h
  · rcases h with h | h
    · obtain ⟨r', rfl⟩ := List.getLast?_eq_some_iff.mp (of_decide_eq_true h)
      rw [append_assoc, List.singleton_append, moves_append, moves_append_sep]
    · rw [h]
      rfl
  · rw [append_assoc, List.singleton_append, moves_append]

theorem isAbsolute_name {n : List Char} (h : IsName n) (s : List Char) :
    isAbsolute (n ++ s) = false := by
  rw [isAbsolute_append h.1]
  exact decide_eq_false fun hn => h.2.2.2 (List.mem_of_head? hn)

theorem isAbsolute_sealed {r : List Char} (h : r ≠ []) (s : List Char) :
    isAbsolute (sealed r ++ s) = isAbsolute r := by
  unfold sealed
  split_ifs
  · exact isAbsolute_append h _
  · rw [append_assoc, isAbsolute_append h]

/-- The separator at the end is neither a move nor what makes a path absolute. -/
theorem moves_isAbsolute_trimEnd (r : List Char) :
    moves (trimEnd r) = moves r ∧ isAbsolute (trimEnd r) = isAbsolute r := by
  by_cases h : r.length > 1 ∧ endsWithSep r
  · obtain ⟨r', rfl⟩ := List.getLast?_eq_some_iff.mp (of_decide_eq_true h.2)
    have hr : r' ≠ [] := by
      rintro rfl
      exact absurd h.1 (by simp)
    rw [trimEnd_concat hr, moves_append_sep, isAbsolute_append hr]
    exact ⟨rfl, rfl⟩
  · unfold trimEnd
    rw [if_neg h]
    exact ⟨rfl, rfl⟩

/-! ### The loop -/

/-- The text and the indexes stand for names, the last one first: cut at the top index, the text
stands for the names before. -/
def Tracks (rooted : Bool) (r : List Char) : List ℕ → List (List Char) → Prop
  | [], [] => r = if rooted then ['/'] else []
  | i :: is, n :: ns => Tracks rooted (r.take i) is ns ∧ i ≤ r.length ∧ isAbsolute r = rooted ∧
      moves r = moves (r.take i) ++ [.down n]
  | _, _ => False

/-- The variables of the loop stand for the names. -/
structure Joined (empty rooted : Bool) (ns : List (List Char)) (j : Joining) : Prop where
  tracks : Tracks rooted j.result j.indexStack ns
  empty_eq : j.empty = empty

variable {empty rooted : Bool} {r n p : List Char} {is : List ℕ} {ns : List (List Char)}
  {j : Joining}

theorem Tracks.spec (h : Tracks rooted r is ns) :
    moves r = ns.reverse.map .down ∧ isAbsolute r = rooted := by
  induction is generalizing r ns with
  | nil =>
    cases ns with
    | nil => cases rooted <;> cases h <;> exact ⟨rfl, rfl⟩
    | cons n ns => exact h.elim
  | cons i is ih =>
    cases ns with
    | nil => exact h.elim
    | cons n ns =>
      obtain ⟨ht, -, ha, hm⟩ := h
      rw [hm, (ih ht).1, List.reverse_cons, map_append]
      exact ⟨rfl, ha⟩

theorem Tracks.down (h : Tracks rooted r is ns) (hn : IsName n) :
    Tracks rooted (sealed r ++ n ++ ['/']) (r.length :: is) (n :: ns) := by
  have htake : (sealed r ++ n ++ ['/']).take r.length = r := by rw [append_assoc, take_sealed]
  have hlen := congrArg List.length htake
  rw [List.length_take] at hlen
  refine ⟨htake.symm ▸ h, by omega, ?_, by rw [htake, moves_push, moves_name hn]⟩
  rw [← h.spec.2]
  by_cases hr : r = []
  · subst hr
    exact isAbsolute_name hn _
  · rw [append_assoc, isAbsolute_sealed hr]

/-- The separator behind a name is doubled. -/
theorem Tracks.doubled (h : Tracks rooted r is (n :: ns)) :
    Tracks rooted (r ++ ['/']) is (n :: ns) := by
  cases is with
  | nil => exact h.elim
  | cons i is =>
    obtain ⟨ht, hi, ha, hm⟩ := h
    have hr : r ≠ [] := by
      rintro rfl
      simp at hm
    have htake : (r ++ ['/']).take i = r.take i := List.take_append_of_le_length hi
    refine ⟨htake.symm ▸ ht, ?_, by rw [isAbsolute_append hr, ha],
      by rw [moves_append_sep, htake, hm]⟩
    rw [List.length_append]
    omega

/-- **One move.** The text before any name is empty, or the path has been restarted. -/
theorem Joined.move (hr : empty = false ∨ rooted = false) (h : Joined empty rooted ns j)
    {m : Move (List Char)} (hm : ∀ n, m = .down n → IsName n) :
    Joined empty rooted (m.from ns) (j.move m) := by
  obtain ⟨ht, rfl⟩ := h
  cases m with
  | down n => exact ⟨ht.down (hm n rfl), rfl⟩
  | up =>
    show Joined j.empty rooted ns.tail j.up
    cases hs : j.indexStack with
    | nil =>
      cases ns with
      | cons n ns => exact (hs ▸ ht : Tracks rooted j.result [] (n :: ns)).elim
      | nil =>
        have hj : j.up = j := by
          have hres : j.result = if rooted then ['/'] else [] := by rwa [hs] at ht
          unfold Joining.up
          rw [hs]
          rcases hr with he | rfl
          · rw [he]
            rfl
          · rw [hres]
            exact ite_self j
        rw [hj]
        exact ⟨ht, rfl⟩
    | cons i is =>
      cases ns with
      | nil => exact (hs ▸ ht : Tracks rooted j.result (i :: is) []).elim
      | cons n ns =>
        rw [hs] at ht
        rw [Joining.up_cons hs]
        exact ⟨ht.1, rfl⟩

theorem Joined.moves (hr : empty = false ∨ rooted = false) (h : Joined empty rooted ns j)
    (p : List Char) :
    Joined empty rooted (walk ns (Lexical.moves p)) ((Lexical.moves p).foldl Joining.move j) := by
  have hms : ∀ n, .down n ∈ Lexical.moves p → IsName n := fun n hn => isName_of_mem_moves hn
  generalize Lexical.moves p = ms at hms ⊢
  induction ms generalizing ns j with
  | nil => exact h
  | cons m ms ih =>
    exact ih (h.move hr fun n hn => hms n (hn ▸ .head _)) fun n hn => hms n (.tail _ hn)

theorem part_join_later (j : Joining) (p : List Char)
    (h : ¬ (startsWithSep p ∧ j.empty)) :
    j.part false p = (moves p).foldl Joining.move j := by
  unfold Joining.part
  rw [if_neg Bool.false_ne_true, if_neg h, foldl_component]

/-- After the first part with a separator in front every part is read as it stands. -/
theorem Joined.later (h : Joined false rooted ns j) (parts : List (List Char)) :
    Joined false rooted (walk ns (movesOf parts)) (parts.foldl (Joining.part false) j) := by
  induction parts generalizing ns j with
  | nil => exact h
  | cons p parts ih =>
    rw [foldl_cons,
      part_join_later j p fun hp => absurd (h.empty_eq.symm.trans hp.2) Bool.false_ne_true,
      movesOf_cons, walk_append]
    exact ih (h.moves (.inl rfl) p)

/-- The first part with a separator in front restarts the path, or doubles the separator. -/
theorem Joined.lead (h : Joined true false ns j) (hp : startsWithSep p) :
    Joined false (ns = []) (walk ns (Lexical.moves (p.drop 1))) (j.part false p) := by
  have hj : Joined false (ns = []) ns { j with result := j.result ++ ['/'], empty := false } := by
    refine ⟨?_, rfl⟩
    have ht := h.tracks
    cases ns with
    | nil =>
      cases hs : j.indexStack with
      | nil =>
        rw [hs] at ht
        exact congrArg (· ++ ['/']) ht
      | cons i is =>
        rw [hs] at ht
        exact ht.elim
    | cons n ns => exact ht.doubled
  unfold Joining.part
  rw [if_neg Bool.false_ne_true, if_pos ⟨hp, h.empty_eq⟩, foldl_component]
  exact hj.moves (.inl rfl) _

/-- **The loop**: the names that its variables stand for after the parts. -/
theorem Joined.parts (h : Joined true false ns j) (parts : List (List Char)) (rooted : Bool)
    (hr : rooted ↔ (∃ p ∈ parts, startsWithSep p) ∧
      walk ns (movesOf (parts.takeWhile (!startsWithSep ·))) = []) :
    ∃ empty, Joined empty rooted (walk ns (movesOf (dropLead parts)))
      (parts.foldl (Joining.part false) j) := by
  induction parts generalizing ns j with
  | nil =>
    obtain rfl : rooted = false := Bool.eq_false_iff.mpr fun h => by simpa using (hr.mp h).1
    exact ⟨true, h⟩
  | cons p parts ih =>
    rw [foldl_cons, dropLead]
    by_cases hp : startsWithSep p
    · rw [List.takeWhile_cons_of_neg (by simp [hp])] at hr
      obtain rfl : rooted = decide (ns = []) := by
        rw [Bool.eq_iff_iff, hr, decide_eq_true_eq]
        exact and_iff_right ⟨p, .head _, hp⟩
      rw [if_pos hp, movesOf_cons, walk_append]
      exact ⟨false, (h.lead hp).later parts⟩
    · rw [if_neg hp, part_join_later j p fun h => hp h.1, movesOf_cons, walk_append]
      refine ih (h.moves (.inr rfl) p) (hr.trans ?_)
      rw [List.takeWhile_cons_of_pos (by simp [hp]), movesOf_cons, walk_append]
      simp [hp]

variable (parts : List (List Char))

/-- **Join**: the moves of its result, and whether it is absolute. -/
theorem joinPath_spec :
    moves (joinPath parts) = (walk [] (movesOf (dropLead parts))).reverse.map .down ∧
      isAbsolute (joinPath parts) = decide (Rooted parts) := by
  have hstart : Joined true false [] ⟨[], [], true⟩ := ⟨rfl, rfl⟩
  obtain ⟨empty, h⟩ := hstart.parts parts (decide (Rooted parts)) (decide_eq_true_iff ..)
  obtain ⟨hm, ha⟩ := moves_isAbsolute_trimEnd
    (parts.foldl (Joining.part false) ⟨[], [], true⟩).result
  obtain ⟨hm', ha'⟩ := h.tracks.spec
  exact ⟨hm.trans hm', ha.trans ha'⟩

/-! ### Meaning -/

theorem walk_map_down (dir ns : List (List Char)) :
    walk dir (ns.reverse.map .down) = ns ++ dir := by
  rw [walk_eq, normal_map_down, List.drop_zero]

theorem place_joinPath (dir : List (List Char)) (parts : List (List Char)) :
    place dir (joinPath parts) =
      walk [] (movesOf (dropLead parts)) ++ if Rooted parts then [] else dir := by
  obtain ⟨hm, ha⟩ := joinPath_spec parts
  unfold place
  rw [hm, ha, walk_map_down]
  simp only [decide_eq_true_eq]

theorem moves_intercalate : moves (['/'].intercalate parts) = movesOf parts := by
  induction parts with
  | nil => rfl
  | cons p parts ih =>
    cases parts with
    | nil =>
      rw [List.intercalate_singleton]
      exact (append_nil _).symm
    | cons q parts =>
      rw [List.intercalate_cons_cons, append_assoc, List.singleton_append, moves_append, ih]
      rfl

theorem movesOf_filter : movesOf (parts.filter (· ≠ [])) = movesOf parts := by
  induction parts with
  | nil => rfl
  | cons p parts ih =>
    by_cases hp : p = []
    · rw [hp, List.filter_cons_of_neg (by simp), ih]
      rfl
    · rw [List.filter_cons_of_pos (by simp [hp]), movesOf_cons]
      exact congrArg _ ih

theorem moves_concat : moves (concat parts) = movesOf parts := by
  unfold concat
  rw [moves_intercalate, movesOf_filter]

theorem isAbsolute_concat : isAbsolute (concat parts) = firstAbsolute parts := by
  unfold concat firstAbsolute
  rw [← List.head?_filter]
  cases hps : parts.filter (· ≠ []) with
  | nil => rfl
  | cons p ps =>
    have hp : p ≠ [] := by
      simpa using List.of_mem_filter (hps ▸ List.mem_cons_self : p ∈ parts.filter (· ≠ []))
    show _ = isAbsolute p
    cases ps with
    | nil => rw [List.intercalate_singleton]
    | cons q qs => rw [List.intercalate_cons_cons, append_assoc, isAbsolute_append hp]

theorem startsWithSep_of_isAbsolute (h : isAbsolute p) :
    startsWithSep p := decide_eq_true (.inl (of_decide_eq_true h))

theorem moves_drop_one (h : isAbsolute p) : moves (p.drop 1) = moves p := by
  cases p with
  | nil => rfl
  | cons c p =>
    cases of_decide_eq_true h
    exact (moves_cons_sep p).symm

theorem rooted_of_firstAbsolute {parts : List (List Char)} (h : firstAbsolute parts) :
    Rooted parts ∧ movesOf (dropLead parts) = movesOf parts := by
  induction parts with
  | nil => cases h
  | cons p parts ih =>
    unfold firstAbsolute at h
    by_cases hp : p = []
    · rw [List.find?_cons_of_neg (by simp [hp])] at h
      obtain ⟨⟨⟨q, hq, hs⟩, hw⟩, hm⟩ := ih h
      subst hp
      refine ⟨⟨⟨q, .tail _ hq, hs⟩, ?_⟩, ?_⟩
      · rw [List.takeWhile_cons_of_pos rfl]
        exact hw
      · exact hm
    · rw [List.find?_cons_of_pos (by simp [hp])] at h
      have ha : isAbsolute p := h
      have hs := startsWithSep_of_isAbsolute ha
      refine ⟨⟨⟨p, .head _, hs⟩, ?_⟩, ?_⟩
      · rw [List.takeWhile_cons_of_neg (by simp [hs])]
        rfl
      · rw [dropLead, if_pos hs, movesOf_cons, moves_drop_one ha]
        rfl

/-- Going down to `ns` from every directory is what the parts mean exactly when they do not
climb. -/
theorem keeps_iff (parts ns : List (List Char)) :
    (∀ dir : Dir, ns ++ dir.names = walk dir.names (movesOf parts)) ↔
      (normal (movesOf parts)).1 = 0 ∧ ns = walk [] (movesOf parts) := by
  rw [walk_root]
  constructor
  · intro h
    have hn := (walk_eq_append_iff ['d'] (movesOf parts) ns).mp fun k =>
      (h (deepDir 'd' (by decide) k)).symm
    rw [hn]
    exact ⟨rfl, rfl⟩
  · intro h dir
    rw [walk_eq, h.1, h.2, List.drop_zero]

theorem joinPath_keeps : Keeps parts (joinPath parts) ↔
    firstAbsolute parts ∨ (¬ Rooted parts ∧ (normal (movesOf parts)).1 = 0 ∧
      walk [] (movesOf (dropLead parts)) = walk [] (movesOf parts)) := by
  have hplace (dir : List (List Char)) : place dir (concat parts) =
      walk (if firstAbsolute parts then [] else dir) (movesOf parts) := by
    unfold place
    rw [moves_concat, isAbsolute_concat]
  unfold Keeps
  simp only [place_joinPath, hplace, (joinPath_spec parts).2]
  cases hf : firstAbsolute parts with
  | true =>
    obtain ⟨hr, hm⟩ := rooted_of_firstAbsolute hf
    refine ⟨fun _ => .inl rfl, fun _ => ⟨fun dir => ?_, decide_eq_true hr⟩⟩
    rw [if_pos hr, if_pos rfl, hm, append_nil]
  | false =>
    constructor
    · rintro ⟨hp, hr⟩
      have hr := of_decide_eq_false hr
      refine .inr ⟨hr, (keeps_iff parts _).mp fun dir => ?_⟩
      have := hp dir
      rwa [if_neg hr] at this
    · rintro (h | ⟨hr, h⟩)
      · cases h
      · refine ⟨fun dir => ?_, decide_eq_false hr⟩
        rw [if_neg hr]
        exact (keeps_iff parts _).mpr h dir

theorem firstAbsolute_singleton (p : List Char) : firstAbsolute [p] = isAbsolute p := by
  cases p <;> rfl

theorem rooted_singleton (p : List Char) : Rooted [p] ↔ startsWithSep p := by
  constructor
  · rintro ⟨⟨q, hq, hs⟩, -⟩
    rwa [List.mem_singleton.mp hq] at hs
  · intro h
    refine ⟨⟨p, List.mem_singleton_self p, h⟩, ?_⟩
    rw [List.takeWhile_cons_of_neg (by simp [h])]
    rfl

/-- **Join and normalize** keep the meaning of their parts exactly when the first of them is
absolute, or when the parts neither climb above their start nor meet a leading separator that
changes them. -/
theorem joinPath_normalize_keeps_iff (parts : List (List Char)) (path : List Char) :
    (Keeps parts (joinPath parts) ↔
      firstAbsolute parts = true ∨ (¬ Rooted parts ∧ (normal (movesOf parts)).1 = 0 ∧
        walk [] (movesOf (dropLead parts)) = walk [] (movesOf parts))) ∧
    (Keeps [path] (normalize path) ↔
      isAbsolute path = true ∨ (startsWithSep path = false ∧ (normal (moves path)).1 = 0)) := by
  refine ⟨joinPath_keeps parts, ?_⟩
  have hm : movesOf [path] = moves path := append_nil _
  unfold normalize
  rw [joinPath_keeps, firstAbsolute_singleton, rooted_singleton, Bool.not_eq_true, hm]
  refine or_congr_right (and_congr_right fun hs => and_iff_left ?_)
  rw [dropLead, if_neg (by simp [hs])]
  exact congrArg (walk []) hm

/-- `join("..", "a")` and `normalize("../a")` are `a`, which is another place from `/d`. -/
theorem joinPath_drops_climb :
    joinPath ["..".toList, "a".toList] = "a".toList ∧ normalize "../a".toList = "a".toList ∧
      ¬ Keeps ["..".toList, "a".toList] (joinPath ["..".toList, "a".toList]) ∧
      ¬ Keeps ["../a".toList] (normalize "../a".toList) := by
  refine ⟨by decide, by decide, fun h => ?_, fun h => ?_⟩
  all_goals exact absurd (h.1 (deepDir 'd' (by decide) 1)) (by decide)

end RasterRuntime.Path
