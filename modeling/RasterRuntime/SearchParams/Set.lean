import RasterRuntime.SearchParams.Model
import RasterRuntime.Unseen

/-! # What `set` does to the pairs

* `queryPairs_append`, `queryPairs_delete`, `queryPairs_sort`, `queryPairs_set`: the pairs after
  each of the methods that write.
* `set_iff`: `set` leaves the pairs with other names as they were exactly if no two of them are
  equal, since it keeps only the first of equal pairs, whatever their name. -/

namespace RasterRuntime.SearchParams

open Unseen

/-! ### The pairs after each method -/

section Methods

variable {Q : Type} (F : Form Q) (url : Url Q)

@[simp] theorem query_convertTrailingSpace : (convertTrailingSpace F url).query = url.query := by
  unfold convertTrailingSpace
  split_ifs <;> rfl

@[simp] theorem queryPairs_convertTrailingSpace :
    (convertTrailingSpace F url).queryPairs F = url.queryPairs F := by
  rw [Url.queryPairs, query_convertTrailingSpace, Url.queryPairs]

@[simp] theorem queryPairs_setPairs (pairs : List Pair) :
    (url.setPairs F pairs).queryPairs F = pairs := by
  rw [Url.queryPairs, Url.setPairs, Option.getD_some, F.parse_extend, F.parse_empty,
    List.nil_append]

theorem queryPairs_append (key value : String) :
    (append F url key value).queryPairs F = url.queryPairs F ++ [(key, value)] := by
  rw [append, Url.queryPairs, Option.getD_some, F.parse_extend, query_convertTrailingSpace]
  rfl

theorem queryPairs_delete (key : String) (value : Option String) :
    (delete F url key value).queryPairs F =
      (url.queryPairs F).filter (!matchesPair key value ·) := by
  unfold delete
  dsimp only
  rw [queryPairs_convertTrailingSpace]
  split_ifs with h
  · exact queryPairs_setPairs F _ _
  · rw [not_not.mp h]
    exact F.parse_empty

theorem queryPairs_sort :
    (sort F url).queryPairs F = (url.queryPairs F).mergeSort fun a b => a.1 ≤ b.1 := by
  unfold sort
  dsimp only
  split_ifs with h
  · rw [h]
    exact F.parse_empty
  · exact queryPairs_setPairs F _ _

theorem newQueryPairs_push (s : Uniques) (pair : Pair) :
    (s.push pair).newQueryPairs = s.newQueryPairs ++ unseen s.uniques [pair] := by
  unfold Uniques.push unseen
  split_ifs
  · simp [unseen]
  · rfl

theorem setLoop_concat (key value : String) (pairs : List Pair) (pair : Pair) (s : Uniques) :
    ((setLoop key value pairs s).push pair).newQueryPairs =
      s.newQueryPairs ++ unseen s.uniques (pairs.map (update key value) ++ [pair]) := by
  induction pairs generalizing s with
  | nil => exact newQueryPairs_push s pair
  | cons p pairs ih =>
    rw [setLoop, ih, List.map_cons, List.cons_append, unseen, Uniques.push]
    split_ifs
    · rfl
    · rw [List.append_assoc]
      rfl

/-- The pairs with the new value and the pair itself, each once. -/
theorem queryPairs_set (key value : String) :
    (set F url key value).queryPairs F =
      unseen [] ((url.queryPairs F).map (update key value) ++ [(key, value)]) := by
  rw [set, queryPairs_setPairs, queryPairs_convertTrailingSpace, setLoop_concat]
  rfl

end Methods

/-! ### `set` -/

/-- What a call `set(key, value)` is for: the pairs with other names stay, there is one pair with
the name, and it is in the place of the first one there was, or at the end. -/
structure Sets (key value : String) (old new : List Pair) : Prop where
  others : new.filter (·.1 ≠ key) = old.filter (·.1 ≠ key)
  one : new.filter (·.1 = key) = [(key, value)]
  place : new.findIdx (·.1 = key) = old.findIdx (·.1 = key)

section Sets

variable (key value : String) (pairs : List Pair)

theorem others_update :
    (pairs.map (update key value) ++ [(key, value)]).filter (·.1 ≠ key) =
      pairs.filter (·.1 ≠ key) := by
  rw [List.filter_append, List.filter_map, List.filter_cons_of_neg (by simp), List.filter_nil,
    List.append_nil]
  have hid : ∀ p ∈ pairs.filter ((fun p : Pair => decide (p.1 ≠ key)) ∘ update key value),
      update key value p = p := by
    intro p hp
    have hne : p.1 ≠ key := of_decide_eq_true (List.mem_filter.mp hp).2
    rw [update, if_neg hne]
  rw [List.map_congr_left hid, List.map_id']
  rfl

theorem named_update : ∃ n, (pairs.map (update key value) ++ [(key, value)]).filter (·.1 = key) =
    List.replicate (n + 1) (key, value) := by
  refine ⟨((pairs.map (update key value)).filter (·.1 = key)).length,
    List.eq_replicate_iff.mpr ⟨?_, ?_⟩⟩
  · rw [List.filter_append, List.length_append]
    simp
  · intro p hp
    obtain ⟨hp, hk⟩ := List.mem_filter.mp hp
    rw [List.mem_append, List.mem_map, List.mem_singleton] at hp
    rcases hp with ⟨q, _, rfl⟩ | rfl
    · have hq : q.1 = key := of_decide_eq_true hk
      rw [update, if_pos hq, hq]
    · rfl

theorem findIdx_update :
    (pairs.map (update key value) ++ [(key, value)]).findIdx (·.1 = key) =
      pairs.findIdx (·.1 = key) := by
  induction pairs with
  | nil => simp
  | cons p pairs ih =>
    rw [List.map_cons, List.cons_append, List.findIdx_cons, List.findIdx_cons, ih]
    rfl

variable {Q : Type} (F : Form Q) (url : Url Q)

theorem named_set : ((set F url key value).queryPairs F).filter (·.1 = key) = [(key, value)] := by
  obtain ⟨n, hn⟩ := named_update key value (url.queryPairs F)
  rw [queryPairs_set, filter_unseen, hn]
  exact unseen_replicate _ n

/-- **`set` does what it is for exactly if the pairs with other names are all different.** -/
theorem set_iff :
    Sets key value (url.queryPairs F) ((set F url key value).queryPairs F) ↔
      ((url.queryPairs F).filter (·.1 ≠ key)).Nodup := by
  constructor
  · rintro ⟨hothers, -, -⟩
    rw [queryPairs_set, filter_unseen, others_update] at hothers
    exact (unseen_eq_self_iff _).mp hothers
  · intro h
    refine ⟨?_, named_set key value F url, ?_⟩
    · rw [queryPairs_set, filter_unseen, others_update]
      exact (unseen_eq_self_iff _).mpr h
    · rw [queryPairs_set, findIdx_unseen _ ?_ (fun _ _ _ => List.not_mem_nil) (by simp),
        findIdx_update]
      have hnot : (fun p : Pair => !decide (p.1 = key)) = fun p => decide (p.1 ≠ key) := by
        funext p
        simp
      rw [hnot, others_update]
      exact h

end Sets

/-- Queries that are lists of pairs. -/
def listForm : Form (List Pair) where
  empty := []
  parse := id
  extend := (· ++ ·)
  setPath := fun _ path => path
  parse_empty := rfl
  parse_extend := fun _ _ => rfl

/-- A pair with another name that is there twice is there once after `set`. -/
theorem set_drops_duplicate :
    ¬ Sets "b" "2" [("a", "1"), ("a", "1")]
      ((set listForm ⟨"http", "/", some [("a", "1"), ("a", "1")], none⟩ "b" "2").queryPairs
        listForm) := by
  rintro ⟨hothers, -, -⟩
  cases hothers

end RasterRuntime.SearchParams
