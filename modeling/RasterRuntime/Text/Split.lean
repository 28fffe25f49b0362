import Mathlib.Data.List.Basic

/-! # Splitting a list at a separator

`split` is `slice::split` and `str::split` at one separator, `cut` is `split_once`. -/

namespace RasterRuntime.Text

variable {α β : Type} [DecidableEq α] [DecidableEq β]

/-- The pieces between the separators, empty ones included. -/
def split (sep : α) : List α → List (List α)
  | [] => [[]]
  | x :: l => if x = sep then [] :: split sep l else (split sep l).modifyHead (x :: ·)

/-- What stands before the first separator, and what stands after it. -/
def cut (sep : α) : List α → List α × List α
  | [] => ([], [])
  | x :: l => if x = sep then ([], l) else ((cut sep l).map (x :: ·) id)

variable {sep : α} {a : List α}

theorem split_of_notMem (h : sep ∉ a) : split sep a = [a] := by
  induction a with
  | nil => rfl
  | cons x l ih =>
    rw [List.mem_cons, not_or] at h
    rw [split, if_neg (Ne.symm h.1), ih h.2]
    rfl

theorem split_append (h : sep ∉ a) (l : List α) : split sep (a ++ sep :: l) = a :: split sep l := by
  induction a with
  | nil => exact if_pos rfl
  | cons x a ih =>
    rw [List.mem_cons, not_or] at h
    rw [List.cons_append, split, if_neg (Ne.symm h.1), ih h.2]
    rfl

theorem cut_of_notMem (h : sep ∉ a) : cut sep a = (a, []) := by
  induction a with
  | nil => rfl
  | cons x l ih =>
    rw [List.mem_cons, not_or] at h
    rw [cut, if_neg (Ne.symm h.1), ih h.2]
    rfl

theorem cut_append (h : sep ∉ a) (l : List α) : cut sep (a ++ sep :: l) = (a, l) := by
  induction a with
  | nil => exact if_pos rfl
  | cons x a ih =>
    rw [List.mem_cons, not_or] at h
    rw [List.cons_append, cut, if_neg (Ne.symm h.1), ih h.2]
    rfl

/-- **Induction along the pieces.** -/
theorem split_induction (sep : α) {P : List α → Prop} (hlast : ∀ a, sep ∉ a → P a)
    (hcons : ∀ a l, sep ∉ a → P l → P (a ++ sep :: l)) (l : List α) : P l := by
  induction hn : l.length using Nat.strongRecOn generalizing l with
  | _ n ih =>
    by_cases hm : sep ∈ l
    · obtain ⟨a, r, rfl, ha⟩ := List.eq_append_cons_of_mem hm
      have hshorter : r.length < n := by
        simp only [List.length_append, List.length_cons] at hn
        omega
      exact hcons a r ha (ih r.length hshorter r rfl)
    · exact hlast l hm

section

variable {f : α → List β} {sep' : β}
  (hsep : f sep = [sep']) (hf : ∀ x, x ≠ sep → sep' ∉ f x) (l : List α)

include hsep hf

omit hsep in
omit [DecidableEq α] [DecidableEq β] in
theorem notMem_flatMap (h : sep ∉ a) : sep' ∉ a.flatMap f := by
  intro hm
  obtain ⟨x, hx, hm⟩ := List.mem_flatMap.mp hm
  exact hf x (fun h' => h (h' ▸ hx)) hm

theorem split_flatMap : split sep' (l.flatMap f) = (split sep l).map (·.flatMap f) := by
  induction l using split_induction sep with
  | hlast a ha =>
    rw [split_of_notMem ha, split_of_notMem (notMem_flatMap hf ha)]
    rfl
  | hcons a l ha ih =>
    rw [split_append ha, List.flatMap_append, List.flatMap_cons, hsep, List.singleton_append,
      split_append (notMem_flatMap hf ha), ih]
    rfl

theorem cut_flatMap :
    cut sep' (l.flatMap f) = ((cut sep l).1.flatMap f, (cut sep l).2.flatMap f) := by
  induction l using split_induction sep with
  | hlast a ha =>
    rw [cut_of_notMem ha, cut_of_notMem (notMem_flatMap hf ha)]
    rfl
  | hcons a l ha _ =>
    rw [cut_append ha, List.flatMap_append, List.flatMap_cons, hsep, List.singleton_append,
      cut_append (notMem_flatMap hf ha)]

end

end RasterRuntime.Text
