import Mathlib.Data.List.Nodup

/-! # The first of equal entries

`unseen seen l` is what is left of the list `l` by a loop that keeps a set of the entries it has
met, at first `seen`, and skips those that are in the set. -/

namespace RasterRuntime.Unseen

open List (filter_cons_of_pos findIdx_cons mem_cons mem_filter nodup_cons)

variable {α : Type} [DecidableEq α]

/-- The entries that are not among those seen before them. -/
def unseen : List α → List α → List α
  | _, [] => []
  | seen, x :: l => if x ∈ seen then unseen seen l else x :: unseen (x :: seen) l

variable {seen l : List α}

theorem mem_unseen {x : α} : x ∈ unseen seen l ↔ x ∈ l ∧ x ∉ seen := by
  induction l generalizing seen with
  | nil => simp [unseen]
  | cons y l ih =>
    rw [unseen]
    split_ifs with hy
    · rw [ih, mem_cons]
      constructor
      · rintro ⟨hx, hn⟩
        exact ⟨.inr hx, hn⟩
      · rintro ⟨rfl | hx, hn⟩
        · exact absurd hy hn
        · exact ⟨hx, hn⟩
    · rw [mem_cons, ih, mem_cons, mem_cons]
      by_cases hxy : x = y
      · simp [hxy, hy]
      · simp [hxy]

theorem nodup_unseen (seen l : List α) : (unseen seen l).Nodup := by
  induction l generalizing seen with
  | nil => exact List.nodup_nil
  | cons y l ih =>
    rw [unseen]
    split_ifs with hy
    · exact ih seen
    · refine nodup_cons.mpr ⟨fun h => ?_, ih _⟩
      exact (mem_unseen.mp h).2 (.head _)

theorem unseen_of_nodup (h : l.Nodup) (hd : ∀ x ∈ l, x ∉ seen) :
    unseen seen l = l := by
  induction l generalizing seen with
  | nil => rfl
  | cons y l ih =>
    obtain ⟨hy, hl⟩ := nodup_cons.mp h
    rw [unseen, if_neg (hd y (.head _)), ih hl]
    intro x hx hseen
    rcases mem_cons.mp hseen with rfl | hseen
    · exact hy hx
    · exact hd x (.tail _ hx) hseen

theorem unseen_eq_self_iff (l : List α) : unseen [] l = l ↔ l.Nodup :=
  ⟨fun h => h ▸ nodup_unseen [] l, fun h => unseen_of_nodup h fun _ _ => List.not_mem_nil⟩

theorem filter_unseen (q : α → Bool) (seen l : List α) :
    (unseen seen l).filter q = unseen (seen.filter q) (l.filter q) := by
  induction l generalizing seen with
  | nil => rfl
  | cons x l ih =>
    rw [unseen]
    cases hq : q x with
    | true =>
      rw [filter_cons_of_pos hq, unseen]
      split_ifs with hs hf hf
      · exact ih seen
      · exact absurd (mem_filter.mpr ⟨hs, hq⟩) hf
      · exact absurd (mem_filter.mp hf).1 hs
      · rw [filter_cons_of_pos hq, ih, filter_cons_of_pos hq]
    | false =>
      rw [List.filter_cons_of_neg (by simp [hq])]
      split_ifs with hs
      · exact ih seen
      · rw [List.filter_cons_of_neg (by simp [hq]), ih, List.filter_cons_of_neg (by simp [hq])]

/-- The first entry with a property has its place if the entries without it are all different. -/
theorem findIdx_unseen (q : α → Bool) (hn : (l.filter (!q ·)).Nodup)
    (hl : ∀ x ∈ l, q x = false → x ∉ seen) (hs : ∀ x ∈ seen, q x = false) :
    (unseen seen l).findIdx q = l.findIdx q := by
  induction l generalizing seen with
  | nil => rfl
  | cons x l ih =>
    cases hq : q x with
    | true =>
      have hx : x ∉ seen := fun h => absurd (hs x h) (by simp [hq])
      rw [unseen, if_neg hx, findIdx_cons, findIdx_cons, hq]
      rfl
    | false =>
      rw [filter_cons_of_pos (by simp [hq])] at hn
      obtain ⟨hx, hn⟩ := nodup_cons.mp hn
      rw [unseen, if_neg (hl x (.head _) hq), findIdx_cons, findIdx_cons, hq,
        ih hn ?_ (List.forall_mem_cons.mpr ⟨hq, hs⟩)]
      intro y hy hqy hseen
      rcases mem_cons.mp hseen with rfl | hseen
      · exact hx (mem_filter.mpr ⟨hy, by simp [hqy]⟩)
      · exact hl y (.tail _ hy) hqy hseen

theorem unseen_replicate (x : α) (n : ℕ) : unseen [] (List.replicate (n + 1) x) = [x] := by
  have hseen (n : ℕ) : unseen [x] (List.replicate n x) = [] := by
    induction n with
    | zero => rfl
    | succ n ih => rw [List.replicate_succ, unseen, if_pos (.head _), ih]
  rw [List.replicate_succ, unseen, if_neg List.not_mem_nil, hseen]

end RasterRuntime.Unseen
