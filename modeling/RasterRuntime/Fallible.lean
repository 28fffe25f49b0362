import Mathlib.Data.Nat.Notation

/-! # Computations that can fail

What a sequence of fallible computations that went well says about its parts, and the rule for
invariants of a machine whose steps can fail: a run takes its inputs one after the other
(`List.foldlM`), and `Along step P s xs` says that `P` holds of every input and of the state the run
is in when it takes it. -/

namespace RasterRuntime

variable {ε α β : Type} {x : Except ε α} {f : α → Except ε β}

theorem bind_eq_ok {b : β} :
    (x >>= f) = .ok b ↔ ∃ a, x = .ok a ∧ f a = .ok b := by
  cases x <;> simp [bind, Except.bind]

theorem bind_eq_error {e : ε} :
    (x >>= f) = .error e ↔ x = .error e ∨ ∃ a, x = .ok a ∧ f a = .error e := by
  cases x <;> simp [bind, Except.bind]

theorem map_eq_ok {g : α → β} {b : β} : x.map g = .ok b ↔ ∃ a, x = .ok a ∧ g a = b := by
  cases x <;> simp [Except.map]

section Run

variable {σ ι : Type} (step : σ → ι → Except ε σ) (P : σ → ι → Prop)

/-- `P` holds of each input of a run and the state that takes it. -/
def Along : σ → List ι → Prop
  | _, [] => True
  | s, x :: xs => P s x ∧
    match step s x with
    | .ok s' => Along s' xs
    | .error _ => True

instance Along.decidable [∀ s x, Decidable (P s x)] : ∀ s xs, Decidable (Along step P s xs)
  | _, [] => isTrue trivial
  | s, x :: xs => by
    unfold Along
    cases step s x with
    | ok s' =>
      have := Along.decidable s' xs
      exact inferInstance
    | error e => exact inferInstance

variable {step P}

/-- **Invariants of runs**: what every step keeps when its condition holds, a run keeps. -/
theorem foldlM_invariant {I : σ → Prop}
    (hstep : ∀ s x s', I s → P s x → step s x = .ok s' → I s') :
    ∀ (xs : List ι) (s s' : σ), I s → Along step P s xs → xs.foldlM step s = .ok s' → I s' := by
  intro xs
  induction xs with
  | nil =>
    intro s s' hs _ h
    cases h
    exact hs
  | cons x xs ih =>
    intro s s' hs ha h
    rw [List.foldlM_cons] at h
    obtain ⟨t, ht, h⟩ := bind_eq_ok.mp h
    unfold Along at ha
    rw [ht] at ha
    exact ih t s' (hstep s x t hs ha.1 ht) ha.2 h

end Run

end RasterRuntime
