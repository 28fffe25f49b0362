import Mathlib.Data.List.Basic

/-! # Runs of a transition function

A step takes a state and an event to a state, or is not possible. A run is a list of events that are
possible one after the other. -/

namespace RasterRuntime.Transition

open Option (bind_eq_some_iff bind_some)

variable {σ ε : Type} (step : σ → ε → Option σ)

/-- The state after the events. -/
def run : σ → List ε → Option σ
  | s, [] => some s
  | s, e :: es => (step s e).bind fun s' => run s' es

@[simp] theorem run_nil (s : σ) : run step s [] = some s := rfl

variable {s s' : σ} {es : List ε}
  {e : ε} {P I : σ → Prop} {C : σ → ε → Prop} {step' : σ → ε → Option σ}

theorem run_cons (h : step s e = some s') (es : List ε) :
    run step s (e :: es) = run step s' es := by
  rw [run, h, bind_some]

theorem run_append (s : σ) (es es' : List ε) :
    run step s (es ++ es') = (run step s es).bind fun s' => run step s' es' := by
  induction es generalizing s with
  | nil => rfl
  | cons e es ih =>
    rw [List.cons_append, run, run]
    cases step s e with
    | none => rfl
    | some s' => exact ih s'

/-- **Runs**: what every step keeps holds at the end of a run. -/
theorem run_invariant (h : ∀ s e s', P s → step s e = some s' → P s') (hs : P s)
    (hr : run step s es = some s') : P s' := by
  induction es generalizing s with
  | nil =>
    cases hr
    exact hs
  | cons e es ih =>
    obtain ⟨t, ht, hr⟩ := bind_eq_some_iff.mp hr
    exact ih (h s e t hs ht) hr

/-- **Progress**: a run is possible if each of its events is, in every state that the steps keep
to. -/
theorem exists_run {D : ε → Prop}
    (h : ∀ s e, P s → D e → ∃ s', step s e = some s' ∧ P s') (hs : P s)
    (hes : ∀ e ∈ es, D e) : ∃ s', run step s es = some s' ∧ P s' := by
  induction es generalizing s with
  | nil => exact ⟨s, rfl, hs⟩
  | cons e es ih =>
    obtain ⟨t, ht, hp⟩ := h s e hs (hes e (.head _))
    rw [run_cons step ht]
    exact ih hp fun x hx => hes x (.tail _ hx)

/-- The state after a run, with what the run tells about it. -/
theorem exists_of_run (hr : run step s es = some s') (h : run step s es = some s' → P s') :
    ∃ s', run step s es = some s' ∧ P s' :=
  ⟨s', hr, h hr⟩

/-- Some run leads from one state to the other. -/
def Reaches (s s' : σ) : Prop := ∃ es, run step s es = some s'

theorem Reaches.refl (s : σ) : Reaches step s s := ⟨[], rfl⟩

variable {step}

theorem Reaches.single (h : step s e = some s') : Reaches step s s' :=
  ⟨[e], by rw [run_cons step h, run_nil]⟩

theorem Reaches.trans {t u : σ} (h : Reaches step s t) (h' : Reaches step t u) :
    Reaches step s u := by
  obtain ⟨es, hes⟩ := h
  obtain ⟨es', hes'⟩ := h'
  exact ⟨es ++ es', by rw [run_append, hes, bind_some, hes']⟩

theorem Reaches.invariant (h : ∀ s e s', P s → step s e = some s' → P s') (hr : Reaches step s s')
    (hs : P s) : P s' := by
  obtain ⟨es, hes⟩ := hr
  exact run_invariant step h hs hes

variable (step) in
/-- `C` holds of every event of the run and the state that it happens in. -/
def RunEach (C : σ → ε → Prop) : σ → List ε → Prop
  | _, [] => True
  | s, e :: es => C s e ∧ ∀ s', step s e = some s' → RunEach C s' es

instance RunEach.instDecidable [∀ s e, Decidable (C s e)] :
    ∀ s es, Decidable (RunEach step C s es)
  | _, [] => isTrue trivial
  | s, e :: es =>
    match h : step s e with
    | none => decidable_of_iff (C s e) ⟨fun hc => ⟨hc, by simp [h]⟩, And.left⟩
    | some s' =>
      haveI := RunEach.instDecidable s' es
      decidable_of_iff (C s e ∧ RunEach step C s' es) (and_congr_right fun _ => by simp [h])

theorem RunEach.invariant (hkeep : ∀ s e s', I s → C s e → step s e = some s' → I s') (hs : I s)
    (h : RunEach step C s es) (hr : run step s es = some s') : I s' := by
  induction es generalizing s with
  | nil =>
    cases hr
    exact hs
  | cons e es ih =>
    obtain ⟨t, ht, hr⟩ := bind_eq_some_iff.mp hr
    exact ih (hkeep s e t hs h.1 ht) (h.2 t ht) hr

theorem runEach_of_forall {C : ε → Prop} (h : ∀ e ∈ es, C e) (s : σ) :
    RunEach step (fun _ e => C e) s es := by
  induction es generalizing s with
  | nil => trivial
  | cons e es ih => exact ⟨h e (.head _), fun s' _ => ih (fun x hx => h x (.tail _ hx)) s'⟩

theorem runEach_of_invariant {D : ε → Prop}
    (hkeep : ∀ s e s', I s → D e → step s e = some s' → C s e ∧ I s') (hs : I s)
    (hes : ∀ e ∈ es, D e) (hr : run step s es = some s') : RunEach step C s es := by
  induction es generalizing s with
  | nil => trivial
  | cons e es ih =>
    obtain ⟨t, ht, hr⟩ := bind_eq_some_iff.mp hr
    obtain ⟨hc, hnext⟩ := hkeep s e t hs (hes e (.head _)) ht
    refine ⟨hc, fun t' ht' => ?_⟩
    cases ht.symm.trans ht'
    exact ih hnext (fun x hx => hes x (.tail _ hx)) hr

theorem run_mono (h : ∀ s e s', step s e = some s' → step' s e = some s')
    (hr : run step s es = some s') : run step' s es = some s' := by
  induction es generalizing s with
  | nil => exact hr
  | cons e es ih =>
    obtain ⟨t, ht, hr⟩ := bind_eq_some_iff.mp hr
    rw [run_cons step' (h s e t ht)]
    exact ih hr

theorem Reaches.mono (h : ∀ s e s', step s e = some s' → step' s e = some s')
    (hr : Reaches step s s') :
    Reaches step' s s' := by
  obtain ⟨es, hes⟩ := hr
  exact ⟨es, run_mono h hes⟩

/-! ### Steps that are always possible -/

section Total

variable (next : σ → ε → σ)

/-- `P` holds in every state of the run. -/
def Throughout (P : σ → Prop) : σ → List ε → Prop
  | s, [] => P s
  | s, e :: es => P s ∧ Throughout P (next s e) es

/-- `C` holds of every event of the run and the state that it happens in. -/
def Each (C : σ → ε → Prop) : σ → List ε → Prop
  | _, [] => True
  | s, e :: es => C s e ∧ Each C (next s e) es

variable {next}

theorem Throughout.head (h : Throughout next P s es) : P s := by
  cases es with
  | nil => exact h
  | cons e es => exact h.1

theorem Each.invariant (hkeep : ∀ s e, I s → C s e → I (next s e)) (hs : I s)
    (h : Each next C s es) : I (es.foldl next s) := by
  induction es generalizing s with
  | nil => exact hs
  | cons e es ih => exact ih (hkeep s e hs h.1) h.2

theorem throughout_iff_each (himp : ∀ s, I s → P s) (hkeep : ∀ s e, I s → C s e → I (next s e))
    (hlose : ∀ s e, I s → ¬ C s e → ¬ P (next s e)) (es : List ε) (hs : I s) :
    Throughout next P s es ↔ Each next C s es := by
  induction es generalizing s with
  | nil => exact ⟨fun _ => trivial, fun _ => himp s hs⟩
  | cons e es ih =>
    constructor
    · rintro ⟨-, h⟩
      have hc : C s e := by
        by_contra hc
        exact hlose s e hs hc h.head
      exact ⟨hc, (ih (hkeep s e hs hc)).mp h⟩
    · rintro ⟨hc, h⟩
      exact ⟨himp s hs, (ih (hkeep s e hs hc)).mpr h⟩

end Total

/-! ### Logs that grow -/

section

variable {α β : Type} {l : List α} {a : α}

theorem forall_mem_concat {p : α → Prop} : (∀ x ∈ l ++ [a], p x) ↔ (∀ x ∈ l, p x) ∧ p a := by
  rw [List.forall_mem_append, List.forall_mem_singleton]

theorem unique_concat {f : α → β} (h : ∀ x ∈ l, ∀ y ∈ l, f x = f y → x = y)
    (ha : ∀ x ∈ l, f x ≠ f a) : ∀ x ∈ l ++ [a], ∀ y ∈ l ++ [a], f x = f y → x = y :=
  forall_mem_concat.mpr
    ⟨fun x hx => forall_mem_concat.mpr ⟨h x hx, fun he => absurd he (ha x hx)⟩,
      forall_mem_concat.mpr ⟨fun y hy he => absurd he.symm (ha y hy), fun _ => rfl⟩⟩

end

end RasterRuntime.Transition
