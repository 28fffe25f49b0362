import RasterRuntime.Modules.Machine
import Mathlib.Data.List.Induction

/-! # What a loader is for

Each module is idle, being loaded, running or done; a log in which every event fits the phase that
its module is in is lawful. -/

namespace RasterRuntime.Modules

open List (append_assoc append_cons append_nil)

/-! ### Phases -/

inductive Phase
  | idle
  | loading (r : Ref)
  | running (r : Ref) (v : Value)
  | done (r : Ref) (v : Value)
  deriving DecidableEq, Repr

/-- The phase of a module after an assignment to the exports of a record. -/
def Phase.assign (r : Ref) (v : Value) : Phase → Phase
  | .running r' w => .running r' (if r' = r then v else w)
  | .done r' w => .done r' (if r' = r then v else w)
  | p => p

/-- The phase of a module after an event. -/
def Phase.next (n : Text) (p : Phase) : Event → Phase
  | .loading n' r => if n' = n then .loading r else p
  | .started n' r v => if n' = n then .running r v else p
  | .assigned r v => p.assign r v
  | .finished n' r v => if n' = n then .done r v else p
  | .threw n' _ => if n' = n then .idle else p
  | .returned _ _ => p

def phase (n : Text) (log : List Event) : Phase := log.foldl (Phase.next n) .idle

@[simp] theorem phase_concat (n : Text) (log : List Event) (e : Event) :
    phase n (log ++ [e]) = (phase n log).next n e := by
  rw [phase, List.foldl_append]
  rfl

/-- The module that an event is about. -/
def Event.name : Event → Option Text
  | .loading n _ => some n
  | .started n _ _ => some n
  | .assigned _ _ => none
  | .finished n _ _ => some n
  | .threw n _ => some n
  | .returned n _ => some n

/-- The event fits the phase of its module. -/
def Phase.Allows (p : Phase) : Event → Prop
  | .loading _ _ => p = .idle
  | .started _ r _ => p = .loading r
  | .assigned _ _ => True
  | .finished _ r v => p = .running r v ∨ p = .loading r
  | .threw _ r => p = .loading r ∨ ∃ v, p = .running r v
  | .returned _ v => (∃ r, p = .loading r) ∨ (∃ r, p = .running r v) ∨ ∃ r, p = .done r v

def Lawful (log : List Event) : Prop :=
  ∀ l e l', log = l ++ e :: l' → ∀ n, e.name = some n → (phase n l).Allows e

theorem lawful_nil : Lawful [] := fun _ _ _ h => absurd h (by simp)

variable {e : Event} {l l' : List Event}

theorem Lawful.of_append (h : Lawful (l ++ l')) : Lawful l := by
  rintro a e b rfl
  exact h a e (b ++ l') (by simp)

theorem Lawful.concat {log : List Event} (h : Lawful log)
    (he : ∀ n, e.name = some n → (phase n log).Allows e) : Lawful (log ++ [e]) := by
  intro l e' l' hl
  rcases List.eq_nil_or_concat l' with rfl | ⟨l', last, rfl⟩
  · obtain ⟨rfl, hlast⟩ := List.append_inj' hl rfl
    cases hlast
    exact he
  · rw [List.concat_eq_append, ← List.cons_append, ← append_assoc] at hl
    exact h l e' l' (List.append_inj' hl rfl).1

/-! ### What follows in a lawful log -/

/-- The value that was last assigned to the exports of a record, `v` at first. -/
def lastAssigned (r : Ref) (v : Value) (l : List Event) : Value :=
  l.foldl (fun w e =>
    match e with
    | .assigned r' v' => if r = r' then v' else w
    | _ => w) v

theorem lastAssigned_concat (r : Ref) (v : Value) (l : List Event) (e : Event) :
    lastAssigned r v (l ++ [e]) = lastAssigned r (lastAssigned r v l) [e] := List.foldl_append

section Lawful

variable {n : Text} {r : Ref} {v : Value}

theorem next_done (h : e.name = some n → (Phase.done r v).Allows e) :
    (Phase.done r v).next n e = .done r (lastAssigned r v [e]) := by
  cases e with
  | assigned | returned => rfl
  | loading | started | finished | threw =>
    refine if_neg ?_
    rintro rfl
    simpa [Phase.Allows] using h rfl

theorem next_running (h : e.name = some n → (Phase.running r v).Allows e)
    (hthrew : e ≠ .threw n r) (hfinished : ∀ w, e ≠ .finished n r w) :
    (Phase.running r v).next n e = .running r (lastAssigned r v [e]) := by
  cases e with
  | assigned | returned => rfl
  | loading | started =>
    refine if_neg ?_
    rintro rfl
    cases h rfl
  | finished n' r' w =>
    refine if_neg ?_
    rintro rfl
    rcases h rfl with h | h <;> cases h
    exact hfinished _ rfl
  | threw n' r' =>
    refine if_neg ?_
    rintro rfl
    rcases h rfl with h | ⟨_, h⟩ <;> cases h
    exact hthrew rfl

/-- What holds of the phase of a module, and of the events since `l`, after each event that fits. -/
theorem Lawful.follows {P : List Event → Phase → Prop} (h : Lawful (l ++ l'))
    (h0 : P [] (phase n l))
    (hstep : ∀ l₂, ∀ e ∈ l', ∀ p : Phase, (e.name = some n → p.Allows e) → P l₂ p →
      P (l₂ ++ [e]) (p.next n e)) : P l' (phase n (l ++ l')) := by
  induction l' using List.reverseRecOn with
  | nil => rwa [append_nil]
  | append_singleton l₂ e ih =>
    rw [← append_assoc] at h ⊢
    rw [phase_concat]
    exact hstep l₂ e (by simp) _ (h _ e [] rfl n)
      (ih h.of_append fun l e he => hstep l e (List.mem_append_left _ he))

theorem Lawful.done (h : Lawful (l ++ l')) (hp : phase n l = .done r v) :
    phase n (l ++ l') = .done r (lastAssigned r v l') := by
  refine h.follows (P := fun l p => p = .done r (lastAssigned r v l)) hp ?_
  rintro l₂ e - _ ha rfl
  rw [next_done ha, lastAssigned_concat]

/-- A module that runs does so until its body ends or throws. -/
theorem Lawful.running (h : Lawful (l ++ l')) (hp : phase n l = .running r v)
    (hthrew : .threw n r ∉ l') (hfinished : ∀ w, .finished n r w ∉ l') :
    phase n (l ++ l') = .running r (lastAssigned r v l') := by
  refine h.follows (P := fun l p => p = .running r (lastAssigned r v l)) hp ?_
  rintro l₂ e he _ ha rfl
  rw [lastAssigned_concat]
  refine next_running ha ?_ ?_
  · rintro rfl
    exact hthrew he
  · rintro w rfl
    exact hfinished w he

/-- The body of the module has been called. -/
def Phase.Begun (p : Phase) : Prop := (∃ r v, p = .running r v) ∨ ∃ r v, p = .done r v

theorem next_begun {p : Phase} (hp : p.Begun) (h : e.name = some n → p.Allows e)
    (hthrew : ∀ r, e ≠ .threw n r) : (p.next n e).Begun := by
  rcases hp with ⟨r, v, rfl⟩ | ⟨r, v, rfl⟩
  · by_cases hfinished : ∃ w, e = .finished n r w
    · obtain ⟨w, rfl⟩ := hfinished
      exact .inr ⟨r, w, if_pos rfl⟩
    · rw [next_running h (hthrew r) fun w he => hfinished ⟨w, he⟩]
      exact .inl ⟨r, _, rfl⟩
  · rw [next_done h]
    exact .inr ⟨r, _, rfl⟩

theorem Lawful.begun (h : Lawful (l ++ l')) (hp : (phase n l).Begun)
    (hthrew : ∀ r, .threw n r ∉ l') : (phase n (l ++ l')).Begun := by
  refine h.follows (P := fun _ p => p.Begun) hp fun l₂ e he p ha hp => next_begun hp ha ?_
  rintro r rfl
  exact hthrew r he

end Lawful

/-! ### Conforming logs -/

/-- The module of a `require` that has come to an answer or to a load. -/
def Event.required : Event → Option Text
  | .loading n _ => some n
  | .returned n _ => some n
  | _ => none

/-- What the requires of a program are for, where `file` says which names are of one file: a body
does not run again unless it threw; a `require` of a module whose body runs returns its exports of
that moment, and one of a module whose body has ended those it ended with, unless they were assigned
again. -/
structure Conforms {F : Type} (file : Text → F) (log : List Event) : Prop where
  once : ∀ l₁ n r v l₂ n' r' v' l₃,
    log = l₁ ++ .started n r v :: (l₂ ++ .started n' r' v' :: l₃) → file n' = file n →
      ∃ r, .threw n r ∈ l₂
  running : ∀ l₁ n r v l₂ e n' l₃, log = l₁ ++ .started n r v :: (l₂ ++ e :: l₃) →
    .threw n r ∉ l₂ → (∀ w, .finished n r w ∉ l₂) → e.required = some n' → file n' = file n →
      e = .returned n' (lastAssigned r v l₂)
  done : ∀ l₁ n r v l₂ e n' l₃, log = l₁ ++ .finished n r v :: (l₂ ++ e :: l₃) →
    e.required = some n' → file n' = file n → e = .returned n' (lastAssigned r v l₂)

/-- Each file has one name in the log. -/
def OneName {F : Type} (file : Text → F) (log : List Event) : Prop :=
  ∀ e ∈ log, ∀ e' ∈ log, ∀ n n', e.name = some n → e'.name = some n' → file n = file n' → n = n'

section Conforms

variable {F : Type} {file : Text → F} {log : List Event} (h : Lawful log) (hone : OneName file log)
include h hone

theorem Lawful.once (l₁ : List Event) (n : Text) (r : Ref) (v : Value) (l₂ : List Event) (n' : Text)
    (r' : Ref) (v' : Value) (l₃ : List Event)
    (hlog : log = l₁ ++ .started n r v :: (l₂ ++ .started n' r' v' :: l₃))
    (hfile : file n' = file n) : ∃ r, .threw n r ∈ l₂ := by
  obtain rfl : n' = n :=
    hone (.started n' r' v') (by simp [hlog]) (.started n r v) (by simp [hlog]) n'
    n rfl rfl hfile
  by_contra hno
  rw [append_cons, ← append_assoc] at hlog
  have hbegun : (phase n' (l₁ ++ [.started n' r v] ++ l₂)).Begun := by
    refine Lawful.begun (hlog ▸ h).of_append ?_ fun r hr => hno ⟨r, hr⟩
    rw [phase_concat]
    exact .inl ⟨r, v, if_pos rfl⟩
  have hloading : phase n' (l₁ ++ [.started n' r v] ++ l₂) = .loading r' :=
    h _ _ _ hlog n' rfl
  rw [hloading] at hbegun
  rcases hbegun with ⟨_, _, h⟩ | ⟨_, _, h⟩ <;> cases h

omit h hone in
/-- A `require` in a phase in which the body has been called returns the exports. -/
theorem required_begun {p : Phase} {n : Text} {r : Ref} {v : Value} (ha : p.Allows e)
    (hp : p = .running r v ∨ p = .done r v) (he : e.required = some n) : e = .returned n v := by
  cases e with
  | returned n' w =>
    cases he
    rcases hp with rfl | rfl
    all_goals
      rcases ha with ⟨_, ha⟩ | ⟨_, ha⟩ | ⟨_, ha⟩ <;> cases ha
      rfl
  | loading n' r' => rcases hp with rfl | rfl <;> cases ha
  | started | assigned | finished | threw => cases he

omit h hone in
theorem Event.name_of_required {n : Text} (h : e.required = some n) : e.name = some n := by
  cases e with
  | returned | loading => exact h
  | started | assigned | finished | threw => cases h

/-- The answer to a `require` of a file, where its module has run or runs since an event. -/
theorem Lawful.answer {l₁ : List Event} {first : Event} {l₂ : List Event}
    {l₃ : List Event} {n n' : Text} {r : Ref} {v : Value}
    (hlog : log = l₁ ++ first :: (l₂ ++ e :: l₃)) (hfirst : first.name = some n)
    (hphase : phase n (l₁ ++ [first] ++ l₂) = .running r v ∨
      phase n (l₁ ++ [first] ++ l₂) = .done r v)
    (he : e.required = some n') (hfile : file n' = file n) : e = .returned n' v := by
  have hname := Event.name_of_required he
  obtain rfl : n' = n := hone e (by simp [hlog]) first (by simp [hlog]) n' n hname hfirst hfile
  refine required_begun (h (l₁ ++ [first] ++ l₂) e l₃ ?_ n' hname) hphase he
  rw [hlog]
  simp

/-- **Lawful logs conform**, if each file has one name. -/
theorem Lawful.conforms : Conforms file log where
  once := h.once hone
  running := by
    intro l₁ n r v l₂ e n' l₃ hlog hthrew hfinished he hfile
    refine h.answer hone (r := r) hlog rfl (.inl ?_) he hfile
    rw [append_cons, ← append_assoc] at hlog
    refine Lawful.running (hlog ▸ h).of_append ?_ hthrew hfinished
    rw [phase_concat]
    exact if_pos rfl
  done := by
    intro l₁ n r v l₂ e n' l₃ hlog he hfile
    refine h.answer hone (r := r) hlog rfl (.inr ?_) he hfile
    rw [append_cons, ← append_assoc] at hlog
    refine Lawful.done (hlog ▸ h).of_append ?_
    rw [phase_concat]
    exact if_pos rfl

end Conforms

end RasterRuntime.Modules
