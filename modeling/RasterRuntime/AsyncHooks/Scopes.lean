import RasterRuntime.AsyncHooks.LocalStorage

/-! # What `getStore()` gives

The store that should be visible is that of the innermost frame: the store of a `run`, nothing in an
`exit`, and in a continuation what was visible where its resource was made.

* `Frames`: the map is what the frames make of the captured stores, and every frame has saved what
  the map held before it.
* `run_restores`: in every program whose `run` callbacks do not return promises, `getStore()` gives
  the store of the innermost frame; it is after a `run` what it was before; a continuation sees what
  was visible where its resource was made; and outside of every frame there is no store. -/

namespace RasterRuntime.AsyncHooks

open Transition
open Function (update update_apply update_comm update_eq_self update_idem update_of_ne
  update_self)
open List (ne_of_not_mem_cons)

variable {α : Type}

/-- **The store that the innermost frame makes visible.** -/
def visible (captured : ℕ → Option α) : List (Frame α) → Option α
  | [] => none
  | .run _ store _ :: _ => some store
  | .exit _ _ :: _ => none
  | .scope id :: _ => captured id

/-- **The stack**: the map is what the frames make of the captured stores; every call was made in
the context of the continuation below it, and has saved what the map held there. -/
inductive Frames (captured : ℕ → Option α) :
    ℕ → List ℕ → (ℕ → Option α) → List (Frame α) → Prop
  | nil : Frames captured bootstrap [] captured []
  | run {current contexts stores rest} (store : α) : Frames captured current contexts stores rest →
    Frames captured current contexts (update stores current (some store))
      (.run current store (stores current) :: rest)
  | exit {current contexts stores rest} : Frames captured current contexts stores rest →
    Frames captured current contexts (update stores current none)
      (.exit current (stores current) :: rest)
  | scope {current contexts stores rest id} : Frames captured current contexts stores rest →
    id ∉ current :: contexts → Frames captured id (current :: contexts) stores (.scope id :: rest)

/-- **What holds at every point of a program** whose `run` callbacks do not return promises. -/
structure Sound (s : State α) : Prop where
  frames : Frames s.captured s.current s.contexts s.storeMap s.stack
  known : ∀ id ∈ s.current :: s.contexts, id ≤ s.nextId
  first : bootstrap ≤ s.nextId
  bootstrapped : s.captured bootstrap = none
  fresh : ∀ id, s.nextId < id → s.captured id = none
  off : s.enabled = false → (∀ id, s.captured id = none) ∧
    ∀ id store previous, .run id store previous ∉ s.stack
  settled : s.deferred = []

/-- The callback does not return a promise; no resource is destroyed while it is being executed, or
executed inside itself; and a resource whose type looks at the trigger has the current one. -/
def Scoped (s : State α) : Act α → Prop
  | .returnedPromise => ∀ id store previous rest, s.stack ≠ .run id store previous :: rest
  | .settle _ => True
  | .create looks trigger => looks = true → trigger = s.current
  | .enter id => id ∉ s.current :: s.contexts
  | .destroy id => id ∉ s.current :: s.contexts
  | _ => True

/-! ### Frames -/

section

variable {captured stores : ℕ → Option α} {current id : ℕ} {contexts : List ℕ}
  {stack : List (Frame α)}

theorem update_none {j : ℕ} (hj : captured j = none) : update captured id none j = none := by
  rw [update_apply]
  split_ifs
  · rfl
  · exact hj

variable (h : Frames captured current contexts stores stack)

include h

/-- A store is captured for a resource that is not being executed. -/
theorem Frames.update (scope : Option α) (hid : id ∉ current :: contexts) :
    Frames (update captured id scope) current contexts (update stores id scope) stack := by
  induction h with
  | nil => exact .nil
  | run store _ ih =>
    have hne := (ne_of_not_mem_cons hid).symm
    have hcall := (ih hid).run store
    rwa [update_of_ne hne, update_comm hne.symm] at hcall
  | exit _ ih =>
    have hne := (ne_of_not_mem_cons hid).symm
    have hcall := (ih hid).exit
    rwa [update_of_ne hne, update_comm hne.symm] at hcall
  | scope _ hnew ih => exact .scope (ih fun hmem => hid (.tail _ hmem)) hnew

theorem Frames.of_not_mem (hid : id ∉ current :: contexts) : stores id = captured id := by
  induction h with
  | nil => rfl
  | run _ _ ih | exit _ ih => rw [update_of_ne (ne_of_not_mem_cons hid), ih hid]
  | scope _ _ ih => exact ih fun hmem => hid (.tail _ hmem)

theorem Frames.off (hcaptured : ∀ id, captured id = none)
    (hstack : ∀ id store previous, .run id store previous ∉ stack) (id : ℕ) : stores id = none := by
  induction h with
  | nil => exact hcaptured id
  | run store _ _ => exact absurd (.head _) (hstack _ store _)
  | exit _ ih => exact update_none (ih fun i store p hmem => hstack i store p (.tail _ hmem))
  | scope _ _ ih => exact ih fun i store p hmem => hstack i store p (.tail _ hmem)

/-- **The innermost frame decides** what the current context sees. -/
theorem Frames.visible (hb : captured bootstrap = none) :
    stores current = visible captured stack := by
  cases h with
  | nil => exact hb
  | run | exit => exact update_self _ _ _
  | scope h hnew => exact h.of_not_mem hnew

omit h in
theorem Frames.restored {store : α} {previous : Option α}
    (h : Frames captured current contexts stores (.run id store previous :: stack)) :
    id = current ∧ Frames captured current contexts (Function.update stores id previous) stack := by
  cases h with
  | run _ h =>
    rw [update_idem, update_eq_self]
    exact ⟨rfl, h⟩

omit h in
theorem Frames.leave (h : Frames captured current contexts stores (.scope id :: stack)) :
    Frames captured (contexts.headD bootstrap) contexts.tail stores stack ∧
      contexts.headD bootstrap :: contexts.tail ⊆ current :: contexts := by
  cases h with
  | scope h _ => exact ⟨h, List.subset_cons_self _ _⟩

omit h in
theorem Frames.left {previous : Option α}
    (h : Frames captured current contexts stores (.exit id previous :: stack)) :
    Frames captured current contexts (Function.update stores id previous) stack ∧
      Function.update stores id none = stores := by
  cases h with
  | exit h =>
    rw [update_idem, update_idem, update_eq_self]
    exact ⟨h, rfl⟩

end

variable {id : ℕ} {s s' : State α}

theorem Sound.storeMap_off (h : Sound s) (henabled : s.enabled = false) (id : ℕ) :
    s.storeMap id = none :=
  h.frames.off (h.off henabled).1 (h.off henabled).2 id

theorem Sound.setScope_off (h : Sound s) (henabled : ¬ s.enabled) (id : ℕ) :
    setScope id none s = s := by
  unfold setScope
  rw [← h.storeMap_off (eq_false_of_ne_true henabled) id, update_eq_self]

theorem Sound.getStore_current (h : Sound s) : getStore s = s.storeMap s.current := by
  unfold getStore
  split_ifs with henabled
  · rfl
  · exact (h.storeMap_off (eq_false_of_ne_true henabled) s.current).symm

theorem Sound.getStore_eq (h : Sound s) : getStore s = visible s.captured s.stack :=
  h.getStore_current.trans (h.frames.visible h.bootstrapped)

/-! ### Steps -/

theorem sound_initial : Sound (State.initial : State α) where
  frames := .nil
  known := fun _ hid => Nat.le_of_eq (List.mem_singleton.1 hid)
  first := Nat.le_refl _
  bootstrapped := rfl
  fresh := fun _ _ => rfl
  off := fun _ => ⟨fun _ => rfl, fun _ _ _ => List.not_mem_nil⟩
  settled := rfl

theorem Sound.callRun (h : Sound s) (store : α) : Sound (callRun store s) :=
  { h with frames := h.frames.run store, off := nofun }

theorem Sound.callExit (h : Sound s) : Sound (callExit s) := by
  have hscope : (if s.enabled then setScope s.current none s else s) =
      setScope s.current none s := by
    split_ifs with henabled
    · rfl
    · exact (h.setScope_off henabled _).symm
  unfold AsyncHooks.callExit
  rw [hscope]
  exact { h with
    frames := h.frames.exit, off := fun henabled => by simpa [setScope] using h.off henabled }

variable {rest : List (Frame α)} {looks : Bool} {trigger : ℕ} {act : Act α} {acts : List (Act α)}
    {t u : State α}

section

variable (h : Sound s)

include h

theorem Sound.off_rest {frame : Frame α} (hstack : s.stack = frame :: rest)
    (henabled : s.enabled = false) : (∀ id, s.captured id = none) ∧
      ∀ id store previous, .run id store previous ∉ rest := by
  obtain ⟨hcaptured, hruns⟩ := h.off henabled
  rw [hstack] at hruns
  exact ⟨hcaptured, fun id store previous hmem => hruns id store previous (.tail _ hmem)⟩

theorem Sound.restore (hstep : restore s = some s') : Sound s' := by
  have hframes := h.frames
  unfold AsyncHooks.restore at hstep
  split at hstep
  case h_1 id store previous rest hstack =>
    cases hstep
    rw [hstack] at hframes
    exact { h with frames := hframes.restored.2, off := h.off_rest hstack }
  case h_2 id previous rest hstack =>
    cases hstep
    rw [hstack] at hframes
    obtain ⟨hleft, hnone⟩ := hframes.left
    cases previous with
    | none =>
      rw [hnone] at hleft
      exact { h with frames := hleft, off := h.off_rest hstack }
    | some store => exact { h with frames := hleft, off := h.off_rest hstack }
  case h_3 => cases hstep

theorem Sound.create (hc : looks → trigger = s.current) : Sound (create looks trigger s) := by
  have hnew : s.nextId + 1 ∉ s.current :: s.contexts := by
    intro hmem
    have hle := h.known _ hmem
    omega
  have hinherited : (if s.enabled then inherited looks trigger s else none) = getStore s := by
    unfold getStore
    split_ifs
    · unfold inherited
      cases hscope : s.storeMap s.current with
      | some store => rfl
      | none =>
        dsimp only
        split_ifs with hlooks
        · rw [hc hlooks.2]
          exact hscope
        · rfl
    · rfl
  have hstores : copyScope (s.nextId + 1) (getStore s) s.storeMap =
      update s.storeMap (s.nextId + 1) (getStore s) := by
    cases getStore s with
    | some store => rfl
    | none =>
      have hnone : s.storeMap (s.nextId + 1) = none :=
        (h.frames.of_not_mem hnew).trans (h.fresh _ (Nat.lt_succ_self _))
      rw [← hnone, update_eq_self, hnone]
      rfl
  unfold AsyncHooks.create
  dsimp only
  rw [hinherited, hstores]
  refine ⟨h.frames.update _ hnew, ?_, ?_, ?_, ?_, ?_, h.settled⟩
  · intro id hid
    exact Nat.le_succ_of_le (h.known id hid)
  · exact Nat.le_succ_of_le h.first
  · have hne : bootstrap ≠ s.nextId + 1 := by
      have hfirst := h.first
      omega
    dsimp only
    rw [update_of_ne hne]
    exact h.bootstrapped
  · intro id hid
    dsimp only at hid ⊢
    rw [update_of_ne (by omega)]
    exact h.fresh id (by omega)
  · intro henabled
    have hnone : getStore s = none := h.getStore_current.trans (h.storeMap_off henabled _)
    rw [hnone]
    exact ⟨fun id => update_none ((h.off henabled).1 id), (h.off henabled).2⟩

theorem Sound.enter (hid : id ≤ s.nextId) (hc : id ∉ s.current :: s.contexts) : Sound { s with
      current := id, contexts := s.current :: s.contexts, stack := .scope id :: s.stack } :=
  { h with
    frames := h.frames.scope hc
    known := List.forall_mem_cons.2 ⟨hid, h.known⟩
    off := fun henabled => by simpa using h.off henabled }

theorem Sound.leave (hstack : s.stack = .scope id :: rest) : Sound { s with
      current := s.contexts.headD bootstrap, contexts := s.contexts.tail, stack := rest } := by
  have hframes := h.frames
  rw [hstack] at hframes
  obtain ⟨hleft, hsub⟩ := hframes.leave
  exact { h with
    frames := hleft
    known := fun j hj => h.known j (hsub hj)
    off := h.off_rest hstack }

theorem Sound.destroy (hc : id ∉ s.current :: s.contexts) :
    Sound { setScope id none s with captured := update s.captured id none } :=
  { h with
    frames := h.frames.update none hc
    bootstrapped := update_none h.bootstrapped
    fresh := fun j hj => update_none (h.fresh j hj)
    off := fun henabled => ⟨fun j => update_none ((h.off henabled).1 j), (h.off henabled).2⟩ }

theorem Sound.step (hc : Scoped s act) (hstep : step s act = some s') : Sound s' := by
  revert hstep
  fun_cases AsyncHooks.step s act
  case case5 hstack => exact absurd hstack (hc _ _ _ _)
  case case7 hk _ => cases h.settled ▸ hk
  case case3 | case4 | case6 => exact h.restore
  all_goals rintro ⟨⟩
  · exact h.callRun _
  · exact h.callExit
  · exact h.create hc
  · next hid => exact h.enter hid.2 hc
  · next hstack => exact h.leave hstack
  · have hdestroyed := h.destroy hc
    split_ifs with henabled
    · exact hdestroyed
    · rw [h.setScope_off henabled] at hdestroyed
      exact hdestroyed

theorem sound_of_run (hrun : run step s acts = some s')
    (hscoped : RunEach step Scoped s acts) : Sound s' :=
  RunEach.invariant (fun _ _ _ h hc hstep => Sound.step h hc hstep) h hscoped hrun

end

/-! ### After the call, and in a continuation -/

theorem getStore_restored (hs : Sound s) (ht : Sound t) {store : α}
    (hstack : t.stack = (callRun store s).stack) (hstep : restore t = some u) :
    getStore u = getStore s ∧ u.stack = s.stack := by
  have hu := ht.restore hstep
  have hcurrent : s.current = t.current := by
    have hframes := ht.frames
    rw [hstack] at hframes
    exact hframes.restored.1
  unfold restore at hstep
  rw [hstack] at hstep
  cases hstep
  refine ⟨?_, rfl⟩
  rw [hu.getStore_current, hs.getStore_current]
  show update t.storeMap s.current (s.storeMap s.current) t.current = s.storeMap s.current
  rw [← hcurrent, update_self]

/-- What a resource has captured stays until it is destroyed. -/
theorem captured_step (hid : id ≤ s.nextId) (hact : act ≠ .destroy id)
    (hstep : step s act = some s') : id ≤ s'.nextId ∧ s'.captured id = s.captured id := by
  have hrestore (h : restore s = some s') : id ≤ s'.nextId ∧ s'.captured id = s.captured id := by
    unfold restore at h
    split at h <;> cases h
    · exact ⟨hid, rfl⟩
    · unfold leaveExit
      split <;> exact ⟨hid, rfl⟩
  revert hstep
  fun_cases step s act
  case case3 | case4 | case6 => exact hrestore
  all_goals rintro ⟨⟩
  · exact ⟨hid, rfl⟩
  · unfold callExit
    split_ifs <;> exact ⟨hid, rfl⟩
  iterate 2 exact ⟨hid, rfl⟩
  · refine ⟨Nat.le_succ_of_le hid, update_of_ne ?_ _ _⟩
    omega
  iterate 2 exact ⟨hid, rfl⟩
  · have hne := fun heq => hact (congrArg Act.destroy heq).symm
    split_ifs <;> exact ⟨hid, update_of_ne hne _ _⟩

/-- The resource that was made last is entered later. -/
theorem getStore_entered (hs : Sound s) (hcreate : step s (.create looks trigger) = some s')
    (hc : Scoped s (.create looks trigger)) (hrun : run step s' acts = some t)
    (hscoped : RunEach step Scoped s' acts) (hacts : ∀ act ∈ acts, act ≠ .destroy s'.nextId)
    (henter : step t (.enter s'.nextId) = some u) (hnew : Scoped t (.enter s'.nextId)) :
    getStore u = getStore s := by
  have ht := sound_of_run (hs.step hc hcreate) hrun hscoped
  have hu := ht.step hnew henter
  have hkept : s'.nextId ≤ t.nextId ∧ t.captured s'.nextId = s'.captured s'.nextId := by
    refine RunEach.invariant (I := fun x => s'.nextId ≤ x.nextId ∧
      x.captured s'.nextId = s'.captured s'.nextId) ?_ ⟨Nat.le_refl _, rfl⟩
      (runEach_of_forall hacts s') hrun
    rintro x act x' ⟨hle, hsame⟩ hact hstep
    obtain ⟨hle', hsame'⟩ := captured_step hle hact hstep
    exact ⟨hle', hsame'.trans hsame⟩
  rw [hu.getStore_eq]
  simp only [step] at henter
  split_ifs at henter
  cases henter
  refine hkept.2.trans ?_
  cases hcreate
  exact update_self _ _ _

/-- **In every program whose `run` callbacks do not return promises** `getStore()` gives the store
of the innermost frame, and nothing outside of every frame. After a call of `run` it gives what it
gave before, and in a continuation what it gave where the resource was made. -/
theorem run_restores {acts : List (Act α)} {s : State α}
    (hrun : run step State.initial acts = some s)
    (hscoped : RunEach step Scoped State.initial acts) :
    getStore s = visible s.captured s.stack ∧
      (s.stack = [] → getStore s = none) ∧
      (∀ store acts' t u, run step (callRun store s) acts' = some t →
        RunEach step Scoped (callRun store s) acts' → t.stack = (callRun store s).stack →
        step t .returned = some u ∨ step t .thrown = some u → getStore u = getStore s) ∧
      ∀ looks trigger acts' s' t u, step s (.create looks trigger) = some s' →
        Scoped s (.create looks trigger) → run step s' acts' = some t →
        RunEach step Scoped s' acts' → (∀ act ∈ acts', act ≠ .destroy s'.nextId) →
        step t (.enter s'.nextId) = some u → Scoped t (.enter s'.nextId) →
        getStore u = getStore s := by
  have hs := sound_of_run sound_initial hrun hscoped
  refine ⟨hs.getStore_eq, fun hstack => ?_, ?_, ?_⟩
  · rw [hs.getStore_eq, hstack]
    rfl
  · intro store acts' t u hrun' hscoped' hstack hstep
    have ht := sound_of_run (hs.callRun store) hrun' hscoped'
    exact (getStore_restored hs ht hstack (hstep.elim id id)).1
  · intro looks trigger acts' s' t u hcreate hc hrun' hscoped' hacts henter hnew
    exact getStore_entered hs hcreate hc hrun' hscoped' hacts henter hnew

/-- A continuation of a resource that was made inside a `run`, after the `run` has returned. -/
theorem run_restores_continuation :
    ∃ s : State ℕ, run step State.initial [.run 1, .create false 0, .returned, .enter 2] = some s ∧
      getStore s = some 1 := by
  refine exists_of_run step rfl fun hrun => (run_restores hrun ?_).1
  refine ⟨trivial, fun _ h => ?_⟩
  cases h
  refine ⟨nofun, fun _ h => ?_⟩
  cases h
  refine ⟨trivial, fun _ h => ?_⟩
  cases h
  refine ⟨?_, fun _ _ => trivial⟩
  show 2 ∉ [bootstrap]
  decide

/-- The callback of a `run` returns a promise: the caller still sees its store. And of two such
calls the store of the first is visible when both promises are settled. -/
theorem promises_leave_stores :
    (∃ s : State ℕ, run step State.initial [.run 1, .returnedPromise] = some s ∧
      s.stack = [] ∧ getStore s = some 1) ∧
    ∃ s : State ℕ, run step State.initial
        [.run 1, .returnedPromise, .run 2, .returnedPromise, .settle 0, .settle 0] = some s ∧
      s.stack = [] ∧ s.deferred = [] ∧ getStore s = some 1 :=
  ⟨⟨_, rfl, rfl, rfl⟩, _, rfl, rfl, rfl, rfl⟩

end RasterRuntime.AsyncHooks
