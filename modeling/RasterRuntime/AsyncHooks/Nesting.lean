import RasterRuntime.Transition

/-! # The execution id around callbacks

`before` saves the execution id on a stack and `after` takes it back, but each of them only if the
resource is in the id map at that moment, and what happens in between can change the map. The scope
of a request and that of an `AsyncResource` do not look at the map.

* `restored_iff`: every `after` restores the execution id and the stack in exactly the runs in which
  each resource is in the map at its `after` if it was at its `before`, and only then, unless an
  `after` that takes too much finds nothing to take. -/

namespace RasterRuntime.AsyncHooks.Nesting

open Function (update)
open Transition

/-- An async id and a trigger id. -/
abbrev Ids := UInt64 × Int64

def bootstrapContext : Ids := (1, 1)

structure AsyncHookIds (T : Type) where
  nextAsyncId : UInt64 := 1
  idMap : T → Option Ids := fun _ => none
  currentId : Ids := bootstrapContext
  scopeStack : List Ids := []

variable {T : Type}

/-- `allocate_async_id`: 0 and 1 are passed over. -/
def allocateAsyncId (ids : AsyncHookIds T) : UInt64 :=
  if 1 < ids.nextAsyncId + 1 then ids.nextAsyncId + 1 else 2

def pushAsyncContext (ids : AsyncHookIds T) (id : Ids) : AsyncHookIds T :=
  { ids with scopeStack := ids.currentId :: ids.scopeStack, currentId := id }

def popAsyncContext (ids : AsyncHookIds T) : AsyncHookIds T :=
  { ids with currentId := ids.scopeStack.headD bootstrapContext, scopeStack := ids.scopeStack.tail }

def getIdMap (ids : AsyncHookIds T) (target : T) : Ids := (ids.idMap target).getD (0, 0)

/-- Does a scope push and pop? That of a resource of the id map does, and one without a `target`. -/
def tracked (ids : AsyncHookIds T) (target : Option T) : Bool :=
  target.all fun t => (getIdMap ids t).1 ≠ 0

/-- The last part of `after`. -/
def leave (ids : AsyncHookIds T) (target : Option T) : AsyncHookIds T :=
  if tracked ids target then popAsyncContext ids else ids

def insertIdMap [DecidableEq T] (ids : AsyncHookIds T) (target : T) (parent : Option T) :
    AsyncHookIds T :=
  let id := allocateAsyncId ids
  { ids with
    nextAsyncId := id
    idMap := update ids.idMap target
      (some (id, ((parent.bind ids.idMap).getD ids.currentId).1.toInt64)) }

/-- The scopes that are open, each with the ids at its `before`, and whether every `after` has
restored what there was at its `before`. -/
structure State (T : Type) where
  ids : AsyncHookIds T := {}
  opened : List (Option T × AsyncHookIds T) := []
  restored : Bool := true

/-- `init` says whether hooks are tracked; `after` is the one of the innermost open scope. -/
inductive Event (T : Type)
  | init (target : T) (parent : Option T) (active : Bool)
  | destroy (target : T)
  | before (target : T)
  | resourceBefore (id : Ids)
  | requestBegins
  | after

def next [DecidableEq T] (s : State T) : Event T → State T
  | .init target parent active =>
    if active then { s with ids := insertIdMap s.ids target parent } else s
  | .destroy target => { s with ids := { s.ids with idMap := update s.ids.idMap target none } }
  | .before target => { s with
      ids :=
        if tracked s.ids (some target) then pushAsyncContext s.ids (getIdMap s.ids target)
        else s.ids
      opened := (some target, s.ids) :: s.opened }
  | .resourceBefore id => { s with
      ids := pushAsyncContext s.ids id
      opened := (none, s.ids) :: s.opened }
  | .requestBegins =>
    let id := allocateAsyncId s.ids
    { s with
      ids := pushAsyncContext { s.ids with nextAsyncId := id } (id, s.ids.currentId.1.toInt64)
      opened := (none, s.ids) :: s.opened }
  | .after =>
    match s.opened with
    | [] => s
    | (target, before) :: opened =>
      let ids := leave s.ids target
      ⟨ids, opened, s.restored &&
        decide (ids.currentId = before.currentId ∧ ids.scopeStack = before.scopeStack)⟩

/-- `after` pops what `before` has pushed, or there is nothing to pop. -/
def Matched (s : State T) : Event T → Prop
  | .after => ∀ scope ∈ s.opened.head?, tracked scope.2 scope.1 = tracked s.ids scope.1 ∨
      tracked scope.2 scope.1 = false ∧ s.ids.currentId = bootstrapContext ∧ s.ids.scopeStack = []
  | _ => True

/-- What the open scopes have pushed is on the stack. -/
def Stacked (ids : AsyncHookIds T) : List (Option T × AsyncHookIds T) → Prop
  | [] => True
  | (target, before) :: opened => Stacked before opened ∧ if tracked before target then
      ids.scopeStack = before.currentId :: before.scopeStack
    else ids.currentId = before.currentId ∧ ids.scopeStack = before.scopeStack

variable {ids ids' before : AsyncHookIds T} {opened : List (Option T × AsyncHookIds T)}

theorem Stacked.congr (h : Stacked ids opened) (hc : ids'.currentId = ids.currentId)
    (hs : ids'.scopeStack = ids.scopeStack) : Stacked ids' opened := by
  cases opened with
  | nil => trivial
  | cons scope opened =>
    rw [Stacked, hc, hs]
    exact h

theorem leave_restores_iff {target : Option T} (h : Stacked ids ((target, before) :: opened)) :
    ((leave ids target).currentId = before.currentId ∧
        (leave ids target).scopeStack = before.scopeStack) ↔
      tracked before target = tracked ids target ∨
        tracked before target = false ∧ ids.currentId = bootstrapContext ∧ ids.scopeStack = [] := by
  have hstack := h.2
  unfold leave popAsyncContext
  cases hb : tracked before target <;> cases ha : tracked ids target
  all_goals simp only [hb, if_true, Bool.false_eq_true, if_false] at hstack ⊢
  · simpa using hstack
  · -- nothing was pushed, so the pop is harmless only at the bottom
    rw [← hstack.1, ← hstack.2]
    cases ids.scopeStack <;> simp [eq_comm]
  · simp [hstack]
  · simp [hstack]

variable [DecidableEq T] {s : State T} {e : Event T}

theorem Stacked.next (hr : s.restored) (h : Stacked s.ids s.opened) (hm : Matched s e) :
    (next s e).restored ∧ Stacked (next s e).ids (next s e).opened := by
  fun_cases Nesting.next s e with
  | case1 | case3 => exact ⟨hr, h.congr rfl rfl⟩
  | case2 | case7 => exact ⟨hr, h⟩
  | case4 target =>
    refine ⟨hr, h, ?_⟩
    split_ifs
    · rfl
    · exact ⟨rfl, rfl⟩
  | case5 | case6 => exact ⟨hr, h, rfl⟩
  | case8 target before opened ho =>
    rw [ho] at h
    have hrest := (leave_restores_iff h).mpr (hm _ (by rw [ho]; rfl))
    exact ⟨Bool.and_eq_true_iff.mpr ⟨hr, decide_eq_true hrest⟩, h.1.congr hrest.1 hrest.2⟩

theorem not_restored (h : Stacked s.ids s.opened) (hm : ¬ Matched s e) : ¬ (next s e).restored := by
  cases e with
  | after =>
    intro hr
    refine hm fun scope hscope => ?_
    obtain ⟨opened, ho⟩ := List.head?_eq_some_iff.mp hscope
    rw [ho] at h
    simp only [Nesting.next, ho, Bool.and_eq_true, decide_eq_true_eq] at hr
    exact (leave_restores_iff h).mp hr.2
  | _ => exact absurd trivial hm

theorem restored_iff (es : List (Event T)) :
    Throughout next (fun s => s.restored = true) {} es ↔ Each next Matched {} es :=
  throughout_iff_each (I := fun s : State T => s.restored = true ∧ Stacked s.ids s.opened)
    (fun _ h => h.1) (fun _ _ h => h.2.next h.1) (fun _ _ h => not_restored h.2) es ⟨rfl, trivial⟩

/-- A resource is destroyed while its callback runs: the execution id stays that of the resource. -/
theorem destroyed_not_restored : ¬ Throughout next (fun s => s.restored = true) ({} : State Unit)
    [.init () none true, .before (), .destroy (), .after] := by
  intro ⟨_, _, _, _, h⟩
  cases h

end RasterRuntime.AsyncHooks.Nesting
