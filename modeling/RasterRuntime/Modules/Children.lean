import RasterRuntime.Modules.Once

/-! # Children and the current module

Two things that a load leaves in the loader besides its tables: the record of a new module becomes a
child of the module that required it, and a guard makes the module whose body runs the current
one. -/

namespace RasterRuntime.Modules

open Loader
open Option (elim_none elim_some map_map some_inj)

/-! ### The current module -/

/-- The module that the guards of the loads make the current one. -/
def pointer : List Frame → Option Ref
  | [] => none
  | f :: rest => f.guard.elim (pointer rest) fun _ => some f.record

/-- Each guard restores the module that was the current one before. -/
def Guarded : List Frame → Prop
  | [] => True
  | f :: rest => (∀ g, f.guard = some g → g = pointer rest) ∧ Guarded rest

structure Pointed (current : Option Ref) (stack : List Frame) : Prop where
  current : current = pointer stack
  guarded : Guarded stack

section Pointed

variable {c : Option Ref} {f : Frame} {rest : List Frame}

theorem Pointed.push (h : Pointed c rest) (hf : f.guard = none) : Pointed c (f :: rest) where
  current := by
    rw [pointer, hf]
    exact h.current
  guarded := ⟨(fun g hg => by rw [hf] at hg; cases hg), h.guarded⟩

theorem Pointed.pushGuard (h : Pointed c rest) (hf : f.guard = some c) :
    Pointed (some f.record) (f :: rest) where
  current := by
    rw [pointer, hf]
    rfl
  guarded := by
    refine ⟨fun g hg => ?_, h.guarded⟩
    rw [hf] at hg
    rw [← some_inj.mp hg]
    exact h.current

theorem Pointed.pop {s : Loader} (h : Pointed s.current (f :: rest)) :
    Pointed (s.dropGuard f).current rest := by
  refine ⟨?_, h.guarded.2⟩
  unfold Loader.dropGuard
  cases hf : f.guard with
  | none =>
    have hcurrent := h.current
    rw [pointer, hf] at hcurrent
    exact hcurrent
  | some g => exact h.guarded.1 g hf

theorem mem_of_pointer {stack : List Frame} {r : Ref} (h : pointer stack = some r) :
    ∃ f ∈ stack, f.record = r := by
  induction stack with
  | nil => cases h
  | cons f rest ih =>
    rw [pointer] at h
    generalize f.guard = guard at h
    cases guard with
    | none =>
      obtain ⟨f', hf', hr⟩ := ih h
      exact ⟨f', List.mem_cons_of_mem f hf', hr⟩
    | some g => exact ⟨f, .head _, some_inj.mp h⟩

end Pointed

/-! ### Children -/

namespace Loader

section

variable {s s' : Loader} {p r : Ref} {f : Record → Record}

theorem childrenOf_modify (r : Ref)
    (hf : ∀ record, (f record).children = record.children) (p : Ref) :
    (s.modify r f).childrenOf p = s.childrenOf p := by
  have hcomp : Record.children ∘ f = Record.children := funext hf
  rw [childrenOf, elim_modify, hcomp, ite_self]
  rfl

theorem childrenOf_setLoaded (r : Ref) (b : Bool) (p : Ref) :
    (s.setLoaded r b).childrenOf p = s.childrenOf p :=
  childrenOf_modify r (f := fun record => { record with loaded := b }) (fun _ => rfl) p

theorem childrenOf_congr (h : s'.records = s.records) (p : Ref) :
    s'.childrenOf p = s.childrenOf p := by
  rw [childrenOf, childrenOf, h]

theorem childrenOf_of_le (h : s.records.length ≤ p) : s.childrenOf p = [] := by
  rw [childrenOf, List.getElem?_eq_none h]
  rfl

theorem childrenOf_construct (W : World) (id : Text) (parent : Option Ref) (p : Ref) :
    (s.construct W id parent).childrenOf p = s.childrenOf p := by
  rcases Nat.lt_or_ge p s.records.length with h | h
  · exact elim_construct W id parent [] Record.children h
  · rw [childrenOf_of_le h, childrenOf, construct, List.getElem?_append_right h]
    cases p - s.records.length <;> rfl

theorem childrenOf_linkChild (parent child p : Ref) : (s.linkChild parent child).childrenOf p =
    if parent = p ∧ p < s.records.length then s.childrenOf p ++ [child] else s.childrenOf p := by
  rw [childrenOf, linkChild, elim_modify]
  by_cases hp : p < s.records.length
  · rw [childrenOf, List.getElem?_eq_getElem hp]
    by_cases heq : parent = p
    · rw [if_pos heq, if_pos ⟨heq, hp⟩]
      rfl
    · rw [if_neg heq, if_neg fun h => heq h.1]
  · rw [childrenOf, List.getElem?_eq_none (Nat.le_of_not_lt hp), elim_none, elim_none,
      ite_self, if_neg]
    exact fun h => hp h.2

/-- Only new records become children. -/
structure Extends (s s' : Loader) : Prop where
  length : s.records.length ≤ s'.records.length
  kept : ∀ {p r}, r ∈ s.childrenOf p → r ∈ s'.childrenOf p
  fresh : ∀ {p r}, r ∈ s'.childrenOf p →
    r ∈ s.childrenOf p ∨ s.records.length ≤ r ∧ r < s'.records.length

theorem Extends.refl (s : Loader) : Extends s s := ⟨Nat.le_refl _, id, .inl⟩

theorem Extends.trans {s'' : Loader} (h : Extends s s') (h' : Extends s' s'') : Extends s s'' where
  length := Nat.le_trans h.length h'.length
  kept := fun hr => h'.kept (h.kept hr)
  fresh := by
    intro p r hr
    rcases h'.fresh hr with hr | ⟨hle, hlt⟩
    · rcases h.fresh hr with hr | ⟨hle, hlt⟩
      · exact .inl hr
      · exact .inr ⟨hle, Nat.lt_of_lt_of_le hlt h'.length⟩
    · exact .inr ⟨Nat.le_trans h.length hle, hlt⟩

/-- A record that is there becomes nobody's child. -/
theorem Extends.mem_iff (h : Extends s s') (hr : r < s.records.length) :
    r ∈ s'.childrenOf p ↔ r ∈ s.childrenOf p := by
  refine ⟨fun hmem => ?_, h.kept⟩
  rcases h.fresh hmem with hmem | ⟨hle, -⟩
  · exact hmem
  · exact absurd hr (Nat.not_lt_of_le hle)

theorem Extends.of_eq (hlength : s.records.length ≤ s'.records.length)
    (h : ∀ p, s'.childrenOf p = s.childrenOf p) : Extends s s' where
  length := hlength
  kept := fun {p _} hr => (h p).symm ▸ hr
  fresh := fun {p _} hr => .inl (h p ▸ hr)

theorem Extends.of_records (h : s'.records = s.records) : Extends s s' :=
  .of_eq (Nat.le_of_eq (congrArg List.length h.symm)) (childrenOf_congr h)

theorem extends_modify (r : Ref) (hf : ∀ record, (f record).children = record.children) :
    Extends s (s.modify r f) :=
  .of_eq (Nat.le_of_eq (length_modify r f).symm) (childrenOf_modify r hf)

theorem extends_setLoaded (r : Ref) (b : Bool) : Extends s (s.setLoaded r b) :=
  extends_modify r (f := fun record => { record with loaded := b }) fun _ => rfl

theorem extends_setExports (r : Ref) (v : Value) : Extends s (s.setExports r v) :=
  extends_modify r (f := fun record => { record with exports := v }) fun _ => rfl

theorem extends_construct (W : World) (id : Text) (parent : Option Ref) :
    Extends s (s.construct W id parent) :=
  .of_eq (by rw [construct, List.length_append]; omega) (childrenOf_construct W id parent)

/-! ### New modules -/

section Create

variable (W : World) (n : Text) (parent : Option Ref)

theorem childrenOf_enrol (p : Ref) : (s.enrol W n parent).childrenOf p = s.childrenOf p :=
  (childrenOf_congr rfl p).trans (childrenOf_construct W n parent p)

theorem length_enrol : (s.enrol W n parent).records.length = s.records.length + 1 :=
  List.length_append ..

theorem length_create : (s.create W n parent).records.length = s.records.length + 1 := by
  rw [create_eq]
  cases parent with
  | none => exact length_enrol W n none
  | some p => exact (length_modify p _).trans (length_enrol W n (some p))

theorem mem_create (h : r ∈ (s.create W n parent).childrenOf p) :
    r ∈ s.childrenOf p ∨ r = s.records.length ∧ parent = some p := by
  rw [create_eq] at h
  cases parent with
  | none => exact .inl (childrenOf_enrol W n none p ▸ h)
  | some q =>
    rw [elim_some, childrenOf_linkChild, childrenOf_enrol] at h
    split_ifs at h with hq
    · rcases List.mem_append.mp h with h | h
      · exact .inl h
      · exact .inr ⟨List.mem_singleton.mp h, congrArg some hq.1⟩
    · exact .inl h

theorem mem_create_of_mem (h : r ∈ s.childrenOf p) :
    r ∈ (s.create W n parent).childrenOf p := by
  rw [create_eq]
  cases parent with
  | none => exact (childrenOf_enrol W n none p).symm ▸ h
  | some q =>
    rw [elim_some, childrenOf_linkChild, childrenOf_enrol]
    split_ifs
    · exact List.mem_append_left _ h
    · exact h

theorem mem_create_self (hp : p < s.records.length) :
    s.records.length ∈ (s.create W n (some p)).childrenOf p := by
  rw [create_eq, elim_some, childrenOf_linkChild, length_enrol,
    if_pos ⟨rfl, Nat.lt_succ_of_lt hp⟩]
  exact List.mem_append_right _ (List.mem_singleton.mpr rfl)

theorem extends_create : Extends s (s.create W n parent) where
  length := by
    rw [length_create]
    omega
  kept := mem_create_of_mem W n parent
  fresh := by
    intro p r h
    rw [length_create]
    rcases mem_create W n parent h with h | ⟨rfl, -⟩
    · exact .inl h
    · exact .inr ⟨Nat.le_refl _, Nat.lt_succ_self _⟩

theorem extends_getOrCreate : Extends s (s.getOrCreate W n parent).2 := by
  unfold getOrCreate
  cases s.cache n with
  | some r => exact .refl s
  | none => exact extends_create W n parent

end Create

/-! ### Modules that are nobody's children -/

/-- Children are records, and no module that is idle is one. -/
structure Unlinked (s : Loader) : Prop where
  bounded : ∀ {p r}, r ∈ s.childrenOf p → r < s.records.length
  idle : ∀ {n r}, s.cache n = some r → (s.view n).Idle → ∀ p, r ∉ s.childrenOf p

theorem unlinked_empty : empty.Unlinked where
  bounded := nofun
  idle := nofun

/-- The modules that are idle were so before, or are nobody's children for another reason. -/
theorem Unlinked.mono (h : s.Unlinked) (hwf : s.WellFormed) (hext : Extends s s')
    (hidle : ∀ n r, s'.cache n = some r → (s'.view n).Idle →
      s.cache n = some r ∧ (s.view n).Idle ∨ ∀ p, r ∉ s'.childrenOf p) : s'.Unlinked where
  bounded := by
    intro p r hr
    rcases hext.fresh hr with hr | hr
    · exact Nat.lt_of_lt_of_le (h.bounded hr) hext.length
    · exact hr.2
  idle := by
    intro n r hr hi p
    rcases hidle n r hr hi with ⟨hr, hi⟩ | hnot
    · rw [hext.mem_iff (hwf.bounded hr)]
      exact h.idle hr hi p
    · exact hnot p

variable {n : Text}

theorem cache_of_view_eq (h : s'.view n = s.view n) : s'.cache n = s.cache n := by
  have hcached : (s'.view n).cached.map Prod.fst = (s.view n).cached.map Prod.fst := by rw [h]
  rw [view, view, map_map, map_map] at hcached
  have hid (t : Loader) : (Prod.fst ∘ fun r => (r, t.isLoaded r, t.exportsOf r)) = id := rfl
  rwa [hid, hid, Option.map_id, id, id] at hcached

variable (h : s.Unlinked) (hwf : s.WellFormed)

include h hwf

/-- An operation after which its module is not idle or not in the cache. -/
theorem Unlinked.changes {v : View} (hext : Extends s s')
    (hc : Changes s s' n v) (hv : v.cached = none ∨ ¬ v.Idle) :
    s'.Unlinked := by
  refine h.mono hwf hext fun n' r hr hi => .inl ?_
  by_cases hn : n' = n
  · subst hn
    rw [hc.self] at hi
    rcases hv with hv | hv
    · rw [← hc.self, view_cached hr] at hv
      cases hv
    · exact absurd hi hv
  · have hview := hc.others n' hn
    rw [hview] at hi
    exact ⟨cache_of_view_eq hview ▸ hr, hi⟩

theorem Unlinked.of_views (hext : Extends s s') (hview : ∀ n, s'.view n = s.view n) : s'.Unlinked :=
  h.mono hwf hext fun n _ hr hi => .inl ⟨cache_of_view_eq (hview n) ▸ hr, hview n ▸ hi⟩

theorem Unlinked.setExports (r : Ref) (v : Value) : (s.setExports r v).Unlinked := by
  refine h.mono hwf (extends_setExports r v) fun n r' hr hi => .inl ⟨hr, ?_⟩
  by_cases hn : s.cache n = some r
  · rw [(changes_setExports hwf hn v).self] at hi
    refine ⟨fun {r b e} hc => ?_, hi.value, hi.progress⟩
    obtain ⟨hcache, rfl, -⟩ := cache_of_view hc
    cases hn.symm.trans hcache
    exact hi.cached rfl
  · rwa [show (s.setExports r v).view n = s.view n from view_modify_of_ne r _ hn] at hi

theorem Unlinked.getOrCreate (W : World) (n : Text) : (s.getOrCreate W n none).2.Unlinked := by
  unfold Loader.getOrCreate
  cases hc : s.cache n with
  | some r => exact h
  | none =>
    refine h.mono hwf (extends_create W n none) fun n' r hr hi => ?_
    rcases cache_enrol W none hr with ⟨-, rfl⟩ | ⟨hn, hr⟩
    · refine .inr fun p hp => ?_
      rcases mem_create W n none hp with hp | ⟨-, hp⟩
      · exact absurd (h.bounded hp) (Nat.lt_irrefl _)
      · cases hp
    · rw [show (s.create W n none).view n' = s.view n' from view_enrol_of_ne W none hwf hn] at hi
      exact .inl ⟨hr, hi⟩

end

end Loader

end RasterRuntime.Modules
