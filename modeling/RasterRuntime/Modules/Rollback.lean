import Mathlib.Data.List.Nodup
import RasterRuntime.Modules.Children

/-! # Failed loads

What a `require` leaves behind whose module throws. The tables are rolled back and the guard
restores the current module, but the record was linked to its parent when it was made, and stays
linked. -/

namespace RasterRuntime.Modules

open Loader
open List (length length_cons)

/-! ### Calls of `require` -/

section Require

variable {W : World} {s s' : Loader} {stack : List Frame} {parent : Option Ref} {f : Frame}
  (h : Begins W s parent f s')

include h

theorem Begins.childrenOf (p : Ref) :
    s'.childrenOf p = (s.getOrCreate W f.name parent).2.childrenOf p := by
  obtain ⟨-, -, ⟨-, rfl⟩ | ⟨-, rfl⟩⟩ := h
  all_goals exact childrenOf_setLoaded f.record false p

theorem Begins.length : s'.records.length = (s.getOrCreate W f.name parent).2.records.length := by
  obtain ⟨-, -, ⟨-, rfl⟩ | ⟨-, rfl⟩⟩ := h
  all_goals exact length_modify f.record _

theorem Begins.extends : Extends s s' :=
  (extends_getOrCreate W f.name parent).trans (.of_eq (Nat.le_of_eq h.length.symm) h.childrenOf)

theorem Begins.pointed (hp : Pointed s.current stack) : Pointed s'.current (f :: stack) := by
  obtain ⟨-, -, ⟨hguard, rfl⟩ | ⟨hguard, rfl⟩⟩ := h
  · exact hp.pushGuard hguard
  · refine Pointed.push (f := f) ?_ hguard
    rw [← current_getOrCreate W parent f.name] at hp
    exact hp

theorem Begins.unlinked (hs : s.WellFormed) (hu : s.Unlinked) : s'.Unlinked := by
  obtain ⟨e, p, hc, -⟩ := h.changes hs
  exact hu.changes hs h.extends hc (.inr fun hi => by cases hi.progress)

theorem Begins.lt_length (hs : s.WellFormed) : f.record < s'.records.length := by
  obtain ⟨e, p, hc, -⟩ := h.changes hs
  exact hc.wellFormed.bounded (cache_of_view (congrArg View.cached hc.self)).1

/-- The module is a child of its parent exactly if its record was made for it. -/
theorem Begins.mem_iff (hu : s.Unlinked) {p : Ref} (hp : p < s.records.length) :
    f.record ∈ s'.childrenOf p ↔ parent = some p ∧ s.cache f.name = none := by
  have hrecord := h.record
  rw [h.childrenOf]
  unfold getOrCreate at hrecord ⊢
  cases hc : s.cache f.name with
  | some r =>
    rw [hc] at hrecord
    obtain rfl : r = f.record := hrecord
    refine ⟨fun hmem => absurd hmem (hu.idle hc h.idle p), fun hnone => ?_⟩
    cases hnone.2
  | none =>
    rw [hc] at hrecord
    rw [← hrecord]
    constructor
    · intro hmem
      rcases mem_create W f.name parent hmem with hmem | ⟨-, hparent⟩
      · exact absurd (hu.bounded hmem) (Nat.lt_irrefl _)
      · exact ⟨hparent, rfl⟩
    · rintro ⟨rfl, -⟩
      exact mem_create_self W f.name hp

end Require

/-! ### Actions -/

/-- The current module and the children of a loader with the loads of a stack. -/
structure Sound (s : Loader) (stack : List Frame) : Prop where
  pointed : Pointed s.current stack
  unlinked : s.Unlinked

section Sound

variable {W : World} {s : Loader} {f : Frame} {rest : List Frame} {log : List Event}

theorem sound_initial : Sound .empty [] := ⟨⟨rfl, trivial⟩, unlinked_empty⟩

theorem Sound.setExports {stack : List Frame} (h : Sound s stack) (hs : s.WellFormed) (r : Ref)
    (v : Value) : Sound (s.setExports r v) stack :=
  ⟨h.pointed, h.unlinked.setExports hs r v⟩

theorem Sound.getOrCreate {stack : List Frame} (h : Sound s stack) (hs : s.WellFormed) (W : World)
    (n : Text) : Sound (s.getOrCreate W n none).2 stack :=
  ⟨(current_getOrCreate W none n).symm ▸ h.pointed, h.unlinked.getOrCreate hs W n⟩

theorem Sound.dropGuard (h : Sound s (f :: rest)) : Sound (s.dropGuard f) rest := by
  refine ⟨h.pointed.pop, ?_⟩
  rw [dropGuard_eq]
  exact ⟨h.unlinked.bounded, h.unlinked.idle⟩

theorem wellFormed_dropGuard (h : s.WellFormed) (f : Frame) : (s.dropGuard f).WellFormed := by
  rw [dropGuard_eq]
  exact ⟨h.bounded, h.distinct⟩

theorem records_dropGuard (s : Loader) (f : Frame) : (s.dropGuard f).records = s.records := by
  rw [dropGuard_eq]

theorem cache_dropGuard (s : Loader) (f : Frame) : (s.dropGuard f).cache = s.cache := by
  rw [dropGuard_eq]

theorem Sound.complete (hsim : Simulates s (f :: rest) log) (h : Sound s (f :: rest)) :
    Sound ((s.dropGuard f).complete f.name f.record) rest ∧
      Extends s ((s.dropGuard f).complete f.name f.record) := by
  obtain ⟨e, p, hv, -⟩ := hsim.of_frame (frameOf_cons_self f rest)
  have hcache := (cache_of_view (congrArg View.cached hv)).1
  rw [← cache_dropGuard s f] at hcache
  have hs := wellFormed_dropGuard hsim.wellFormed f
  have hext : Extends (s.dropGuard f) ((s.dropGuard f).complete f.name f.record) :=
    (extends_setLoaded f.record true).trans (.of_records rfl)
  refine ⟨⟨h.dropGuard.pointed, ?_⟩, .trans (.of_records (records_dropGuard s f)) hext⟩
  exact h.dropGuard.unlinked.changes hs hext (changes_complete hs hcache)
    (.inr fun hi => by cases hi.value)

theorem Sound.rollback (hsim : Simulates s (f :: rest) log) (h : Sound s (f :: rest)) :
    Sound ((s.dropGuard f).rollback f.name) rest ∧ Extends s ((s.dropGuard f).rollback f.name) := by
  have hs := wellFormed_dropGuard hsim.wellFormed f
  have hext : Extends (s.dropGuard f) ((s.dropGuard f).rollback f.name) := .of_records rfl
  refine ⟨⟨h.dropGuard.pointed, ?_⟩, .trans (.of_records (records_dropGuard s f)) hext⟩
  exact h.dropGuard.unlinked.changes hs hext (changes_rollback hs) (.inl rfl)

end Sound

/-- The tables, the children and the current module of a machine. -/
structure Machine.Sound (m : Machine) : Prop where
  simulating : m.Simulating
  sound : Modules.Sound m.loader m.stack

section Step

variable {W : World} {m m' : Machine} {f : Frame} {rest : List Frame} {a : Action}

/-- A machine after an action: its children and its current module, and the children it has in
common with the machine before. -/
def Machine.Follows (m m' : Machine) : Prop :=
  Modules.Sound m'.loader m'.stack ∧ Extends m.loader m'.loader

section

variable (h : m.Sound) (hstack : m.stack = f :: rest)

include h hstack

theorem Machine.Sound.endLoad (events : List Event) :
    m.Follows (m.endLoad m.loader f rest events) := by
  cases m
  cases hstack
  exact h.sound.complete h.simulating

theorem Machine.Sound.endLoad_setExports (r : Ref) (v : Value) (events : List Event) :
    m.Follows (m.endLoad (m.loader.setExports r v) f rest events) := by
  have hsim : Simulates m.loader (f :: rest) m.log := hstack ▸ h.simulating
  have hsound : Modules.Sound m.loader (f :: rest) := hstack ▸ h.sound
  obtain ⟨hend, hext⟩ := (hsound.setExports hsim.wellFormed r v).complete (hsim.assigned r v)
  exact ⟨hend, (extends_setExports r v).trans hext⟩

theorem Machine.Sound.failLoad : m.Follows (m.failLoad f rest) := by
  cases m
  cases hstack
  exact h.sound.rollback h.simulating

theorem Machine.Sound.readStep (hguard : f.guard = none)
    (hstep : readStep m f rest a = some m') : m.Follows m' := by
  rcases readStep_cases hstep with ⟨-, rfl⟩ | ⟨v, -, rfl⟩ | ⟨-, rfl⟩
  · have hpop : Pointed (m.loader.dropGuard f).current rest := (hstack ▸ h.sound.pointed).pop
    rw [Loader.dropGuard, hguard] at hpop
    refine ⟨⟨?_, h.sound.unlinked.bounded, h.sound.unlinked.idle⟩, .of_records rfl⟩
    exact hpop.pushGuard (f := { f with guard := some m.loader.current }) rfl
  · exact h.endLoad_setExports hstack f.record v _
  · exact h.failLoad hstack

end

theorem Machine.Sound.otherStep (h : m.Sound) (hstep : otherStep W m a = some m') :
    m.Follows m' := by
  have hs := h.simulating.wellFormed
  obtain ⟨s, rfl, hcases⟩ | ⟨r, v, rfl⟩ | ⟨f, rest, hstack, hend⟩ := otherStep_cases hstep
  · rcases hcases with rfl | ⟨n, rfl⟩ | ⟨id, parent, rfl⟩
    · exact ⟨h.sound, .refl _⟩
    · exact ⟨h.sound.getOrCreate hs W n, extends_getOrCreate W n none⟩
    · have hext := extends_construct (s := m.loader) W id parent
      exact ⟨⟨h.sound.pointed,
        h.sound.unlinked.of_views hs hext (view_construct W id parent hs)⟩, hext⟩
  · exact ⟨h.sound.setExports hs r v, extends_setExports r v⟩
  · rcases hend with ⟨v, -, -, rfl⟩ | ⟨v, -, -, rfl⟩ | ⟨-, rfl⟩
    · exact h.endLoad_setExports hstack f.record v _
    · exact h.endLoad hstack _
    · exact h.failLoad hstack

variable {parent : Ref} {link : Bool} {s : Loader} {specifier : Text} {acts : List Action}

theorem Machine.Sound.caller (h : m.Sound)
    (hcaller : callerOf W m a = some (parent, link, s, specifier)) :
    Simulates s m.stack m.log ∧ Modules.Sound s m.stack ∧ Extends m.loader s := by
  rcases callerOf_loader hcaller with rfl | ⟨n, rfl⟩
  · exact ⟨h.simulating, h.sound, .refl _⟩
  · exact ⟨Simulates.getOrCreate h.simulating W n none,
      h.sound.getOrCreate h.simulating.wellFormed W n, extends_getOrCreate W n none⟩

theorem Machine.Sound.require (h : m.Sound)
    (hcaller : callerOf W m a = some (parent, link, s, specifier)) :
    m.Follows (m.entered (requireFromModule W m.time s parent specifier link)) := by
  obtain ⟨hsim, hsound, hext⟩ := h.caller hcaller
  rcases hsim.require_cases W m.time parent specifier link with
    ⟨e, he⟩ | ⟨n, v, hr, -⟩ | ⟨f, s', hl, hb, -⟩
  · rw [he]
    exact ⟨hsound, hext⟩
  · rw [hr]
    exact ⟨hsound, hext⟩
  · rw [hl]
    exact ⟨⟨hb.pointed hsound.pointed, hb.unlinked hsim.wellFormed hsound.unlinked⟩,
      hext.trans hb.extends⟩

theorem Machine.Sound.follows (h : m.Sound) (hstep : Modules.step W m a = some m') :
    m.Follows m' := by
  obtain ⟨f, rest, hstack, hguard, hread⟩ |
    ⟨-, ⟨parent, link, s, specifier, hcaller, rfl⟩ | ⟨-, hother⟩⟩ := step_cases hstep
  · exact h.readStep hstack hguard hread
  · exact h.require hcaller
  · exact h.otherStep hother

/-- **Every action keeps the children and the current module in order.** -/
theorem Machine.Sound.step (h : m.Sound) (hstep : Modules.step W m a = some m') : m'.Sound :=
  ⟨h.simulating.step hstep, (h.follows hstep).1⟩

theorem Machine.sound_initial : Machine.initial.Sound := ⟨simulates_initial, Modules.sound_initial⟩

theorem sound_of_run (h : Transition.run (Modules.step W) .initial acts = some m) :
    m.Sound :=
  Transition.run_invariant (Modules.step W) (fun _ _ _ hm hstep => Machine.Sound.step hm hstep)
    Machine.sound_initial h

/-- No record becomes a child later than when it was made. -/
theorem Machine.Sound.extends (h : m.Sound)
    (hrun : Transition.run (Modules.step W) m acts = some m') : Extends m.loader m'.loader := by
  have hboth : m'.Sound ∧ Extends m.loader m'.loader := by
    refine Transition.run_invariant (Modules.step W) (P := fun m' => m'.Sound ∧
      Extends m.loader m'.loader)
      ?_ ⟨h, .refl _⟩ hrun
    rintro m₁ a m₂ ⟨hsound, hext⟩ hstep
    exact ⟨hsound.step hstep, hext.trans (hsound.follows hstep).2⟩
  exact hboth.2

end Step

/-! ### A load from its begin to its failure -/

section Stack

variable {W : World} {m m' : Machine} {f : Frame} {base : List Frame} {a : Action}

/-- An action leaves the stack, adds a load, or ends the innermost one or gives it a guard. -/
theorem step_stack (hstep : step W m a = some m') :
    m'.stack = m.stack ∨ (∃ f, m'.stack = f :: m.stack) ∨
      ∃ f rest, m.stack = f :: rest ∧
        (m'.stack = rest ∨ ∃ g, m'.stack = { f with guard := g } :: rest) := by
  obtain ⟨f, rest, hstack, -, hread⟩ |
    ⟨-, ⟨parent, link, s, specifier, -, rfl⟩ | ⟨-, hother⟩⟩ := step_cases hstep
  · refine .inr (.inr ⟨f, rest, hstack, ?_⟩)
    rcases readStep_cases hread with ⟨-, rfl⟩ | ⟨v, -, rfl⟩ | ⟨-, rfl⟩
    · exact .inr ⟨_, rfl⟩
    all_goals exact .inl rfl
  · obtain ⟨e, s'⟩ := requireFromModule W m.time s parent specifier link
    cases e with
    | failed | returned => exact .inl rfl
    | loading f => exact .inr (.inl ⟨f, rfl⟩)
  · obtain ⟨s, rfl, -⟩ | ⟨r, v, rfl⟩ | ⟨f, rest, hstack, hend⟩ := otherStep_cases hother
    · exact .inl rfl
    · exact .inl rfl
    · refine .inr (.inr ⟨f, rest, hstack, .inl ?_⟩)
      rcases hend with ⟨v, -, -, rfl⟩ | ⟨v, -, -, rfl⟩ | ⟨-, rfl⟩ <;> rfl

/-- The load `f` is under way over the loads `base`, perhaps with others over it. -/
def Above (base : List Frame) (f : Frame) (stack : List Frame) : Prop :=
  ∃ inner f', stack = inner ++ f' :: base ∧ f'.name = f.name ∧ f'.record = f.record

theorem Above.step (h : Above base f m.stack) (hstep : step W m a = some m')
    (hlt : base.length < m'.stack.length) : Above base f m'.stack := by
  obtain ⟨inner, f', hstack, hname, hrecord⟩ := h
  rcases step_stack hstep with hsame | ⟨f₁, hpush⟩ | ⟨f₁, rest, hpop, hrest⟩
  · exact ⟨inner, f', hsame.trans hstack, hname, hrecord⟩
  · exact ⟨f₁ :: inner, f', by rw [hpush, hstack, List.cons_append], hname, hrecord⟩
  · rw [hpop] at hstack
    cases inner with
    | nil =>
      cases hstack
      rcases hrest with hrest | ⟨g, hrest⟩
      · rw [hrest] at hlt
        exact absurd hlt (Nat.lt_irrefl _)
      · exact ⟨[], _, hrest, hname, hrecord⟩
    | cons x inner =>
      cases hstack
      rcases hrest with hrest | ⟨g, hrest⟩
      · exact ⟨inner, f', hrest, hname, hrecord⟩
      · exact ⟨{ f₁ with guard := g } :: inner, f', hrest, hname, hrecord⟩

theorem Above.run (h : Above base f m.stack) {acts : List Action}
    (hacts : Transition.RunEach (Modules.step W) (fun m _ => base.length < m.stack.length) m acts)
    (hrun : Transition.run (Modules.step W) m acts = some m')
    (hlt : base.length < m'.stack.length) :
    Above base f m'.stack := by
  refine Transition.RunEach.invariant (I := fun m => base.length < m.stack.length →
    Above base f m.stack)
    ?_ (fun _ => h) hacts hrun hlt
  exact fun m₁ a m₂ hm hlt hstep hlt' => (hm hlt).step hstep hlt'

theorem step_throw (h : step W m .throw = some m') :
    ∃ f rest, m.stack = f :: rest ∧ m' = m.failLoad f rest := by
  obtain ⟨f, rest, hstack, -, hread⟩ |
    ⟨-, ⟨parent, link, s, specifier, hcaller, -⟩ | ⟨-, hother⟩⟩ := step_cases h
  · exact ⟨f, rest, hstack, (Option.some_inj.mp hread).symm⟩
  · cases hcaller
  · rw [otherStep] at hother
    split at hother <;> cases hother
    next f rest hstack => exact ⟨f, rest, hstack, rfl⟩

end Stack

section Caller

variable {W : World} {s : Loader} {stack : List Frame} {log : List Event} {f : Frame}

theorem frameOf_of_mem (hnames : (stack.map Frame.name).Nodup) (hf : f ∈ stack) :
    frameOf stack f.name = some f := by
  cases hg : frameOf stack f.name with
  | none => exact absurd (List.mem_map_of_mem hf) (frameOf_eq_none.mp hg)
  | some g =>
    have hname : g.name = f.name := by simpa using List.find?_some hg
    rw [List.inj_on_of_nodup_map hnames (List.mem_of_find?_eq_some hg) hf hname]

theorem Simulates.cache_of_mem (h : Simulates s stack log) (hf : f ∈ stack) :
    s.cache f.name = some f.record := by
  obtain ⟨e, p, hv, -⟩ := h.of_frame (frameOf_of_mem h.names hf)
  exact (cache_of_view (congrArg View.cached hv)).1

theorem getOrCreate_lt {n : Text} {parent : Option Ref} {r : Ref} (hs : s.WellFormed)
    (h : s.getOrCreate W n parent = (r, s')) : r < s'.records.length := by
  obtain ⟨hwf, hcache, -⟩ := h ▸ getOrCreate_spec (n := n) W parent hs
  exact hwf.bounded hcache

variable {m : Machine} {a : Action} {parent : Ref} {link : Bool} {specifier : Text}

theorem Machine.Sound.caller_lt (h : m.Sound)
    (hcaller : callerOf W m a = some (parent, link, s, specifier)) :
    parent < s.records.length := by
  revert hcaller
  fun_cases callerOf W m a
  all_goals rintro ⟨⟩
  · assumption
  · next hcurrent =>
    obtain ⟨f, hf, rfl⟩ := mem_of_pointer (h.sound.pointed.current.symm.trans hcurrent)
    exact h.simulating.wellFormed.bounded (Simulates.cache_of_mem h.simulating hf)
  iterate 2 next hs => exact getOrCreate_lt h.simulating.wellFormed hs

theorem Machine.Sound.begins {m' : Machine} (h : m.Sound)
    (hcaller : callerOf W m a = some (parent, link, s, specifier))
    (hstep : Modules.step W m a = some m') (hstack : m'.stack = f :: m.stack) :
    Begins W s (if link then some parent else none) f m'.loader := by
  have hne : m.stack ≠ f :: m.stack := List.ne_cons_self
  obtain ⟨g, rest, hg, -, hread⟩
      | ⟨-, ⟨parent', link', s', specifier', hcaller', rfl⟩ | ⟨hnone, -⟩⟩ :=
    step_cases hstep
  · have hlength := congrArg length hstack
    rw [hg, length_cons, length_cons] at hlength
    rcases readStep_cases hread with ⟨-, rfl⟩ | ⟨v, -, rfl⟩ | ⟨-, rfl⟩
    · change rest.length + 1 = _ at hlength
      omega
    all_goals
      change rest.length = _ at hlength
      omega
  · cases hcaller.symm.trans hcaller'
    obtain ⟨hsim, -, -⟩ := h.caller hcaller
    rcases hsim.require_cases W m.time parent specifier link with
      ⟨e, he⟩ | ⟨n, v, hr, -⟩ | ⟨f', s', hl, hb, -⟩
    · rw [he] at hstack
      exact absurd hstack hne
    · rw [hr] at hstack
      exact absurd hstack hne
    · rw [hl] at hstack ⊢
      cases hstack
      exact hb
  · rw [hcaller] at hnone
    cases hnone

end Caller

/-- A failed load of `f` for the module `parent` has left no trace: `before` is the loader in which
`require` was called, `failing` the one in which the body threw. -/
structure NoTrace (before : Loader) (parent : Ref) (f : Frame) (failing after : Loader) : Prop where
  cache : after.cache f.name = none
  values : after.values f.name = none
  progress : after.progress f.name = none
  children : f.record ∉ after.childrenOf parent
  current : after.current = before.current
  others : ∀ n ≠ f.name, after.view n = failing.view n
  records : after.records = failing.records

/-- **What a failed `require` leaves behind**, whatever its module did before it threw: nothing,
exactly if its record was not made for the module that required it. -/
theorem failed_require_iff (W : World) {acts : List Action} {m₀ : Machine}
    (hrun : Transition.run (step W) .initial acts = some m₀) {a : Action} {parent : Ref}
    {link : Bool}
    {s : Loader} {specifier : Text} (hcaller : callerOf W m₀ a = some (parent, link, s, specifier))
    {m₁ : Machine} {f : Frame} (hbegin : step W m₀ a = some m₁) (hload : m₁.stack = f :: m₀.stack)
    {inner : List Action} {m₂ : Machine}
    (hinner : Transition.RunEach (step W) (fun m _ => m₀.stack.length < m.stack.length) m₁ inner)
    (hfail : Transition.run (step W) m₁ inner = some m₂) {m₃ : Machine}
    (hthrow : step W m₂ .throw = some m₃) (hend : m₃.stack = m₀.stack) :
    NoTrace m₀.loader parent f m₂.loader m₃.loader ↔ link = false ∨ s.cache f.name ≠ none := by
  have h₀ : m₀.Sound := sound_of_run hrun
  have h₁ : m₁.Sound := h₀.step hbegin
  have h₂ : m₂.Sound := Transition.run_invariant (step W)
    (fun _ _ _ hm hstep => Machine.Sound.step hm hstep) h₁ hfail
  have h₃ : m₃.Sound := h₂.step hthrow
  have hb := h₀.begins hcaller hbegin hload
  obtain ⟨hsim, hsound, -⟩ := h₀.caller hcaller
  obtain ⟨f', rest, hstack, rfl⟩ := step_throw hthrow
  obtain rfl : rest = m₀.stack := hend
  -- The load that fails is the one that `require` began.
  have hlt : m₀.stack.length < m₂.stack.length := by
    rw [hstack, length_cons]
    exact Nat.lt_succ_self _
  have habove : Above m₀.stack f m₁.stack := ⟨[], f, hload, rfl, rfl⟩
  obtain ⟨above, f'', hstack', hname, hrecord⟩ := habove.run hinner hfail hlt
  have hlength := congrArg length (hstack.symm.trans hstack')
  rw [List.length_append, length_cons, length_cons] at hlength
  obtain rfl : above = [] := List.length_eq_zero_iff.mp (by omega)
  cases hstack.symm.trans hstack'
  -- Its record is a child in the end exactly if it was one at the begin.
  have hrecords : (m₂.failLoad f' m₀.stack).loader.records = m₂.loader.records :=
    records_dropGuard m₂.loader f'
  have hchild : f.record ∉ (m₂.failLoad f' m₀.stack).loader.childrenOf parent ↔
      link = false ∨ s.cache f.name ≠ none := by
    rw [childrenOf_congr hrecords, (h₁.extends hfail).mem_iff (hb.lt_length hsim.wellFormed),
      hb.mem_iff hsound.unlinked (h₀.caller_lt hcaller)]
    cases link <;> simp
  have hc := changes_rollback (n := f.name) (wellFormed_dropGuard h₂.simulating.wellFormed f')
  have hloader : (m₂.failLoad f' m₀.stack).loader = (m₂.loader.dropGuard f').rollback f.name := by
    rw [← hname]
    rfl
  have hdrop (n : Text) : (m₂.loader.dropGuard f').view n = m₂.loader.view n := by
    rw [dropGuard_eq]
    rfl
  constructor
  · exact fun h => hchild.mp h.children
  · intro h
    refine ⟨?_, ?_, ?_, hchild.mpr h, ?_, ?_, hrecords⟩
    · exact cache_of_view_none (by rw [hloader, hc.self])
    · exact congrArg View.value (hloader ▸ hc.self)
    · exact congrArg View.progress (hloader ▸ hc.self)
    · exact h₃.sound.pointed.current.trans h₀.sound.pointed.current.symm
    · intro n hn
      rw [hloader, hc.others n hn, hdrop]

/-- A script requires `/b.js`, which throws. -/
theorem failed_require_of_script : ∃ f m₁ m₂ m₃,
    step twoFiles .initial (.globalRequire "/main.js".toList "/b.js".toList) = some m₁ ∧
      Transition.run (step twoFiles) m₁ [.begin] = some m₂ ∧ step twoFiles m₂ .throw = some m₃ ∧
      NoTrace Loader.empty 0 f m₂.loader m₃.loader := by
  have hnil : Transition.run (step twoFiles) .initial [] = some .initial := rfl
  have hload : step twoFiles .initial (.globalRequire "/main.js".toList "/b.js".toList) =
      some _ := rfl
  have hinner (m : Machine) (hlt : 0 < m.stack.length) :
      Transition.RunEach (step twoFiles) (fun m _ => 0 < m.stack.length) m [.begin] :=
    ⟨hlt, fun _ _ => trivial⟩
  exact ⟨_, _, _, _, hload, rfl, rfl, (failed_require_iff twoFiles hnil rfl hload rfl
    (hinner _ (by decide)) rfl rfl rfl).mpr (.inl rfl)⟩

/-- **The loader refines the registry**: the tables and the loads under way are those of the phases,
and the current module is that of the innermost body that runs. -/
theorem loader_refines (W : World) (acts : List Action) (m : Machine)
    (hrun : Transition.run (step W) .initial acts = some m) :
    Lawful m.log ∧ (∀ n, Tied (m.loader.view n) (frameOf m.stack n) (phase n m.log)) ∧
      Pointed m.loader.current m.stack := by
  have h := sound_of_run hrun
  exact ⟨h.simulating.lawful, h.simulating.tied, h.sound.pointed⟩

/-- The body of `/b.js` runs inside that of `/a.js`. -/
theorem loader_refines_running : ∃ m, Transition.run (step twoFiles) .initial
    [.globalRequire "/main.js".toList "/a.js".toList, .begin, .moduleRequire 1 "/b.js".toList,
      .begin] = some m ∧
      m.stack.length = 2 ∧ Lawful m.log ∧
      (∀ n, Tied (m.loader.view n) (frameOf m.stack n) (phase n m.log)) ∧
      Pointed m.loader.current m.stack :=
  Transition.exists_of_run _ rfl fun hrun => ⟨rfl, loader_refines twoFiles _ _ hrun⟩

/-- The module `/a.js` requires `/b.js`, which throws and stays among the children of `/a.js`. -/
theorem failed_require_stays_child : ∃ f m₀ m₁ m₂ m₃,
    Transition.run (step twoFiles) .initial
        [.globalRequire "/main.js".toList "/a.js".toList, .begin] = some m₀ ∧
      step twoFiles m₀ (.moduleRequire 1 "/b.js".toList) = some m₁ ∧ m₁.stack = f :: m₀.stack ∧
      Transition.run (step twoFiles) m₁ [.begin] = some m₂ ∧ step twoFiles m₂ .throw = some m₃ ∧
      m₃.stack = m₀.stack ∧ ¬ NoTrace m₀.loader 1 f m₂.loader m₃.loader := by
  refine ⟨_, _, _, _, _, rfl, rfl, rfl, rfl, rfl, rfl, fun h => h.children ?_⟩
  decide

end RasterRuntime.Modules
