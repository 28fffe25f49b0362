import RasterRuntime.Modules.Loader

/-! # What the tables say about a module

The tables and the record that the cache holds for a module, taken together, are its `View`. Each
operation of the loader changes the view of one module. -/

namespace RasterRuntime.Modules

open Function (update update_apply update_eq_self update_of_ne update_self)

/-- What the tables say about a module: its record with the flag and the exports in it, its value
and whether it is being loaded. -/
structure View where
  cached : Option (Ref × Bool × Value)
  value : Option Value
  progress : Option Progress

/-- The module is not loaded and not being loaded. -/
structure View.Idle (v : View) : Prop where
  cached : ∀ {r b e}, v.cached = some (r, b, e) → b = false
  value : v.value = none
  progress : v.progress = none

namespace Loader

def view (s : Loader) (n : Text) : View where
  cached := (s.cache n).map fun r => (r, s.isLoaded r, s.exportsOf r)
  value := s.values n
  progress := s.progress n

/-- The cache holds records, and no two modules have one record. -/
structure WellFormed (s : Loader) : Prop where
  bounded : ∀ {n r}, s.cache n = some r → r < s.records.length
  distinct : ∀ {n n' r}, s.cache n = some r → s.cache n' = some r → n = n'

theorem wellFormed_empty : empty.WellFormed where
  bounded := nofun
  distinct := nofun

section

variable {s : Loader} {n : Text} {r : Ref}

theorem cache_of_view {b : Bool} {e : Value} (h : (s.view n).cached = some (r, b, e)) :
    s.cache n = some r ∧ s.isLoaded r = b ∧ s.exportsOf r = e := by
  obtain ⟨r', hr, heq⟩ := Option.map_eq_some_iff.mp h
  cases heq
  exact ⟨hr, rfl, rfl⟩

theorem view_cached (h : s.cache n = some r) :
    (s.view n).cached = some (r, s.isLoaded r, s.exportsOf r) := by
  rw [view, h]
  rfl

theorem cache_of_view_none (h : (s.view n).cached = none) : s.cache n = none :=
  Option.map_eq_none_iff.mp h

/-! ### Records -/

variable {record : Record}

theorem exports_of_record (h : s.records[r]? = some record) :
    record.exports = s.exportsOf r := by
  rw [exportsOf, h]
  rfl

theorem loaded_of_record (h : s.records[r]? = some record) :
    record.loaded = s.isLoaded r := by
  rw [isLoaded, h]
  rfl

section Modify

variable (r) (f : Record → Record)

theorem elim_modify {α : Type} (d : α) (g : Record → α) (r' : Ref) :
    ((s.modify r f).records[r']?).elim d g =
      if r = r' then (s.records[r']?).elim d (g ∘ f) else (s.records[r']?).elim d g := by
  rw [modify, List.getElem?_modify]
  split_ifs with h
  all_goals cases s.records[r']? <;> rfl

theorem length_modify : (s.modify r f).records.length = s.records.length := List.length_modify ..

theorem WellFormed.modify (h : s.WellFormed) : (s.modify r f).WellFormed where
  bounded := fun hn => (length_modify r f).symm ▸ h.bounded hn
  distinct := h.distinct

theorem view_modify_of_ne (h : s.cache n ≠ some r) : (s.modify r f).view n = s.view n := by
  refine congrArg (View.mk · _ _) (Option.map_congr fun r' hr' => ?_)
  have hne : r ≠ r' := by
    rintro rfl
    exact h hr'
  rw [isLoaded, isLoaded, exportsOf, exportsOf, elim_modify, elim_modify, if_neg hne, if_neg hne]

theorem view_modify_of_eq {b : Bool} {e : Value} (h : s.WellFormed) (hr : s.cache n = some r)
    (hb : ∀ record, s.records[r]? = some record → (f record).loaded = b)
    (he : ∀ record, s.records[r]? = some record → (f record).exports = e) :
    (s.modify r f).view n = ⟨some (r, b, e), s.values n, s.progress n⟩ := by
  have hrecord := List.getElem?_eq_getElem (h.bounded hr)
  have hcached := view_cached (s := s.modify r f) (n := n) (r := r) hr
  rw [isLoaded, exportsOf, elim_modify, elim_modify, if_pos rfl, if_pos rfl, hrecord] at hcached
  refine congrArg (View.mk · _ _) (hcached.trans ?_)
  rw [← hb _ hrecord, ← he _ hrecord]
  rfl

end Modify

theorem view_linkChild (h : s.WellFormed) (parent child : Ref) (n : Text) :
    (s.linkChild parent child).view n = s.view n := by
  by_cases hn : s.cache n = some parent
  · rw [linkChild,
      view_modify_of_eq parent _ h hn (b := s.isLoaded parent) (e := s.exportsOf parent),
      view, hn]
    · rfl
    · exact fun record h => (loaded_of_record h : record.loaded = _)
    · exact fun record h => (exports_of_record h : record.exports = _)
  · exact view_modify_of_ne parent _ hn

/-! ### New records -/

section Construct

variable (W : World) (id : Text) (parent : Option Ref)

theorem elim_construct {α : Type} (d : α) (g : Record → α) (h : r < s.records.length) :
    ((s.construct W id parent).records[r]?).elim d g = (s.records[r]?).elim d g := by
  rw [construct, List.getElem?_append_left h]

theorem WellFormed.construct (h : s.WellFormed) : (s.construct W id parent).WellFormed where
  bounded := fun hn => by
    rw [Loader.construct, List.length_append]
    exact Nat.lt_add_right _ (h.bounded hn)
  distinct := h.distinct

theorem view_construct (h : s.WellFormed) (n : Text) :
    (s.construct W id parent).view n = s.view n := by
  refine congrArg (View.mk · _ _) (Option.map_congr fun r hr => ?_)
  have hlt := h.bounded (s := s) hr
  rw [isLoaded, isLoaded, exportsOf, exportsOf, elim_construct W id parent _ _ hlt,
    elim_construct W id parent _ _ hlt]

end Construct

section Create

variable (W : World) (parent : Option Ref)

/-- The new record in the cache, before it is linked. -/
def enrol (s : Loader) (W : World) (n : Text) (parent : Option Ref) : Loader :=
  { s.construct W n parent with cache := update s.cache n (some s.records.length) }

theorem create_eq (n : Text) : s.create W n parent =
    parent.elim (s.enrol W n parent) fun p =>
      (s.enrol W n parent).linkChild p s.records.length := by
  cases parent with
  | none | some => rfl

variable {n' : Text}

theorem cache_enrol (h : (s.enrol W n parent).cache n' = some r) :
    n' = n ∧ r = s.records.length ∨ n' ≠ n ∧ s.cache n' = some r := by
  have hupdate : update s.cache n (some s.records.length) n' = some r := h
  rw [update_apply] at hupdate
  split_ifs at hupdate with hn
  · exact .inl ⟨hn, (Option.some_inj.mp hupdate).symm⟩
  · exact .inr ⟨hn, hupdate⟩

theorem WellFormed.enrol (h : s.WellFormed) : (s.enrol W n parent).WellFormed where
  bounded := by
    intro n' r hr
    have hlength : (s.enrol W n parent).records.length = s.records.length + 1 :=
      List.length_append ..
    rw [hlength]
    rcases cache_enrol W parent hr with ⟨-, rfl⟩ | ⟨-, hr⟩
    · exact Nat.lt_succ_self _
    · exact Nat.lt_succ_of_lt (h.bounded hr)
  distinct := by
    intro n₁ n₂ r h₁ h₂
    rcases cache_enrol W parent h₁ with ⟨rfl, rfl⟩ | ⟨-, h₁⟩
    · rcases cache_enrol W parent h₂ with ⟨rfl, -⟩ | ⟨-, h₂⟩
      · rfl
      · exact absurd (h.bounded h₂) (Nat.lt_irrefl _)
    · rcases cache_enrol W parent h₂ with ⟨-, rfl⟩ | ⟨-, h₂⟩
      · exact absurd (h.bounded h₁) (Nat.lt_irrefl _)
      · exact h.distinct h₁ h₂

theorem view_enrol_self : (s.enrol W n parent).view n =
    ⟨some (s.records.length, false, .object s.objects), s.values n, s.progress n⟩ := by
  have hcache : (s.enrol W n parent).cache n = some s.records.length := update_self ..
  have hrecord : (s.enrol W n parent).records[s.records.length]? =
      some ⟨moduleFilename W n, .object s.objects, false, [], parent⟩ := List.getElem?_concat_length
  rw [view, hcache, Option.map_some, isLoaded, exportsOf, hrecord]
  rfl

theorem view_enrol_of_ne (h : s.WellFormed) (hn : n' ≠ n) :
    (s.enrol W n parent).view n' = s.view n' := by
  rw [← view_construct W n parent h n']
  have hcache : (s.enrol W n parent).cache n' = s.cache n' := update_of_ne hn ..
  rw [view, hcache]
  rfl

theorem WellFormed.create (h : s.WellFormed) : (s.create W n parent).WellFormed := by
  rw [create_eq]
  cases parent with
  | none => exact h.enrol W none
  | some p => exact (h.enrol W (some p)).modify p _

theorem view_create (h : s.WellFormed) (n' : Text) :
    (s.create W n parent).view n' = (s.enrol W n parent).view n' := by
  rw [create_eq]
  cases parent with
  | none => rfl
  | some p => exact view_linkChild (h.enrol W (some p)) p s.records.length n'

theorem getOrCreate_spec (h : s.WellFormed) :
    (s.getOrCreate W n parent).2.WellFormed ∧
      (s.getOrCreate W n parent).2.cache n = some (s.getOrCreate W n parent).1 ∧
      (∀ n' ≠ n, (s.getOrCreate W n parent).2.view n' = s.view n') ∧
      ((s.view n).Idle → ((s.getOrCreate W n parent).2.view n).Idle) ∧
      (s.cache n ≠ none → (s.getOrCreate W n parent).2 = s) := by
  unfold getOrCreate
  cases hc : s.cache n with
  | some r => exact ⟨h, hc, fun _ _ => rfl, id, fun _ => rfl⟩
  | none =>
    have hself : (s.create W n parent).view n =
        ⟨some (s.records.length, false, .object s.objects), s.values n, s.progress n⟩ :=
      (view_create W parent h n).trans (view_enrol_self W parent)
    refine ⟨h.create W parent, ?_, ?_, ?_, fun hne => absurd rfl hne⟩
    · exact (cache_of_view (congrArg View.cached hself)).1
    · intro n' hn
      exact (view_create W parent h n').trans (view_enrol_of_ne W parent h hn)
    · intro hidle
      rw [hself]
      refine ⟨?_, hidle.value, hidle.progress⟩
      rintro r b e heq
      cases heq
      rfl

theorem current_getOrCreate (n : Text) : (s.getOrCreate W n parent).2.current = s.current := by
  unfold getOrCreate
  cases s.cache n with
  | some r => rfl
  | none =>
    cases parent with
    | none | some p => rfl

end Create

/-! ### The answer of the tables -/

theorem cachedValue_of_none (h : s.values n = none) : s.cachedValue n = (none, s) := by
  rw [cachedValue, h]

theorem known_idle (h : (s.view n).Idle) : s.known n = (none, s) := by
  have hunloaded : s.knownUnloaded n = (none, s) := by
    rw [knownUnloaded, cachedValue_of_none h.value]
    dsimp only
    rw [inProgress, show s.progress n = none from h.progress]
    rfl
  unfold known
  cases hc : s.cache n with
  | none => exact hunloaded
  | some r =>
    have hloaded : s.isLoaded r = false := h.cached (view_cached hc)
    dsimp only
    rw [hloaded]
    exact hunloaded

theorem known_done {v : Value} (h : (s.view n).cached = some (r, true, v)) :
    s.known n = (some v, s) := by
  obtain ⟨hc, hloaded, hexports⟩ := cache_of_view h
  rw [known, hc]
  dsimp only
  rw [hloaded, if_pos rfl, hexports]

variable {e : Value}

theorem known_progress {p : Progress} (h : s.view n = ⟨some (r, false, e), none, some p⟩) :
    s.known n = (s.inProgress n, s) := by
  obtain ⟨hc, hloaded, -⟩ := cache_of_view (congrArg View.cached h)
  rw [known, hc]
  dsimp only
  rw [hloaded, if_neg Bool.false_ne_true, knownUnloaded,
    cachedValue_of_none (congrArg View.value h)]

theorem inProgress_record (h : s.view n = ⟨some (r, false, e), none, some (.record r)⟩) :
    s.inProgress n = some e := by
  obtain ⟨-, -, hexports⟩ := cache_of_view (congrArg View.cached h)
  have hp : s.progress n = some (.record r) := congrArg View.progress h
  rw [inProgress, hp, ← hexports]
  rfl

/-! ### Loads -/

theorem view_congr {s' : Loader} (hrecords : s'.records = s.records)
    (hcache : s'.cache n = s.cache n)
    (hvalues : s'.values n = s.values n) (hprogress : s'.progress n = s.progress n) :
    s'.view n = s.view n := by
  have hloaded : s'.isLoaded = s.isLoaded := by
    funext r
    rw [isLoaded, isLoaded, hrecords]
  have hexports : s'.exportsOf = s.exportsOf := by
    funext r
    rw [exportsOf, exportsOf, hrecords]
  rw [view, view, hcache, hvalues, hprogress, hloaded, hexports]

theorem enterExtensions_idle (hr : s.cache n = some r) (h : (s.view n).Idle) :
    s.enterExtensions n r =
      (none, { s.setLoaded r false with
               progress := update s.progress n (some (.record r)) }) := by
  rw [enterExtensions, show s.isLoaded r = false from h.cached (view_cached hr),
    if_neg Bool.false_ne_true, cachedValue_of_none h.value]
  dsimp only
  rw [show s.progress n = none from h.progress]

/-- An operation on the module `n`: its view becomes `v`, and the others stay. -/
structure Changes (s s' : Loader) (n : Text) (v : View) : Prop where
  wellFormed : s'.WellFormed
  self : s'.view n = v
  others : ∀ n' ≠ n, s'.view n' = s.view n'

section Load

variable (hs : s.WellFormed) (hr : s.cache n = some r)
include hs hr

variable {s' : Loader} {v : Option Value} {p : Option Progress}

theorem Changes.of_modify (f : Record → Record) {b : Bool}
    (hb : ∀ record, s.records[r]? = some record → (f record).loaded = b)
    (he : ∀ record, s.records[r]? = some record → (f record).exports = e)
    (hrecords : s'.records = (s.modify r f).records) (hcache : s'.cache = s.cache)
    (hvalues : s'.values = update s.values n v)
    (hprogress : s'.progress = update s.progress n p) :
    Changes s s' n ⟨some (r, b, e), v, p⟩ where
  wellFormed := by
    refine ⟨?_, ?_⟩
    · intro n' r' h
      rw [hrecords]
      rw [hcache] at h
      exact (hs.modify r f).bounded h
    · intro n₁ n₂ r' h₁ h₂
      rw [hcache] at h₁ h₂
      exact hs.distinct h₁ h₂
  self := by
    have hview := view_modify_of_eq r f hs hr hb he
    have heq : ({ s' with values := s.values, progress := s.progress } : Loader).view n =
        (s.modify r f).view n := view_congr hrecords (congrFun hcache n) rfl rfl
    rw [view, hvalues, hprogress, update_self, update_self]
    exact congrArg (View.mk · v p) (congrArg View.cached (heq.trans hview))
  others := by
    intro n' hn
    rw [← view_modify_of_ne r f fun h => hn (hs.distinct h hr)]
    refine view_congr hrecords (congrFun hcache n') ?_ ?_
    · rw [hvalues, update_of_ne hn]
      rfl
    · rw [hprogress, update_of_ne hn]
      rfl

theorem changes_setExports (v : Value) :
    Changes s (s.setExports r v) n ⟨some (r, s.isLoaded r, v), s.values n, s.progress n⟩ := by
  refine Changes.of_modify hs hr (fun record => { record with exports := v }) ?_ ?_ rfl rfl ?_ ?_
  · exact fun record h => (loaded_of_record h : record.loaded = _)
  · exact fun _ _ => rfl
  all_goals exact (update_eq_self ..).symm

theorem Changes.of_setLoaded (b : Bool) (hrecords : s'.records = (s.setLoaded r b).records)
    (hcache : s'.cache = s.cache) (hvalues : s'.values = update s.values n v)
    (hprogress : s'.progress = update s.progress n p) :
    Changes s s' n ⟨some (r, b, s.exportsOf r), v, p⟩ :=
  .of_modify hs hr (fun record => { record with loaded := b }) (fun _ _ => rfl)
    (fun record h => (exports_of_record h : record.exports = _)) hrecords hcache hvalues hprogress

theorem changes_enterExtensions :
    Changes s { s.setLoaded r false with
                progress := update s.progress n (some (.record r)) } n
      ⟨some (r, false, s.exportsOf r), s.values n, some (.record r)⟩ :=
  .of_setLoaded hs hr false rfl rfl (update_eq_self ..).symm rfl

theorem changes_enterImport :
    Changes s (s.enterImport n r) n
      ⟨some (r, false, s.exportsOf r), s.values n, some (.object s.objects)⟩ :=
  .of_setLoaded hs hr false rfl rfl (update_eq_self ..).symm rfl

theorem changes_complete :
    Changes s (s.complete n r) n ⟨some (r, true, s.exportsOf r), some (s.exportsOf r), none⟩ :=
  .of_setLoaded hs hr true rfl rfl rfl rfl

end Load

theorem cache_rollback {n' : Text} (h : (s.rollback n).cache n' = some r) :
    s.cache n' = some r := by
  have hupdate : update s.cache n none n' = some r := h
  rw [update_apply] at hupdate
  split_ifs at hupdate
  exact hupdate

theorem changes_rollback (hs : s.WellFormed) : Changes s (s.rollback n) n ⟨none, none, none⟩ where
  wellFormed := ⟨fun h => hs.bounded (cache_rollback h),
    fun h h' => hs.distinct (cache_rollback h) (cache_rollback h')⟩
  self := by
    rw [view, rollback]
    dsimp only
    rw [update_self, update_self, update_self]
    rfl
  others := by
    intro n' hn
    exact view_congr rfl (update_of_ne hn ..) (update_of_ne hn ..)
      (update_of_ne hn ..)

end

end Loader

end RasterRuntime.Modules
