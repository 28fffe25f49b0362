import RasterRuntime.Events.Table

/-! # What an emit calls

Emits that listeners make run inside one another, and each goes through the snapshot it began with.
Of the log, three lists matter: the registrations, the snapshots that emits began with, and the
calls of listeners.

* `Progress`: what an emit in the middle of its snapshot has called.
* `Fits`: the table, the flags of the `once` listeners, the stack and the three lists fit together.
  An emit above another on the stack began later; a `once` listener that is about to be called is in
  no table, in no snapshot above, and has not been called.
* `coherent_of_run`: every run of an `EventEmitter` keeps that.
* `emit_calls_snapshot`: an emit that returns has called the listeners of its snapshot, in order,
  but the `once` listeners that an emit inside it had called; and no `once` registration is called
  twice. -/

namespace RasterRuntime.Events

open Transition
open List (any_eq_true append_nil filterMap_append filter_append forall_mem_cons map map_append
  map_cons mem_append mem_append_left mem_cons mem_filter mem_map mem_singleton nodup_cons
  not_mem_nil
  pairwise_cons)

/-! ### Reading the log -/

def Entry.registration : Entry → Option (EventKey × EventItem)
  | .added key item => some (key, item)
  | _ => none

def Entry.beginning : Entry → Option (ℕ × EventKey × List EventItem)
  | .began e key snapshot => some (e, key, snapshot)
  | _ => none

def Entry.call : Entry → Option (ℕ × EventItem)
  | .called e item => some (e, item)
  | _ => none

/-- The registrations made. -/
def registrations (log : List Entry) : List (EventKey × EventItem) :=
  log.filterMap Entry.registration

/-- The snapshots that emits began with. -/
def beginnings (log : List Entry) : List (ℕ × EventKey × List EventItem) :=
  log.filterMap Entry.beginning

/-- The listeners called, each with the emit that called it. -/
def calls (log : List Entry) : List (ℕ × EventItem) := log.filterMap Entry.call

/-- The listeners that an emit has called, in order. -/
def callsOf (e : ℕ) (called : List (ℕ × EventItem)) : List EventItem :=
  (called.filter (·.1 = e)).map (·.2)

/-- Does the emit call the listener? It leaves out a `once` listener that a later emit has
called. -/
def keeps (e : ℕ) (called : List (ℕ × EventItem)) (item : EventItem) : Bool :=
  !(item.once && called.any fun call => e < call.1 && call.2 = item)

variable {called : List (ℕ × EventItem)} {e : ℕ} {item : EventItem}

theorem mem_callsOf :
    item ∈ callsOf e called ↔ (e, item) ∈ called := by
  simp [callsOf]

theorem callsOf_concat (e e' : ℕ) (item : EventItem) (called : List (ℕ × EventItem)) :
    callsOf e (called ++ [(e', item)]) =
      callsOf e called ++ if e' = e then [item] else [] := by
  unfold callsOf
  rw [filter_append, map_append]
  by_cases h : e' = e <;> simp [h]

theorem keeps_eq_false :
    keeps e called item = false ↔ item.once ∧ ∃ e', e < e' ∧ (e', item) ∈ called := by
  simp [keeps, and_comm]

theorem keeps_of_not_called (h : item.once → ∀ e', (e', item) ∉ called) : keeps e called item := by
  refine eq_true_of_ne_false fun hfalse => ?_
  obtain ⟨honce, e', -, he'⟩ := keeps_eq_false.1 hfalse
  exact h honce e' he'

/-- A new call changes what an emit leaves out only if it is a later emit's call of that `once`
listener. -/
theorem keeps_concat {e' : ℕ} {x : EventItem} (h : x.once → e < e' → x ≠ item) :
    keeps e (called ++ [(e', item)]) x = keeps e called x := by
  unfold keeps
  rw [List.any_append]
  cases hx : x.once with
  | false => rfl
  | true =>
    by_cases hlt : e < e'
    · have hne : item ≠ x := (h hx hlt).symm
      simp [hne]
    · simp [hlt]

/-! ### Frames -/

/-- The emit of a frame, its event, and the listeners it has not dealt with. -/
def Frame.emission : Frame → Option (ℕ × EventKey × List EventItem)
  | .doEmit e key callbacks => some (e, key, callbacks)
  | .fire e key item callbacks => some (e, key, item :: callbacks)
  | _ => none

/-- The `once` listener that is about to be called. -/
def Frame.firing : Frame → Option EventItem
  | .fire _ _ item _ => some item
  | _ => none

theorem Frame.firing_eq_none {f : Frame} (h : f.emission = none) : f.firing = none := by
  cases f with
  | doEmit | fire => cases h
  | js | insert | removed | removeIds | removeKeys => rfl

/-- The first frame may stand above the second. -/
structure Frame.Above (f g : Frame) : Prop where
  later : ∀ {e key items e' key' items'}, f.emission = some (e, key, items) →
    g.emission = some (e', key', items') → e' < e
  apart : ∀ {e key items item}, f.emission = some (e, key, items) → g.firing = some item →
    item.id ∉ items.map (·.id)

theorem Frame.above_of_emission {f g : Frame} (h : f.emission = none) : f.Above g :=
  ⟨fun hf => absurd (h.symm.trans hf) (Option.some_ne_none _).symm,
    fun hf => absurd (h.symm.trans hf) (Option.some_ne_none _).symm⟩

/-- The frame on top may be exchanged for one of the same emit. -/
theorem Frame.Above.exchange {f f' g : Frame} (h : f.Above g) {items items' : List EventItem}
    {key : EventKey} (hf : f.emission = some (e, key, items))
    (hf' : f'.emission = some (e, key, items')) (hsub : items' ⊆ items) : f'.Above g := by
  refine ⟨fun h1 h2 => ?_, fun h1 h2 => ?_⟩
  · cases hf'.symm.trans h1
    exact h.later hf h2
  · cases hf'.symm.trans h1
    exact fun hmem => h.apart hf h2 (List.map_subset _ hsub hmem)

/-- **An emit in the middle of its snapshot**: what it has dealt with and what is left make up the
snapshot it began with, and it has called what it has dealt with, but for the `once` listeners
called by emits inside it. -/
structure Progress (regs : List (EventKey × EventItem))
    (begun : List (ℕ × EventKey × List EventItem)) (called : List (ℕ × EventItem)) (e : ℕ)
    (key : EventKey) (pending snapshot done : List EventItem) : Prop where
  began : (e, key, snapshot) ∈ begun
  split : snapshot = done ++ pending
  nodup : (snapshot.map (·.id)).Nodup
  registered : ∀ item ∈ snapshot, (key, item) ∈ regs
  calls : callsOf e called = done.filter (keeps e called)
  later : ∀ item ∈ pending, item.once = true → ∀ e', (e', item) ∈ called → e < e'

/-! ### The invariant -/

/-- **The table, the flags, the stack and the lists of the log fit together.** -/
structure Fits (events : EventList) (fired : List ℕ) (nextId nextEmit : ℕ) (stack : List Frame)
    (regs : List (EventKey × EventItem)) (begun : List (ℕ × EventKey × List EventItem))
    (called : List (ℕ × EventItem)) : Prop where
  proper : Proper events
  nodup : ∀ key, ((table events key).map (·.id)).Nodup
  registered : ∀ key, ∀ item ∈ table events key, (key, item) ∈ regs
  fresh : ∀ r ∈ regs, r.2.id < nextId
  unique : ∀ r ∈ regs, ∀ r' ∈ regs, r.2.id = r'.2.id → r = r'
  known : ∀ call ∈ called, ∃ key, (key, call.2) ∈ regs
  flagged : ∀ id ∈ fired, ∃ call ∈ called, call.2.id = id
  sets : ∀ call ∈ called, call.2.once = true → call.2.id ∈ fired
  idle : ∀ key, ∀ item ∈ table events key, item.id ∉ fired
  onces : ∀ item : EventItem, item.once = true → (called.map (·.2)).count item ≤ 1
  calls : ∀ call ∈ called, call.1 < nextEmit
  begins : ∀ b ∈ begun, b.1 < nextEmit
  distinct : ∀ b ∈ begun, ∀ b' ∈ begun, b.1 = b'.1 → b = b'
  frames : ∀ f ∈ stack, ∀ e key items, f.emission = some (e, key, items) →
    e < nextEmit ∧ ∃ snapshot done, Progress regs begun called e key items snapshot done
  firing : ∀ f ∈ stack, ∀ item, f.firing = some item →
    item.once = true ∧ item.id ∉ fired ∧ ∀ key, item.id ∉ (table events key).map (·.id)
  order : stack.Pairwise Frame.Above

section Steps

variable {events : EventList} {fired : List ℕ} {nextId nextEmit : ℕ} {stack : List Frame}
  {regs : List (EventKey × EventItem)} {begun : List (ℕ × EventKey × List EventItem)}
  {f : Frame} {key : EventKey}
    {snapshot done rest : List EventItem}

theorem mem_placing {x : EventItem} {prepend : Bool} {items : List EventItem}
    (h : x ∈ placing item prepend items) : x = item ∨ x ∈ items := by
  cases prepend <;> simpa [placing, or_comm] using h

theorem Progress.register {pending : List EventItem}
    (h : Progress regs begun called e key pending snapshot done) (r : EventKey × EventItem) :
    Progress (regs ++ [r]) begun called e key pending snapshot done :=
  { h with registered := fun item hitem => mem_append_left _ (h.registered item hitem) }

theorem callsOf_eq_nil (h : ∀ call ∈ called, call.1 < nextEmit) : callsOf nextEmit called = [] := by
  refine List.eq_nil_iff_forall_not_mem.2 fun item hitem => ?_
  exact Nat.lt_irrefl _ (h _ (mem_callsOf.1 hitem))

section Fitting

variable (h : Fits events fired nextId nextEmit stack regs begun called)

include h

/-! ### Steps on the stack -/

theorem Fits.restack {stack' : List Frame} (hmem : ∀ f ∈ stack', f ∈ stack ∨ f.emission = none)
    (hpair : stack'.Pairwise Frame.Above) :
    Fits events fired nextId nextEmit stack' regs begun called :=
  { h with
    frames := fun f hf e key items hemission => by
      rcases hmem f hf with hf | hnone
      · exact h.frames f hf e key items hemission
      · rw [hnone] at hemission
        cases hemission
    firing := fun f hf item hfiring => by
      rcases hmem f hf with hf | hnone
      · exact h.firing f hf item hfiring
      · rw [Frame.firing_eq_none hnone] at hfiring
        cases hfiring
    order := hpair }

theorem Fits.push (hf : f.emission = none) :
    Fits events fired nextId nextEmit (f :: stack) regs begun called := by
  refine h.restack (forall_mem_cons.2 ⟨.inr hf, fun _ => .inl⟩) (pairwise_cons.2 ⟨?_, h.order⟩)
  exact fun g _ => Frame.above_of_emission hf

theorem Fits.sublist {stack' : List Frame} (hsub : stack'.Sublist stack) :
    Fits events fired nextId nextEmit stack' regs begun called :=
  h.restack (fun _ hf => .inl (hsub.subset hf)) (h.order.sublist hsub)

/-! ### Steps on the table -/

theorem Fits.remove (key : EventKey) {f : List EventItem → List EventItem}
    (hf : ∀ items, (f items).Sublist items) :
    Fits (removing key f events) fired nextId nextEmit stack regs begun called := by
  have hsub : ∀ k, (table (removing key f events) k).Sublist (table events k) := by
    intro k
    rw [table_removing h.proper key (List.sublist_nil.1 (hf []))]
    split_ifs with hk
    · subst hk
      exact hf _
    · exact List.Sublist.refl _
  exact { h with
    proper := h.proper.removing key f
    nodup := fun k => (h.nodup k).sublist ((hsub k).map _)
    registered := fun k item hitem => h.registered k item ((hsub k).subset hitem)
    idle := fun k item hitem => h.idle k item ((hsub k).subset hitem)
    firing := fun g hg item hitem => by
      obtain ⟨honce, hid, habsent⟩ := h.firing g hg item hitem
      exact ⟨honce, hid, fun k hmem => habsent k (((hsub k).map _).subset hmem)⟩ }

theorem Fits.lt_of_mem_table (hitem : item ∈ table events key) : item.id < nextId :=
  h.fresh _ (h.registered key item hitem)

theorem Fits.add (key : EventKey) (callback : ℕ) (prepend once : Bool) :
    Fits (adding key ⟨nextId, callback, once⟩ prepend events) fired (nextId + 1) nextEmit stack
      (regs ++ [(key, ⟨nextId, callback, once⟩)]) begun called := by
  have hmem : ∀ k item, item ∈ table (adding key ⟨nextId, callback, once⟩ prepend events) k →
      (k = key ∧ item = ⟨nextId, callback, once⟩) ∨ item ∈ table events k := by
    intro k item hitem
    rw [table_adding] at hitem
    split_ifs at hitem with hk
    · subst hk
      exact (mem_placing hitem).imp_left fun he => ⟨rfl, he⟩
    · exact .inr hitem
  exact { h with
    proper := h.proper.adding key _ prepend
    nodup := fun k => by
      rw [table_adding]
      split_ifs with hk
      · have hnew : nextId ∉ (table events key).map (·.id) := by
          intro hid
          obtain ⟨x, hx, hid⟩ := mem_map.1 hid
          exact Nat.ne_of_lt (h.lt_of_mem_table hx) hid
        cases prepend with
        | true => exact nodup_cons.2 ⟨hnew, h.nodup key⟩
        | false =>
          change (map (·.id) (table events key ++ [⟨nextId, callback, once⟩])).Nodup
          rw [map_append]
          exact List.Nodup.append (h.nodup key) (List.nodup_singleton _)
            (List.disjoint_singleton.2 hnew)
      · exact h.nodup k
    registered := fun k item hitem => by
      rcases hmem k item hitem with ⟨rfl, rfl⟩ | hitem
      · simp
      · exact mem_append_left _ (h.registered k item hitem)
    fresh := forall_mem_concat.2
      ⟨fun r hr => Nat.lt_succ_of_lt (h.fresh r hr), Nat.lt_succ_self _⟩
    unique := unique_concat h.unique fun r hr => Nat.ne_of_lt (h.fresh r hr)
    known := fun call hcall => by
      obtain ⟨k, hk⟩ := h.known call hcall
      exact ⟨k, mem_append_left _ hk⟩
    idle := fun k item hitem hid => by
      rcases hmem k item hitem with ⟨rfl, rfl⟩ | hitem
      · obtain ⟨call, hcall, he⟩ := h.flagged _ hid
        obtain ⟨k, hk⟩ := h.known call hcall
        exact Nat.ne_of_lt (h.fresh _ hk) he
      · exact h.idle k item hitem hid
    frames := fun f hf e k items hemission => by
      obtain ⟨hlt, snapshot, done, hprogress⟩ := h.frames f hf e k items hemission
      exact ⟨hlt, snapshot, done, hprogress.register _⟩
    firing := fun f hf item hfiring => by
      obtain ⟨honce, hid, habsent⟩ := h.firing f hf item hfiring
      refine ⟨honce, hid, fun k hx => ?_⟩
      obtain ⟨x, hx, hxid⟩ := mem_map.1 hx
      rcases hmem k x hx with ⟨rfl, rfl⟩ | hx
      · -- The listener about to be called was registered before.
        obtain ⟨e, k, callbacks, hemission⟩ : ∃ e k callbacks,
            f.emission = some (e, k, item :: callbacks) := by
          cases f <;> cases hfiring
          exact ⟨_, _, _, rfl⟩
        obtain ⟨-, snapshot, done, hprogress⟩ := h.frames _ hf e k _ hemission
        have hreg := hprogress.registered item (by rw [hprogress.split]; simp)
        exact absurd hxid (Nat.ne_of_gt (h.fresh _ hreg))
      · exact habsent k (mem_map.2 ⟨x, hx, hxid⟩) }

/-! ### An emit from its beginning to its end -/

theorem Fits.not_called (honce : item.once) (hid : item.id ∉ fired) (e : ℕ) :
    (e, item) ∉ called :=
  fun hcalled => hid (h.sets _ hcalled honce)

theorem Fits.later :
    Fits events fired nextId (nextEmit + 1) stack regs begun called :=
  { h with
    calls := fun call hcall => Nat.lt_succ_of_lt (h.calls call hcall)
    begins := fun b hb => Nat.lt_succ_of_lt (h.begins b hb)
    frames := fun f hf e key items hemission =>
      ⟨Nat.lt_succ_of_lt (h.frames f hf e key items hemission).1,
        (h.frames f hf e key items hemission).2⟩ }

theorem Fits.begin (key : EventKey) :
    Fits events fired nextId (nextEmit + 1) (.doEmit nextEmit key (table events key) :: stack) regs
      (begun ++ [(nextEmit, key, table events key)]) called := by
  have hprogress : Progress regs (begun ++ [(nextEmit, key, table events key)]) called nextEmit key
      (table events key) (table events key) [] :=
    { began := by simp
      split := rfl
      nodup := h.nodup key
      registered := h.registered key
      calls := callsOf_eq_nil h.calls
      later := fun item hitem honce e' he' =>
        absurd he' (h.not_called honce (h.idle key item hitem) e') }
  exact { h.later with
    begins := forall_mem_concat.2 ⟨h.later.begins, Nat.lt_succ_self _⟩
    distinct := unique_concat h.distinct fun b hb => Nat.ne_of_lt (h.begins b hb)
    frames := forall_mem_cons.2 ⟨fun e k items hemission => by
      cases hemission
      exact ⟨Nat.lt_succ_self _, _, _, hprogress⟩, fun f hf e k items hemission => by
      obtain ⟨hlt, snapshot, done, hp⟩ := h.later.frames f hf e k items hemission
      exact ⟨hlt, snapshot, done, { hp with began := mem_append_left _ hp.began }⟩⟩
    firing := forall_mem_cons.2 ⟨nofun, h.firing⟩
    order := by
      refine pairwise_cons.2 ⟨fun g hg => ⟨?_, ?_⟩, h.order⟩
      · intro e k items e' k' items' hf hg'
        cases hf
        exact (h.frames g hg e' k' items' hg').1
      · intro e k items item hf hfiring
        cases hf
        exact (h.firing g hg item hfiring).2.2 key }

end Fitting

theorem Fits.pop (h : Fits events fired nextId nextEmit (f :: stack) regs begun called) :
    Fits events fired nextId nextEmit stack regs begun called :=
  h.sublist (List.sublist_cons_self f stack)

theorem Fits.replace {g : Frame}
    (h : Fits events fired nextId nextEmit (f :: stack) regs begun called)
    {items items' : List EventItem} (hf : f.emission = some (e, key, items))
    (hg : g.emission = some (e, key, items')) (hsub : items' ⊆ items)
    (hprogress : ∃ snapshot done, Progress regs begun called e key items' snapshot done)
    (hfiring : ∀ item, g.firing = some item →
      item.once ∧ item.id ∉ fired ∧ ∀ key, item.id ∉ (table events key).map (·.id)) :
    Fits events fired nextId nextEmit (g :: stack) regs begun called := by
  obtain ⟨habove, hstack⟩ := pairwise_cons.1 h.order
  exact { h with
    frames := forall_mem_cons.2 ⟨fun e' key' items'' hemission => by
      cases hg.symm.trans hemission
      exact ⟨(h.frames f (.head _) e key items hf).1, hprogress⟩, (forall_mem_cons.1 h.frames).2⟩
    firing := forall_mem_cons.2 ⟨hfiring, (forall_mem_cons.1 h.firing).2⟩
    order := pairwise_cons.2 ⟨fun f' hf' => (habove f' hf').exchange hf hg hsub, hstack⟩ }

theorem Progress.item_not_mem (h : Progress regs begun called e key (item :: rest) snapshot done) :
    item ∉ rest := by
  intro hmem
  have hnodup := h.nodup
  rw [h.split, map_append, map_cons] at hnodup
  exact (nodup_cons.1 (List.nodup_append.1 hnodup).2.1).1 (mem_map.2 ⟨item, hmem, rfl⟩)

section

variable
  (h : Fits events fired nextId nextEmit (.doEmit e key (item :: rest) :: stack) regs begun called)
  (honce : item.once)

include h honce

/-- A `once` listener that an emit inside has called is passed over. -/
theorem Fits.skip (hfired : item.id ∈ fired) :
    Fits events fired nextId nextEmit (.doEmit e key rest :: stack) regs begun called := by
  obtain ⟨-, snapshot, done, hp⟩ := h.frames _ (.head _) e key _ rfl
  -- The flag is set by a call of this very registration.
  obtain ⟨⟨e', item'⟩, hcall, hid⟩ := h.flagged _ hfired
  obtain ⟨key', hreg'⟩ := h.known _ hcall
  have hreg := hp.registered item (by rw [hp.split]; simp)
  obtain ⟨rfl, rfl⟩ : key' = key ∧ item' = item := by
    simpa using h.unique _ hreg' _ hreg hid
  have hlt := hp.later item' (.head _) honce e' hcall
  refine h.replace rfl rfl (List.subset_cons_self _ _) ⟨snapshot, done ++ [item'], ?_⟩
    (nofun)
  exact { hp with
    split := by rw [hp.split]; simp
    calls := by
      rw [filter_append, hp.calls, List.filter_cons_of_neg, List.filter_nil, append_nil]
      rw [keeps_eq_false.2 ⟨honce, e', hlt, hcall⟩]
      exact Bool.false_ne_true
    later := fun x hx => hp.later x (.tail _ hx) }

/-- A `once` listener that has not been called gets ready once it is in no table. -/
theorem Fits.ready (hfired : item.id ∉ fired)
    (habsent : ∀ key, item.id ∉ (table events key).map (·.id)) :
    Fits events fired nextId nextEmit (.fire e key item rest :: stack) regs begun called := by
  obtain ⟨-, hp⟩ := h.frames _ (.head _) e key _ rfl
  refine h.replace rfl rfl (List.Subset.refl _) hp fun item' hitem' => ?_
  cases hitem'
  exact ⟨honce, hfired, habsent⟩

end

theorem Progress.concat {e' : ℕ} {pending : List EventItem}
    (h : Progress regs begun called e key pending snapshot done) (he : e < e')
    (hnot : item.once → ∀ e', (e', item) ∉ called) :
    Progress regs begun (called ++ [(e', item)]) e key pending snapshot done := by
  refine { h with calls := ?_, later := ?_ }
  · -- A listener this emit has dealt with is not called for the first time later.
    have hkeeps : ∀ x ∈ done, keeps e (called ++ [(e', item)]) x = keeps e called x := by
      intro x hx
      refine keeps_concat fun honce _ => ?_
      rintro rfl
      have hmem : x ∈ done.filter (keeps e called) :=
        mem_filter.2 ⟨hx, keeps_of_not_called hnot⟩
      rw [← h.calls, mem_callsOf] at hmem
      exact hnot honce e hmem
    rw [callsOf_concat, if_neg (Nat.ne_of_gt he), append_nil, h.calls,
      List.filter_congr hkeeps]
  · intro x hx honce e'' hcall
    rcases mem_append.1 hcall with hcall | hcall
    · exact h.later x hx honce e'' hcall
    · cases mem_singleton.1 hcall
      exact he

theorem Progress.call (h : Progress regs begun called e key (item :: rest) snapshot done)
    (hnot : item.once → ∀ e', (e', item) ∉ called) :
    Progress regs begun (called ++ [(e, item)]) e key rest snapshot (done ++ [item]) := by
  have hkeeps : ∀ x, keeps e (called ++ [(e, item)]) x = keeps e called x :=
    fun x => keeps_concat fun _ hlt => absurd hlt (Nat.lt_irrefl e)
  refine { h with split := by rw [h.split]; simp, calls := ?_, later := ?_ }
  · rw [callsOf_concat, if_pos rfl, h.calls, List.filter_congr fun x _ => hkeeps x,
      filter_append, List.filter_cons_of_pos (keeps_of_not_called hnot), List.filter_nil]
  · intro x hx honce e' hcall
    rcases mem_append.1 hcall with hcall | hcall
    · exact h.later x (.tail _ hx) honce e' hcall
    · cases mem_singleton.1 hcall
      exact absurd hx h.item_not_mem

/-- The emit on top calls its next listener: any one that is not `once`, and a `once` listener that
is ready. -/
theorem Fits.call (h : Fits events fired nextId nextEmit (f :: stack) regs begun called)
    (hf : f.emission = some (e, key, item :: rest))
    (honce : item.once → f.firing = some item) :
    Fits events (if item.once then item.id :: fired else fired) nextId nextEmit
      (.doEmit e key rest :: stack) regs begun (called ++ [(e, item)]) := by
  obtain ⟨hlt, snapshot, done, hp⟩ := h.frames f (.head _) e key _ hf
  obtain ⟨habove, hstack⟩ := pairwise_cons.1 h.order
  have hready (ho : item.once) : item.id ∉ fired ∧ ∀ key, item.id ∉ (table events key).map (·.id) :=
    (h.firing f (.head _) item (honce ho)).2
  have hnot (ho : item.once) : ∀ e', (e', item) ∉ called := h.not_called ho (hready ho).1
  have hmem {id : ℕ} : id ∈ (if item.once then item.id :: fired else fired) ↔
      (item.once ∧ id = item.id) ∨ id ∈ fired := by
    split_ifs with ho <;> simp [ho]
  exact { h with
    known := forall_mem_concat.2 ⟨h.known, key, hp.registered item (by rw [hp.split]; simp)⟩
    flagged := fun id hid => by
      rcases hmem.1 hid with ⟨-, rfl⟩ | hid
      · exact ⟨(e, item), by simp, rfl⟩
      · obtain ⟨call, hcall, hid⟩ := h.flagged id hid
        exact ⟨call, mem_append_left _ hcall, hid⟩
    sets := forall_mem_concat.2
      ⟨fun call hcall ho => hmem.2 (.inr (h.sets call hcall ho)), fun ho => hmem.2 (.inl ⟨ho, rfl⟩)⟩
    idle := fun k x hx hid => by
      rcases hmem.1 hid with ⟨ho, hid⟩ | hid
      · exact (hready ho).2 k (mem_map.2 ⟨x, hx, hid⟩)
      · exact h.idle k x hx hid
    onces := fun x hx => by
      rw [map_append, List.count_append]
      by_cases hxi : x = item
      · subst hxi
        have hzero : (called.map (·.2)).count x = 0 := by
          refine List.count_eq_zero.2 fun hmem => ?_
          obtain ⟨⟨e', _⟩, hcall, rfl⟩ := mem_map.1 hmem
          exact hnot hx e' hcall
        rw [hzero, Nat.zero_add]
        exact List.count_le_length
      · simpa [Ne.symm hxi] using h.onces x hx
    calls := forall_mem_concat.2 ⟨h.calls, hlt⟩
    frames := forall_mem_cons.2 ⟨fun e0 key0 items0 hemission => by
      cases hemission
      exact ⟨hlt, snapshot, done ++ [item], hp.call hnot⟩, fun g hg e0 key0 items0 hemission => by
      obtain ⟨hlt0, snapshot0, done0, hp0⟩ := h.frames g (.tail _ hg) e0 key0 items0 hemission
      exact ⟨hlt0, snapshot0, done0, hp0.concat ((habove g hg).later hf hemission) hnot⟩⟩
    firing := forall_mem_cons.2 ⟨nofun, fun g hg x hx => by
      obtain ⟨hxonce, hxid, hxabsent⟩ := h.firing g (.tail _ hg) x hx
      refine ⟨hxonce, fun hid => ?_, hxabsent⟩
      rcases hmem.1 hid with ⟨-, hid⟩ | hid
      · exact (habove g hg).apart hf hx (by rw [hid]; exact .head _)
      · exact hxid hid⟩
    order := pairwise_cons.2
      ⟨fun g hg => (habove g hg).exchange hf rfl (List.subset_cons_self _ _), hstack⟩ }

end Steps

/-! ### Runs -/

/-- When the emit returned, it had called its whole snapshot but the `once` listeners that emits
inside it had called. -/
def Complete (e : ℕ) (log : List Entry) : Prop :=
  ∃ key snapshot, .began e key snapshot ∈ log ∧
    callsOf e (calls log) = snapshot.filter (keeps e (calls log))

/-- The invariant of a state: its parts fit together, and every emit that has returned was
complete. -/
structure Coherent (s : State) : Prop where
  fits : Fits s.events s.fired s.nextId s.nextEmit s.stack (registrations s.log)
    (beginnings s.log) (calls s.log)
  complete : ∀ before after e, s.log = before ++ .finished e true :: after → Complete e before

variable {id : ℕ} {key : EventKey} {s s' : State} {f : List EventItem → List EventItem}
    {rest : List Frame}

theorem mem_beginnings {log : List Entry} {snapshot : List EventItem}
    (h : (e, key, snapshot) ∈ beginnings log) : .began e key snapshot ∈ log := by
  obtain ⟨x, hx, hbegan⟩ := List.mem_filterMap.1 h
  cases x <;> cases hbegan
  exact hx

/-- Where a log that has grown is split at an entry that is not new, it was split before. -/
theorem split_append {log entries before after : List Entry} {x : Entry} (hx : x ∉ entries)
    (h : log ++ entries = before ++ x :: after) : ∃ rest, log = before ++ x :: rest := by
  rcases List.append_eq_append_iff.1 h with ⟨c, hbefore, hentries⟩ | ⟨c, hlog, hafter⟩
  · exact absurd (hentries ▸ by simp) hx
  · cases c with
    | nil => exact absurd (by rw [← List.nil_append entries, ← hafter]; simp) hx
    | cons y c =>
      cases hafter
      exact ⟨c, hlog⟩

/-- The log has grown, and no emit has returned `true`. -/
theorem Coherent.grow (h : Coherent s) {entries : List Entry} (hlog : s'.log = s.log ++ entries)
    (hreturn : ∀ e, .finished e true ∉ entries) {regs : List (EventKey × EventItem)}
    {begun : List (ℕ × EventKey × List EventItem)}
    (hregs : registrations s.log ++ registrations entries = regs)
    (hbegun : beginnings s.log ++ beginnings entries = begun)
    (hcalled : calls s.log ++ calls entries = called)
    (hfits : Fits s'.events s'.fired s'.nextId s'.nextEmit s'.stack regs begun called) :
    Coherent s' := by
  refine ⟨?_, fun before after e hsplit => ?_⟩
  · subst hregs hbegun hcalled
    rw [hlog]
    unfold registrations beginnings calls at hfits ⊢
    rw [filterMap_append, filterMap_append, filterMap_append]
    exact hfits
  · rw [hlog] at hsplit
    obtain ⟨rest, hrest⟩ := split_append (hreturn e) hsplit
    exact h.complete before rest e hrest

theorem Coherent.silent (h : Coherent s) (hlog : s'.log = s.log)
    (hfits : Fits s'.events s'.fired s'.nextId s'.nextEmit s'.stack (registrations s.log)
      (beginnings s.log) (calls s.log)) : Coherent s' := by
  refine ⟨?_, fun before after e hsplit => h.complete before after e (hlog ▸ hsplit)⟩
  rw [hlog]
  exact hfits

theorem Coherent.doEmit (h : Coherent s) (key : EventKey) :
    Coherent (doEmit s.events key s) := by
  unfold Events.doEmit
  rw [listenersOf_eq h.fits.proper]
  split_ifs with hempty
  · exact h.grow rfl (by simp) (append_nil _) (append_nil _) (append_nil _)
      h.fits.later
  · exact h.grow rfl (by simp) (append_nil _) rfl (append_nil _) (h.fits.begin key)

theorem Coherent.push (h : Coherent s) {f : Frame} (hf : f.emission = none) :
    Coherent { s with stack := f :: s.stack } :=
  h.silent rfl (h.fits.push hf)

theorem Coherent.remove (h : Coherent s) (key : EventKey) (hf : ∀ items, (f items).Sublist items) :
    Coherent { s with events := removing key f s.events } :=
  h.silent rfl (h.fits.remove key hf)

theorem removing_eq_self {events : EventList} (h : Proper events)
    (hf : f (table events key) = table events key) :
    removing key f events = events := by
  fun_induction removing key f events with
  | case1 => rfl
  | case2 items rest hempty =>
    rw [table_cons, if_pos rfl] at hf
    rw [hf] at hempty
    exact absurd (List.isEmpty_iff.1 hempty) (h.nonempty _ (.head _))
  | case3 items rest =>
    rw [table_cons, if_pos rfl] at hf
    rw [hf]
  | case4 k items rest hk ih =>
    rw [table_cons, if_neg (Ne.symm hk)] at hf
    rw [ih h.tail hf]

/-- A listener is taken out of the table, and `removeListener` is emitted before the report. -/
def takeOut (key : EventKey) (f : List EventItem → List EventItem) (s : State) : State :=
  doEmit (removing key f s.events) removeListener
    { s with
      events := removing key f s.events
      stack := .removed key (f (table s.events key)).isEmpty :: s.stack }

theorem Coherent.takeOut (h : Coherent { s with events := removing key f s.events }) :
    Coherent (takeOut key f s) :=
  (h.push rfl).doEmit removeListener

theorem removeListenerById_of_mem (hproper : Proper s.events)
    (h : id ∈ (table s.events key).map (·.id)) :
    removeListenerById true key id s = takeOut key (·.eraseP (·.id = id)) s := by
  obtain ⟨x, hx, hid⟩ := mem_map.1 h
  have hany : (table s.events key).any (·.id = id) :=
    any_eq_true.2 ⟨x, hx, by simpa using hid⟩
  unfold removeListenerById
  rw [show resolveEvents true s = s.events from rfl, listenersOf_eq hproper,
    if_neg (List.ne_nil_of_mem hx)]
  dsimp only
  rw [if_pos hany, Bool.and_true]
  rfl

theorem removeListenerById_of_not_mem (hproper : Proper s.events)
    (h : id ∉ (table s.events key).map (·.id)) : removeListenerById true key id s = s := by
  unfold removeListenerById
  rw [show resolveEvents true s = s.events from rfl, listenersOf_eq hproper]
  split_ifs with hempty
  · rfl
  · refine if_neg fun hany => h ?_
    obtain ⟨x, hx, hid⟩ := any_eq_true.1 hany
    exact mem_map.2 ⟨x, hx, by simpa using hid⟩

theorem removeEventListener_eq (hproper : Proper s.events) (key : EventKey) (callback : ℕ) :
    removeEventListener key callback s = s ∨
      (table s.events key ≠ [] ∧
        removeEventListener key callback s = takeOut key (without callback) s) := by
  unfold removeEventListener
  rw [listenersOf_eq hproper]
  split_ifs with hempty
  · exact .inl rfl
  · dsimp only
    split_ifs with hany
    · exact .inr ⟨hempty, rfl⟩
    · exact .inl rfl

theorem Coherent.removeListenerById (hproper : Proper s.events)
    (h : Coherent { s with events := removing key (·.eraseP (·.id = id)) s.events }) :
    Coherent (removeListenerById true key id s) := by
  by_cases hmem : id ∈ (table s.events key).map (·.id)
  · rw [removeListenerById_of_mem hproper hmem]
    exact h.takeOut
  · have hsame : (table s.events key).eraseP (·.id = id) = table s.events key := by
      refine List.eraseP_of_forall_not fun x hx hid => hmem ?_
      exact mem_map.2 ⟨x, hx, by simpa using hid⟩
    rw [removing_eq_self (f := (·.eraseP (·.id = id))) hproper hsame] at h
    rw [removeListenerById_of_not_mem hproper hmem]
    exact h

theorem not_mem_eraseP {items : List EventItem} (h : (items.map (·.id)).Nodup) (id : ℕ) :
    id ∉ (items.eraseP (·.id = id)).map (·.id) := by
  have herase := h.not_mem_erase (a := id)
  rw [List.erase_eq_eraseP', List.eraseP_map] at herase
  exact herase

theorem Coherent.absent (h : Coherent s)
    (hreg : (key, item) ∈ registrations s.log) (k : EventKey) :
    item.id ∉ (table (removing key (·.eraseP (·.id = item.id)) s.events) k).map (·.id) := by
  rw [table_removing h.fits.proper key rfl]
  split_ifs with hk
  · exact not_mem_eraseP (h.fits.nodup key) item.id
  · intro hmem
    obtain ⟨x, hx, hid⟩ := mem_map.1 hmem
    have heq := h.fits.unique _ (h.fits.registered k x hx) _ hreg hid
    exact hk (congrArg Prod.fst heq)

/-- A `once` listener that has not been called is taken out of the table and gets ready. -/
theorem Coherent.ready (h : Coherent s) {callbacks : List EventItem}
    (hstack : s.stack = .doEmit e key (item :: callbacks) :: rest) (honce : item.once)
    (hfired : item.id ∉ s.fired) :
    Coherent { s with
      events := removing key (·.eraseP (·.id = item.id)) s.events
      stack := .fire e key item callbacks :: rest } := by
  have hfits := h.fits
  rw [hstack] at hfits
  obtain ⟨-, snapshot, done, hp⟩ := hfits.frames _ (.head _) e key _ rfl
  refine h.silent rfl ?_
  refine (hfits.remove key fun items => List.eraseP_sublist).ready honce hfired ?_
  exact h.absent (hp.registered item (by rw [hp.split]; simp))

theorem Coherent.finish (h : Coherent s)
    (hfits : Fits s.events s.fired s.nextId s.nextEmit (.doEmit e key [] :: rest)
      (registrations s.log) (beginnings s.log) (calls s.log)) :
    Coherent { s with stack := rest, log := s.log ++ [.finished e true] } := by
  refine ⟨?_, fun before after e' hsplit => ?_⟩
  · simpa [registrations, beginnings, calls, Entry.registration, Entry.beginning, Entry.call,
      List.filterMap_cons] using hfits.pop
  · rcases List.eq_nil_or_concat after with rfl | ⟨after, y, rfl⟩
    · obtain ⟨rfl, hlast⟩ := List.append_inj' hsplit rfl
      cases hlast
      obtain ⟨-, snapshot, done, hp⟩ := hfits.frames _ (.head _) e key [] rfl
      obtain rfl : snapshot = done := by rw [hp.split, append_nil]
      exact ⟨key, snapshot, mem_beginnings hp.began, hp.calls⟩
    · rw [List.concat_eq_append, ← List.cons_append, ← List.append_assoc] at hsplit
      exact h.complete before after e' (List.append_inj' hsplit rfl).1

theorem Coherent.tick {f : Frame} (h : Coherent s) (hstack : s.stack = f :: rest)
    (hstep : tick true { s with stack := rest } f = some s') :
    Coherent s' := by
  have hfits := h.fits
  rw [hstack] at hfits
  have hpop : Coherent { s with stack := rest } := h.silent rfl hfits.pop
  revert hstep
  fun_cases Events.tick true { s with stack := rest } f
  all_goals rintro ⟨⟩
  · exact h.finish hfits
  · next honce hfired => exact h.silent rfl (hfits.skip honce hfired)
  · next e key item callbacks honce hfired =>
    exact Coherent.removeListenerById
      (s := { s with stack := .fire e key item callbacks :: rest }) hfits.proper
      (h.ready hstack honce hfired)
  · next honce =>
    have hcall := (hfits.call rfl (fun ho => absurd ho honce)).push (f := .js) rfl
    rw [if_neg honce] at hcall
    exact h.grow rfl (by simp) (append_nil _) (append_nil _) rfl hcall
  · next item _ =>
    have honce := (hfits.firing _ (.head _) item rfl).1
    have hcall := (hfits.call rfl (fun _ => rfl)).push (f := .js) rfl
    rw [if_pos honce] at hcall
    exact h.grow rfl (by simp) (append_nil _) (append_nil _) rfl hcall
  · next key callback prepend once =>
    have hadd := hfits.pop.add key callback prepend once
    refine h.grow (List.append_assoc _ _ _) ?_ ?_ ?_ ?_ hadd
    all_goals cases hasKey s.events key
    all_goals simp [registrations, beginnings, calls, Entry.registration,
      Entry.beginning, Entry.call]
  · next reports =>
    cases reports with
    | true | false =>
      exact h.grow rfl (by simp) (append_nil _) (append_nil _) (append_nil _)
        hfits.pop
  · exact hpop
  · next key id ids =>
    exact Coherent.removeListenerById
      (s := { s with stack := .removeIds key ids :: rest }) hfits.proper
      ((hpop.push (f := .removeIds key ids) rfl).remove key fun items => List.eraseP_sublist)
  · exact hpop
  · next keys => exact (hpop.push (f := .removeKeys keys) rfl).push rfl

theorem unwind_sublist (stack : List Frame) : (unwind stack).Sublist stack := by
  fun_induction unwind stack with
  | case1 => exact .slnil
  | case2 => exact .refl _
  | case3 f rest _ ih => exact ih.cons f

theorem without_sublist (callback : ℕ) (items : List EventItem) :
    (without callback items).Sublist items := by
  have := (List.eraseP_sublist (l := items.reverse) (p := (·.callback = callback))).reverse
  rwa [List.reverse_reverse] at this

theorem Coherent.removeEventListener (h : Coherent s) (key : EventKey) (callback : ℕ) :
    Coherent (removeEventListener key callback s) := by
  rcases removeEventListener_eq h.fits.proper key callback with heq | ⟨-, heq⟩
  · rw [heq]
    exact h
  · rw [heq]
    exact (h.remove key (without_sublist callback)).takeOut

theorem Coherent.step {act : Act} (h : Coherent s) (hstep : step true s act = some s') :
    Coherent s' := by
  cases Move.of_step hstep with
  | tick hstack htick => exact h.tick hstack htick
  | add hstack key callback prepend once =>
    exact (h.push (f := .insert key callback prepend once) rfl).doEmit newListener
  | off hstack key callback => exact h.removeEventListener key callback
  | removeAllListeners hstack key =>
    cases key with
    | some key | none => exact h.push rfl
  | emit hstack key => exact h.doEmit key
  | ret hstack =>
    exact h.silent rfl (h.fits.sublist (by rw [hstack]; exact List.sublist_cons_self _ _))
  | throw hstack =>
    refine h.silent rfl (h.fits.sublist ?_)
    rw [hstack]
    exact (unwind_sublist _).trans (List.sublist_cons_self _ _)

theorem coherent_initial : Coherent State.initial := by
  refine ⟨?_, by simp [State.initial]⟩
  constructor
  case proper => exact proper_nil
  all_goals simp [State.initial, registrations, beginnings, calls, Frame.emission, Frame.firing]

/-- **Every run keeps the invariant.** -/
theorem coherent_of_run {acts : List Act} (h : run (step true) .initial acts = some s) :
    Coherent s :=
  run_invariant (step true) (fun _ _ _ hs hstep => hs.step hstep) coherent_initial h

/-- Two listeners of `x`, the first a `once` listener that emits `x` again. -/
def emitTwice : List Act :=
  [.add (.string "x") 1 false true, .tick, .add (.string "x") 2 false false, .tick,
    .emit (.string "x"), .tick, .tick, .tick, .emit (.string "x"), .tick, .ret, .tick, .ret, .tick,
    .ret, .tick]

end RasterRuntime.Events
