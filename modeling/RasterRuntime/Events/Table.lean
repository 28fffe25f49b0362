import RasterRuntime.Events.Model
import Mathlib.Data.List.Nodup

/-! # The listener table as a function

An `EventList` is a list of entries that is searched from the front. It stands for a function from
events to lists of listeners (`table`); as long as no event has two entries and no entry is empty
(`Proper`), the operations on the list are the plain ones on the function. -/

namespace RasterRuntime.Events

open List (forall_mem_cons mem_cons mem_map nodup_cons)

/-- The listeners of an event. -/
def table (events : EventList) (key : EventKey) : List EventItem := (listenersOf events key).getD []

@[simp] theorem table_nil (key : EventKey) : table [] key = [] := rfl

/-- Each event has at most one entry, and an entry has a listener. -/
structure Proper (events : EventList) : Prop where
  keys : (events.map (·.1)).Nodup
  nonempty : ∀ entry ∈ events, entry.2 ≠ []

theorem table_cons (k : EventKey) (items : List EventItem) (rest : EventList) (key : EventKey) :
    table ((k, items) :: rest) key = if key = k then items else table rest key := by
  unfold table listenersOf
  rw [List.find?_cons]
  by_cases h : key = k
  · simp [h]
  · simp [h, Ne.symm h]

theorem proper_nil : Proper [] := ⟨List.nodup_nil, nofun⟩

variable {rest : EventList} {k : EventKey} {f : List EventItem → List EventItem}

theorem Proper.tail {entry : EventKey × List EventItem} (h : Proper (entry :: rest)) :
    Proper rest :=
  ⟨(nodup_cons.1 h.keys).2, fun e he => h.nonempty e (.tail _ he)⟩

variable {events : EventList} {key : EventKey}

theorem table_eq_nil_of_not_mem (h : key ∉ events.map (·.1)) : table events key = [] := by
  unfold table listenersOf
  rw [List.find?_eq_none.2 fun e he => by simpa using fun hk => h (mem_map.2 ⟨e, he, hk⟩)]
  rfl

theorem Proper.table_head {items : List EventItem} (h : Proper ((k, items) :: rest)) :
    table rest k = [] :=
  table_eq_nil_of_not_mem (nodup_cons.1 h.keys).1

theorem listenersOf_eq (h : Proper events) (key : EventKey) :
    listenersOf events key = if table events key = [] then none else some (table events key) := by
  unfold table
  cases hfind : listenersOf events key with
  | none => simp
  | some items =>
    have hne : items ≠ [] := by
      obtain ⟨entry, hentry, rfl⟩ := Option.map_eq_some_iff.1 hfind
      exact h.nonempty entry (List.mem_of_find?_eq_some hentry)
    simp [hne]

theorem hasKey_eq (h : Proper events) (key : EventKey) :
    hasKey events key = !(table events key).isEmpty := by
  have hsome : hasKey events key = (listenersOf events key).isSome := by
    unfold hasKey listenersOf
    rw [Option.isSome_map, List.isSome_find?]
  rw [hsome, listenersOf_eq h]
  cases table events key <;> rfl

theorem keys_removing :
    ((removing key f events).map (·.1)).Sublist (events.map (·.1)) := by
  fun_induction removing key f events with
  | case1 => exact .slnil
  | case2 => exact List.sublist_cons_self _ _
  | case3 => exact .refl _
  | case4 k items rest _ ih => exact ih.cons_cons k

theorem Proper.removing (h : Proper events) (key : EventKey) (f : List EventItem → List EventItem) :
    Proper (removing key f events) := by
  refine ⟨h.keys.sublist keys_removing, ?_⟩
  fun_induction Events.removing key f events with
  | case1 => exact nofun
  | case2 => exact h.tail.nonempty
  | case3 items rest hf => exact forall_mem_cons.2 ⟨by simpa using hf, h.tail.nonempty⟩
  | case4 k items rest _ ih => exact forall_mem_cons.2 ⟨h.nonempty _ (.head _), ih h.tail⟩

theorem table_removing (h : Proper events) (key : EventKey) (hf : f [] = []) (k : EventKey) :
    table (removing key f events) k = if k = key then f (table events key) else table events k := by
  fun_induction removing key f events with
  | case1 => simp [hf]
  | case2 items rest hempty =>
    split_ifs with hk
    · rw [hk, h.table_head, table_cons, if_pos rfl, List.isEmpty_iff.1 hempty]
    · rw [table_cons, if_neg hk]
  | case3 items rest =>
    rw [table_cons, table_cons, table_cons, if_pos rfl]
    split_ifs <;> rfl
  | case4 k0 items rest hk0 ih =>
    rw [table_cons, table_cons, table_cons, if_neg (Ne.symm hk0), ih h.tail]
    split_ifs with hk hkey
    · exact absurd (hk.symm.trans hkey) hk0
    all_goals rfl

theorem mem_keys_adding {item : EventItem} {prepend : Bool}
    (h : k ∈ (adding key item prepend events).map (·.1)) : k = key ∨ k ∈ events.map (·.1) := by
  fun_induction adding key item prepend events with
  | case1 => exact .inl (by simpa using h)
  | case2 => exact .inr h
  | case3 k0 items rest _ ih =>
    rcases mem_cons.1 h with rfl | h
    · exact .inr (.head _)
    · exact (ih h).imp_right (.tail _)

theorem Proper.adding (h : Proper events) (key : EventKey) (item : EventItem) (prepend : Bool) :
    Proper (adding key item prepend events) := by
  fun_induction Events.adding key item prepend events with
  | case1 => exact ⟨by simp, by simp⟩
  | case2 items rest =>
    refine ⟨h.keys, forall_mem_cons.2 ⟨?_, h.tail.nonempty⟩⟩
    cases prepend <;> simp [placing]
  | case3 k items rest hk ih =>
    have ih := ih h.tail
    refine ⟨nodup_cons.2 ⟨fun hmem => ?_, ih.keys⟩,
      forall_mem_cons.2 ⟨h.nonempty _ (.head _), ih.nonempty⟩⟩
    rcases mem_keys_adding hmem with h' | h'
    · exact hk h'
    · exact (nodup_cons.1 h.keys).1 h'

theorem table_adding (events : EventList) (key : EventKey) (item : EventItem) (prepend : Bool)
    (k : EventKey) :
    table (adding key item prepend events) k =
      if k = key then placing item prepend (table events key) else table events k := by
  fun_induction adding key item prepend events with
  | case1 =>
    rw [table_cons]
    cases prepend <;> rfl
  | case2 items rest =>
    rw [table_cons, table_cons, table_cons, if_pos rfl]
    split_ifs <;> rfl
  | case3 k0 items rest hk0 ih =>
    rw [table_cons, table_cons, table_cons, if_neg (Ne.symm hk0), ih]
    split_ifs with hk hkey
    · exact absurd (hk.symm.trans hkey) hk0
    all_goals rfl

end RasterRuntime.Events
