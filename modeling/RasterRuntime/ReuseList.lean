import RasterRuntime.Transition

/-! # A list that reuses its places

The places of removed items are kept in a second vector, each plus one, with a cursor at the one
that is used next. A slot that was used is set to 0 and stays, so that places can be lost, but no
place is in two slots.

* `reuseList_runs`: the places and the number of items over every run; only `optimize` moves
items. -/

namespace RasterRuntime

structure ReuseList (T : Type) where
  items : List (Option T)
  slots : List ℕ
  lastSlotIdx : ℕ
  len : ℕ
  slotSize : ℕ

namespace ReuseList

variable {T : Type}

def new : ReuseList T := ⟨[], [], 0, 0, 0⟩

section

variable (l : ReuseList T)

def get (index : ℕ) : Option T := l.items[index]?.join

/-- `self.slots[self.last_slot_idx - 1]`; `none` is a panic. -/
def lastSlot : Option ℕ := if l.lastSlotIdx = 0 then none else l.slots[l.lastSlotIdx - 1]?

/-- The end of `append`. -/
def push (item : T) : ReuseList T := { l with items := l.items ++ [some item], len := l.len + 1 }

/-- The item goes to the place in the slot under the cursor. -/
def reuse (item : T) (place : ℕ) : ReuseList T :=
  { l with
    items := l.items.set place (some item)
    slots := l.slots.set (l.lastSlotIdx - 1) 0
    lastSlotIdx := if l.lastSlotIdx > 1 then l.lastSlotIdx - 1 else l.lastSlotIdx
    len := l.len + 1 }

/-- The index of the item, and the list with it; `none` is a panic. -/
def append (item : T) : Option (ℕ × ReuseList T) :=
  match if l.slotSize > 0 then l.lastSlot else some 0 with
  | none => none
  | some 0 => some (l.items.length, l.push item)
  | some (place + 1) => if place < l.items.length then some (place, l.reuse item place) else none

/-- The place of an item that is taken out goes to the slot under the cursor, or to a new one. -/
def release (index : ℕ) (used : Bool) : ReuseList T :=
  if used then
    { l with
      items := l.items.set index none
      slots := l.slots.set (l.lastSlotIdx - 1) (index + 1)
      len := l.len - 1 }
  else
    { l with
      items := l.items.set index none
      slots := l.slots ++ [index + 1]
      lastSlotIdx := l.lastSlotIdx + 1
      slotSize := l.slotSize + 1
      len := l.len - 1 }

def remove (index : ℕ) : Option (Option T × ReuseList T) :=
  match l.get index with
  | none => some (none, l)
  | some item =>
    match if l.slotSize > 0 then l.lastSlot.map (· == 0) else some false with
    | none => none
    | some used => if l.len = 0 then none else some (item, l.release index used)

def clear (_ : ReuseList T) : ReuseList T := ⟨[], [], 0, 0, 0⟩

def optimize : ReuseList T :=
  { l with items := l.items.filter Option.isSome, slots := [], lastSlotIdx := 0, slotSize := 0 }

/-- The number of items. -/
def live : ℕ := l.items.countP Option.isSome

/-- How many slots may have a place. -/
def room (place : ℕ) : ℕ :=
  match l.items[place]? with
  | some none => 1
  | _ => 0

end

/-- A place in a slot has no item, and is in no other slot. -/
structure Sound (l : ReuseList T) : Prop where
  size : l.slotSize = l.slots.length
  cursor : l.lastSlotIdx ≤ l.slotSize ∧ (0 < l.slotSize → 0 < l.lastSlotIdx)
  places : ∀ place, l.slots.count (place + 1) ≤ l.room place
  count : l.len = l.live

/-- The item of one place is another, and every other place is as it was. -/
structure Sets (l : ReuseList T) (index : ℕ) (item : Option T) (l' : ReuseList T) : Prop where
  sound : Sound l'
  get : ∀ j, l'.get j = if index = j then item else l.get j

variable {l : ReuseList T} {place index : ℕ}

theorem sound_new : Sound (new : ReuseList T) := by
  constructor <;> simp [new, live]

theorem Sound.lastSlot (h : Sound l) (hs : 0 < l.slotSize) :
    ∃ hk : l.lastSlotIdx - 1 < l.slots.length, l.lastSlot = some l.slots[l.lastSlotIdx - 1] := by
  have hcursor := h.cursor
  have hk : l.lastSlotIdx - 1 < l.slots.length := by rw [← h.size]; omega
  exact ⟨hk, by rw [ReuseList.lastSlot, if_neg (by omega), List.getElem?_eq_getElem hk]⟩

theorem Sound.push (h : Sound l) (item : T) :
    l.get l.items.length = none ∧ Sets l l.items.length (some item) (l.push item) := by
  refine ⟨by simp [get], { h with places := fun j => ?_, count := ?_ }, fun j => ?_⟩
  · have hj := h.places j
    unfold room ReuseList.push at *
    grind
  · simp [ReuseList.push, live, h.count]
  · unfold get ReuseList.push
    grind

theorem Sound.reuse (h : Sound l) (item : T) (hk : l.lastSlotIdx - 1 < l.slots.length)
    (hslot : l.slots[l.lastSlotIdx - 1] = place + 1) :
    place < l.items.length ∧ l.get place = none ∧
      Sets l place (some item) (l.reuse item place) := by
  have hpos : 0 < l.slots.count (place + 1) := List.count_pos_iff.mpr (hslot ▸ List.getElem_mem hk)
  have hplace := h.places place
  have hitem : l.items[place]? = some none := by
    unfold room at hplace
    grind
  obtain ⟨hlt, hnone⟩ := List.getElem?_eq_some_iff.mp hitem
  have hcursor := h.cursor
  refine ⟨hlt, by simp [get, hitem], ⟨h.size.trans List.length_set.symm, ?_, fun j => ?_, ?_⟩,
    fun j => ?_⟩
  · unfold ReuseList.reuse
    grind
  · have hj := h.places j
    unfold room ReuseList.reuse at *
    grind
  · simp [ReuseList.reuse, live, h.count, List.countP_set hlt, hnone]
  · unfold get ReuseList.reuse
    grind

theorem Sound.release (h : Sound l) {item : T} (hitem : l.items[index]? = some (some item))
    {used : Bool}
    (hused : used → ∃ hk : l.lastSlotIdx - 1 < l.slots.length, l.slots[l.lastSlotIdx - 1] = 0) :
    0 < l.len ∧ Sets l index none (l.release index used) := by
  obtain ⟨hlt, hsome⟩ := List.getElem?_eq_some_iff.mp hitem
  have hpos : 0 < l.live := List.countP_pos_iff.mpr ⟨_, List.mem_of_getElem? hitem, rfl⟩
  have hlive : (l.items.set index none).countP Option.isSome = l.len - 1 := by
    simp [h.count, live, List.countP_set hlt, hsome]
  obtain ⟨hsize, hcursor, hplaces, hcount⟩ := h
  refine ⟨hcount ▸ hpos, ⟨?_, ?_, fun j => ?_, ?_⟩, fun j => ?_⟩
  all_goals unfold ReuseList.release
  · grind
  · grind
  · have hj := hplaces j
    unfold room at *
    grind
  · unfold live
    grind
  · unfold get
    grind

theorem Sound.append (h : Sound l) (item : T) :
    ∃ i l', l.append item = some (i, l') ∧ l.get i = none ∧ Sets l i (some item) l' := by
  unfold ReuseList.append
  by_cases hs : l.slotSize > 0
  · obtain ⟨hk, hlast⟩ := h.lastSlot hs
    rw [if_pos hs, hlast]
    cases hslot : l.slots[l.lastSlotIdx - 1] with
    | zero => exact ⟨_, _, rfl, h.push item⟩
    | succ place =>
      obtain ⟨hlt, hput⟩ := h.reuse item hk hslot
      exact ⟨_, _, if_pos hlt, hput⟩
  · rw [if_neg hs]
    exact ⟨_, _, rfl, h.push item⟩

theorem Sound.remove (h : Sound l) (index : ℕ) :
    ∃ l', l.remove index = some (l.get index, l') ∧ Sets l index none l' := by
  have hused : ∃ used,
      (if l.slotSize > 0 then l.lastSlot.map (· == 0) else some false) = some used ∧
      (used → ∃ hk : l.lastSlotIdx - 1 < l.slots.length, l.slots[l.lastSlotIdx - 1] = 0) := by
    by_cases hs : l.slotSize > 0
    · obtain ⟨hk, hlast⟩ := h.lastSlot hs
      exact ⟨_, by rw [if_pos hs, hlast]; rfl, fun hzero => ⟨hk, eq_of_beq hzero⟩⟩
    · exact ⟨false, if_neg hs, nofun⟩
  obtain ⟨used, hused, hslot⟩ := hused
  unfold ReuseList.remove
  rw [hused]
  cases hget : l.get index with
  | none => exact ⟨l, rfl, h, by grind⟩
  | some item =>
    obtain ⟨hlen, hsets⟩ := h.release (Option.join_eq_some_iff.mp hget) hslot
    exact ⟨_, if_neg (Nat.ne_of_gt hlen), hsets⟩

/-! ### Runs -/

inductive Op (T : Type)
  | append (item : T)
  | remove (index : ℕ)
  | clear
  | optimize

def step (l : ReuseList T) : Op T → Option (ReuseList T)
  | .append item => (l.append item).map Prod.snd
  | .remove index => (l.remove index).map Prod.snd
  | .clear => some l.clear
  | .optimize => some l.optimize

/-- The operation leaves the item of a place alone. -/
def Op.Leaves (index : ℕ) : Op T → Prop
  | .append _ => True
  | .remove i => i ≠ index
  | _ => False

theorem Sound.step (h : Sound l) (op : Op T) : ∃ l', step l op = some l' ∧ Sound l' ∧
    ∀ {index item}, op.Leaves index → l.get index = some item → l'.get index = some item := by
  cases op with
  | append item =>
    obtain ⟨i, l', hl', hnone, hsets⟩ := h.append item
    refine ⟨l', by rw [ReuseList.step, hl']; rfl, hsets.sound, fun {index item} _ hitem => ?_⟩
    rw [hsets.get, if_neg, hitem]
    rintro rfl
    cases hnone.symm.trans hitem
  | remove i =>
    obtain ⟨l', hl', hsets⟩ := h.remove i
    refine ⟨l', by rw [ReuseList.step, hl']; rfl, hsets.sound, fun hne hitem => ?_⟩
    rw [hsets.get, if_neg hne, hitem]
  | clear => exact ⟨_, rfl, sound_new, fun h => h.elim⟩
  | optimize =>
    have hlive : l.len = (l.items.filter Option.isSome).countP Option.isSome := by
      simp [h.count, live, List.countP_filter]
    exact ⟨_, rfl, ⟨rfl, ⟨Nat.le_refl 0, nofun⟩, fun _ => Nat.zero_le _, hlive⟩, fun h => h.elim⟩

/-- **Every run**: nothing panics, `len` is the number of items, `append` takes a place without an
item and `remove` gives the item, each of them leaves every other place alone, and the item of a
place stays there until it is removed or the list is cleared or packed. -/
theorem reuseList_runs (ops : List (Op T)) :
    ∃ l, Transition.run step new ops = some l ∧ l.len = l.live ∧
    (∀ item, ∃ i l', l.append item = some (i, l') ∧ l.get i = none ∧ Sets l i (some item) l') ∧
    (∀ index, ∃ l', l.remove index = some (l.get index, l') ∧ Sets l index none l') ∧
    ∀ index item, l.get index = some item → ∀ ops', (∀ op ∈ ops', op.Leaves index) →
      ∃ l', Transition.run step l ops' = some l' ∧ l'.get index = some item := by
  obtain ⟨l, hl, h⟩ := Transition.exists_run step (P := Sound) (D := fun _ => True)
    (fun l op h _ => (h.step op).imp fun l' hl' => ⟨hl'.1, hl'.2.1⟩) sound_new
      fun op (_ : op ∈ ops) => trivial
  refine ⟨l, hl, h.count, h.append, h.remove, fun index item hitem ops' hops => ?_⟩
  obtain ⟨l', hl', -, hitem'⟩ :=
    Transition.exists_run step (P := fun l => Sound l ∧ l.get index = some item)
    (D := Op.Leaves index) (fun l op h hop => (h.1.step op).imp fun l' hl' =>
      ⟨hl'.1, hl'.2.1, hl'.2.2 hop h.2⟩) ⟨h, hitem⟩ hops
  exact ⟨l', hl', hitem'⟩

/-- `optimize` moves the third item to the place of the second. -/
theorem optimize_moves : ∃ l, Transition.run step new
    [.append 'a', .append 'b', .append 'c', .remove 1] = some l ∧ l.get 2 = some 'c' ∧
      l.optimize.get 2 = none ∧ l.optimize.get 1 = some 'c' :=
  ⟨_, rfl, rfl, rfl, rfl⟩

end ReuseList

end RasterRuntime
