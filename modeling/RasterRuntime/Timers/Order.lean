import RasterRuntime.Timers.Cleared

/-! # The order of callbacks

A poll sorts what it has collected by the deadlines that it has noted. For a timeout this is the
deadline that has passed; for an interval it is the next one. The sort is not stable, so that
timeouts with one deadline come in any order. -/

namespace RasterRuntime.Timers

open Transition

/-- The entry has a callback and its deadline has passed. -/
def Timeout.isDue (now : ℤ) (t : Timeout) : Bool := t.deadline < now && t.callback.isSome

/-- The first deadline passes first; of two timers with one deadline the first was created first. -/
def Timeout.Precedes (a b : Timeout) : Prop :=
  a.deadline < b.deadline ∨ a.deadline = b.deadline ∧ a.id < b.id

instance : DecidableRel Timeout.Precedes := fun a b =>
  inferInstanceAs (Decidable (a.deadline < b.deadline ∨ a.deadline = b.deadline ∧ a.id < b.id))

/-- The callbacks are those of the timers that are due, each once, in order. -/
def InOrder (now : ℤ) (timers : List Timeout) (callbacks : List ℕ) : Prop :=
  ∃ l : List Timeout, l.Perm (timers.filter (Timeout.isDue now)) ∧ l.Pairwise Timeout.Precedes ∧
    callbacks = l.map Timeout.id

/-- Of what is due, no two timeouts have one deadline, every timeout comes before every interval,
and intervals with longer periods come later. -/
structure Orderly (now : ℤ) (timers : List Timeout) : Prop where
  timeouts : ∀ a ∈ timers, ∀ b ∈ timers, a.isDue now → b.isDue now → a.repeating = false →
    b.repeating = false → a.deadline = b.deadline → a.id = b.id
  mixed : ∀ a ∈ timers, ∀ b ∈ timers, a.isDue now → b.isDue now → a.repeating = false →
    b.repeating = true → a.Precedes b
  intervals : ∀ a ∈ timers, ∀ b ∈ timers, a.isDue now → b.isDue now → a.repeating = true →
    b.repeating = true → a.Precedes b → a.interval < b.interval

/-- The events up to the end of a poll that starts in the state `s`. -/
structure Polled (sort : UnstableSort) (s : State) (v : ℕ) (now : ℤ) (es : List Event)
    (s' : State) : Prop where
  events : run (stepWithin sort v) (s.collect sort v now) es = some s'
  frames_eq : s'.frames = ⟨v, none⟩ :: s.frames
  empty : s'.callVec v = []

/-! ### What is noted for a timer -/

/-- The deadline that a poll notes. -/
def Timeout.noted (now : ℤ) (t : Timeout) : ℤ :=
  if t.repeating then now + millis t.interval else t.deadline

/-- What a poll notes of a timer that is due. -/
def Timeout.entry (now : ℤ) (t : Timeout) : ExecutingTimer := ⟨t.noted now, t.id, t.hookId⟩

variable {now : ℤ} {t : Timeout}

theorem due_eq_entry (h : ∀ cb, t.callback = some cb → cb = t.id) :
    t.due now = if t.isDue now then some (t.entry now) else none := by
  unfold Timeout.due Timeout.isDue Timeout.entry Timeout.noted
  cases hcb : t.callback with
  | none => simp
  | some cb =>
    rw [h cb hcb]
    by_cases hd : t.deadline < now
    all_goals simp [hd]

variable {ts : List Timeout} {a b : Timeout}

theorem filterMap_due (h : ∀ t ∈ ts, ∀ cb, t.callback = some cb → cb = t.id) :
    ts.filterMap (Timeout.due now) = (ts.filter (Timeout.isDue now)).map (Timeout.entry now) := by
  induction ts with
  | nil => rfl
  | cons t ts ih =>
    have ih := ih fun u hu => h u (.tail _ hu)
    rw [List.filterMap_cons, due_eq_entry (h t (.head _)), List.filter_cons]
    split_ifs
    · rw [List.map_cons, ih]
    · exact ih

theorem Timeout.Precedes.asymm (h : a.Precedes b) : ¬ b.Precedes a := by
  unfold Timeout.Precedes at *
  omega

theorem Timeout.precedes_or (h : a.id ≠ b.id) : a.Precedes b ∨ b.Precedes a := by
  unfold Timeout.Precedes
  omega

theorem Timeout.deadline_lt (h : t.isDue now) : t.deadline < now := by
  unfold Timeout.isDue at h
  simp only [Bool.and_eq_true, decide_eq_true_eq] at h
  exact h.1

/-- What the sort sees of a list for which it can give one order only. -/
theorem orderly_iff (hn : (ts.map Timeout.id).Nodup) :
    Orderly now ts ↔ ∀ a ∈ ts.filter (Timeout.isDue now), ∀ b ∈ ts.filter (Timeout.isDue now),
      a.Precedes b → a.noted now < b.noted now := by
  have hinj := List.inj_on_of_nodup_map hn
  constructor
  · intro h a ha b hb hab
    obtain ⟨ha, hda⟩ := List.mem_filter.mp ha
    obtain ⟨hb, hdb⟩ := List.mem_filter.mp hb
    have htimeouts := h.timeouts a ha b hb hda hdb
    have hmixed := h.mixed b hb a ha hdb hda
    have hintervals := h.intervals a ha b hb hda hdb
    have hlt := Timeout.deadline_lt hda
    unfold Timeout.Precedes at hab hmixed hintervals
    unfold Timeout.noted millis
    grind
  · intro h
    have hlt : ∀ a ∈ ts, ∀ b ∈ ts, a.isDue now → b.isDue now → a.Precedes b →
        a.noted now < b.noted now := fun a ha b hb hda hdb =>
      h a (List.mem_filter.mpr ⟨ha, hda⟩) b (List.mem_filter.mpr ⟨hb, hdb⟩)
    unfold Timeout.Precedes Timeout.noted millis at hlt
    constructor
    all_goals
      intro a ha b hb hda hdb hra hrb
      have hab := hlt a ha b hb hda hdb
      have hba := hlt b hb a ha hdb hda
      have hid := hinj ha hb
      have hd := Timeout.deadline_lt hda
      unfold Timeout.Precedes at *
      grind

/-! ### What the sort can give -/

section Sorts

variable {due : List Timeout}

theorem exists_in_order (hn : (due.map Timeout.id).Nodup) :
    ∃ l : List Timeout, l.Perm due ∧ l.Pairwise Timeout.Precedes := by
  have : Std.Total fun a b : Timeout => ¬ b.Precedes a := ⟨fun a b => by
    unfold Timeout.Precedes
    omega⟩
  have : IsTrans Timeout fun a b => ¬ b.Precedes a := ⟨fun a b c => by
    unfold Timeout.Precedes
    omega⟩
  have hp := List.perm_insertionSort (fun a b : Timeout => ¬ b.Precedes a) due
  refine ⟨_, hp, ?_⟩
  have hid : (due.insertionSort fun a b => ¬ b.Precedes a).Pairwise fun a b => a.id ≠ b.id :=
    List.pairwise_map.mp ((hp.map Timeout.id).nodup_iff.mpr hn)
  refine ((List.pairwise_insertionSort _ due).and hid).imp ?_
  rintro a b ⟨hab, hne⟩
  exact (Timeout.precedes_or hne).resolve_right hab

/-- If the noted deadlines go strictly up in the order of the timers, every sort gives this
order. -/
theorem sorted_in_order (hn : (due.map Timeout.id).Nodup)
    (h : ∀ a ∈ due, ∀ b ∈ due, a.Precedes b → a.noted now < b.noted now) (sort : UnstableSort) :
    ∃ l : List Timeout, l.Perm due ∧ l.Pairwise Timeout.Precedes ∧
      (sort.sort (due.map (Timeout.entry now))).map ExecutingTimer.callback = l.map Timeout.id := by
  obtain ⟨l, hp, hl⟩ := exists_in_order hn
  refine ⟨l, hp, hl, ?_⟩
  have hlt : (l.map (Timeout.entry now)).Pairwise fun a b => a.deadline < b.deadline := by
    rw [List.pairwise_map]
    exact hl.imp_of_mem fun ha hb hab => h _ (hp.mem_iff.mp ha) _ (hp.mem_iff.mp hb) hab
  have hperm : (sort.sort (due.map (Timeout.entry now))).Perm (l.map (Timeout.entry now)) :=
    (sort.perm _).trans (hp.symm.map _)
  have hinj : ∀ a ∈ l.map (Timeout.entry now), ∀ b ∈ l.map (Timeout.entry now),
      a.deadline = b.deadline → a = b := by
    intro a ha b hb hab
    have hne : (l.map (Timeout.entry now)).Pairwise fun a b => a.deadline ≠ b.deadline :=
      hlt.imp fun hlt => Int.ne_of_lt hlt
    exact List.inj_on_of_nodup_map (List.pairwise_map.mpr hne) ha hb hab
  have heq : sort.sort (due.map (Timeout.entry now)) = l.map (Timeout.entry now) := by
    refine hperm.eq_of_pairwise ?_ (sort.sorted _) (hlt.imp fun hlt => Int.le_of_lt hlt)
    intro a b ha hb hab hba
    exact hinj a (hperm.mem_iff.mp ha) b hb (Int.le_antisymm hab hba)
  rw [heq, List.map_map]
  rfl

/-- A sort that gives the arrangement `arranged` for the list `l`. -/
def UnstableSort.arranging (l arranged : List ExecutingTimer) (hp : arranged.Perm l)
    (hs : arranged.Pairwise fun a b => a.deadline ≤ b.deadline) : UnstableSort where
  sort := fun l' => if l' = l then arranged else insertionSort.sort l'
  perm := fun l' => by
    split_ifs with h
    · exact h ▸ hp
    · exact insertionSort.perm l'
  sorted := fun l' => by
    split_ifs
    · exact hs
    · exact insertionSort.sorted l'

/-- If the noted deadline of one of two entries is not later, some sort puts it first. -/
theorem exists_sort_before {l : List ExecutingTimer} {x y : ExecutingTimer} (hx : x ∈ l)
    (hy : y ∈ l.erase x) (hxy : x.deadline ≤ y.deadline) :
    ∃ sort : UnstableSort, [x, y].Sublist (sort.sort l) := by
  let rest := (l.erase x).erase y
  have hp : (x :: y :: rest).Perm l :=
    ((List.perm_cons_erase hy).symm.cons x).trans (List.perm_cons_erase hx).symm
  refine ⟨UnstableSort.arranging l (insertionSort.sort (x :: y :: rest))
    ((insertionSort.perm _).trans hp) (insertionSort.sorted _), ?_⟩
  show [x, y].Sublist (if l = l then _ else _)
  rw [if_pos rfl]
  have : Std.Total fun a b : ExecutingTimer => a.deadline ≤ b.deadline :=
    ⟨fun a b => le_total _ _⟩
  have : IsTrans ExecutingTimer fun a b => a.deadline ≤ b.deadline := ⟨fun _ _ _ => le_trans⟩
  exact List.pair_sublist_insertionSort hxy ((List.nil_sublist rest).cons_cons y |>.cons_cons x)

/-- If every sort gives the order of the timers, the noted deadlines go strictly up in it. -/
theorem noted_lt_of_sorts (hn : (due.map Timeout.id).Nodup)
    (h : ∀ sort : UnstableSort, ∃ l : List Timeout, l.Perm due ∧ l.Pairwise Timeout.Precedes ∧
      (sort.sort (due.map (Timeout.entry now))).map ExecutingTimer.callback = l.map Timeout.id) :
    ∀ a ∈ due, ∀ b ∈ due, a.Precedes b → a.noted now < b.noted now := by
  intro a ha b hb hab
  have hinj := List.inj_on_of_nodup_map hn
  by_contra hlt
  have hne : a.entry now ≠ b.entry now := by
    intro heq
    have hid : a.id = b.id := congrArg ExecutingTimer.callback heq
    rw [hinj ha hb hid] at hab
    exact hab.asymm hab
  obtain ⟨sort, hsub⟩ := exists_sort_before (List.mem_map_of_mem hb)
    ((List.mem_erase_of_ne hne).mpr (List.mem_map_of_mem ha)) (Int.not_lt.mp hlt)
  obtain ⟨l, hp, hl, heq⟩ := h sort
  have hsub : [b.id, a.id].Sublist (l.map Timeout.id) := heq ▸ hsub.map ExecutingTimer.callback
  -- in the list of timers the second comes before the first as well
  have hpair : (l.map Timeout.id).Pairwise fun i j =>
      ∃ t ∈ due, ∃ u ∈ due, t.id = i ∧ u.id = j ∧ t.Precedes u := by
    rw [List.pairwise_map]
    exact hl.imp_of_mem fun ht hu htu =>
      ⟨_, hp.mem_iff.mp ht, _, hp.mem_iff.mp hu, rfl, rfl, htu⟩
  obtain ⟨t, ht, u, hu, htb, hua, htu⟩ := List.pairwise_pair.mp (hpair.sublist hsub)
  rw [hinj ht hb htb, hinj hu ha hua] at htu
  exact hab.asymm htu

end Sorts

/-! ### Polls -/

variable {v : ℕ}

theorem Polled.invoked {sort : UnstableSort} {s s' : State} {es : List Event} (hs : s.Separate)
    (hv : v ∉ s.frames.map Frame.vec) (h : Polled sort s v now es s') :
    invokedFrom sort v (s.collect sort v now) es =
      (sort.sort (s.callVec v ++ s.timers.filterMap (Timeout.due now))).map
        ExecutingTimer.callback := by
  have hsep : (s.collect sort v now).Separate := List.nodup_cons.mpr ⟨hv, hs⟩
  have happ := invokedFrom_append hsep (.head _) h.events
  rw [h.empty, List.map_nil, List.append_nil] at happ
  rw [happ]
  show (setVec s.callVec v _ v).map _ = _
  rw [setVec_self]

theorem exists_polled (sort : UnstableSort) (s : State) (v : ℕ) (now : ℤ) :
    ∃ es s', Polled sort s v now es s' := by
  obtain ⟨s', ⟨es, hr⟩, hd⟩ := drain sort (s := s.collect sort v now) rfl rfl
  exact ⟨es, s', hr, hd.frames_eq, hd.empty⟩

theorem InOrder.length {callbacks : List ℕ} (h : InOrder now ts callbacks) :
    callbacks.length = (ts.filter (Timeout.isDue now)).length := by
  obtain ⟨l, hp, -, rfl⟩ := h
  rw [List.length_map, hp.length_eq]

end RasterRuntime.Timers
