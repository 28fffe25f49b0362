import RasterRuntime.Events.Emission

/-! # The table of an instance, and what its class is told

For the classes that `resolve_events` knows, all methods find the same table. Then a `once` listener
is gone when it is called, an emit that returns `true` has called a listener, and, as long as nobody
listens for `removeListener`, `removeAllListeners` leaves nothing behind and `on_event_changed` is
told exactly when an event gets its first listener or loses its last. For every other class the
automatic removals look in the hidden table.

* `Fruitful`: an emit has called a listener, or is at the beginning of its snapshot.
* `Synced`: the reports tell whether an event has listeners, but for a removal that is about to
  report.
* `class_in_sync`: an instance of any class is in sync along steps that need no such removal, or
  whose class is known.
* `unknown_class_out_of_sync`: a `once` listener of a socket is not removed. -/

namespace RasterRuntime.Events

open Transition
open List (append_nil mem_cons mem_map mem_of_mem_tail mem_singleton not_mem_nil replicate
  sublist_nil)

/-! ### Emits call listeners -/

/-- An emit has called a listener, or it is on top and the listeners it has not dealt with have not
been called. -/
structure Fruitful (stack : List Frame) (fired : List ℕ) (log : List Entry) : Prop where
  below : ∀ e key items, .doEmit e key items ∈ stack.tail → callsOf e (calls log) ≠ []
  top : ∀ e key items, stack.head? = some (.doEmit e key items) →
    callsOf e (calls log) ≠ [] ∨ (items ≠ [] ∧ ∀ item ∈ items, item.id ∉ fired)
  finished : ∀ e, .finished e true ∈ log → callsOf e (calls log) ≠ []

/-- The frame is not the loop of an emit. -/
def Frame.Rests (f : Frame) : Prop := ∀ e key items, f ≠ .doEmit e key items

/-- No emit is on top. -/
def Resting (stack : List Frame) : Prop := ∀ f, stack.head? = some f → f.Rests

theorem callsOf_append_ne_nil {e : ℕ} {log : List Entry} (h : callsOf e (calls log) ≠ [])
    (entries : List Entry) : callsOf e (calls (log ++ entries)) ≠ [] := by
  unfold calls callsOf at h ⊢
  rw [List.filterMap_append, List.filter_append, List.map_append]
  exact List.append_ne_nil_of_left_ne_nil h _

section Fruitful

variable {stack : List Frame} {fired : List ℕ} {log : List Entry} {f : Frame}

theorem Resting.of_rests (hf : f.Rests) (rest : List Frame) : Resting (f :: rest) := by
  rintro _ ⟨⟩
  exact hf

section

variable (h : Fruitful stack fired log)

include h

theorem Fruitful.mem (hrest : Resting stack) {e : ℕ} {key : EventKey}
    {items : List EventItem} (hmem : .doEmit e key items ∈ stack) : callsOf e (calls log) ≠ [] := by
  cases stack with
  | nil => cases hmem
  | cons f rest =>
    rcases mem_cons.1 hmem with rfl | hmem
    · exact absurd rfl (hrest _ rfl e key items)
    · exact h.below e key items hmem

theorem Fruitful.append {entries : List Entry}
    (hentries : ∀ e, .finished e true ∈ entries → callsOf e (calls log) ≠ []) :
    Fruitful stack fired (log ++ entries) := by
  refine ⟨fun e key items hmem => callsOf_append_ne_nil (h.below e key items hmem) entries,
    fun e key items htop => ?_, fun e hmem => callsOf_append_ne_nil ?_ entries⟩
  · exact (h.top e key items htop).imp_left fun hcalls => callsOf_append_ne_nil hcalls entries
  · rcases List.mem_append.1 hmem with hmem | hmem
    · exact h.finished e hmem
    · exact hentries e hmem

theorem Fruitful.push (hrest : Resting stack) (hf : f.Rests) : Fruitful (f :: stack) fired log := by
  refine ⟨fun e key items hmem => h.mem hrest hmem, fun e key items htop => ?_, h.finished⟩
  cases htop
  exact absurd rfl (hf e key items)

theorem Fruitful.drop {stack' : List Frame}
    (hsub : stack' ⊆ stack.tail) : Fruitful stack' fired log :=
  ⟨fun e key items hmem => h.below e key items (hsub (mem_of_mem_tail hmem)),
    fun e key items htop => .inl (h.below e key items (hsub (List.mem_of_head? htop))),
    h.finished⟩

end

theorem Fruitful.replace {g : Frame} (h : Fruitful (f :: stack) fired log) (hg : g.Rests) :
    Fruitful (g :: stack) fired log := by
  refine ⟨h.below, fun e key items htop => ?_, h.finished⟩
  cases htop
  exact absurd rfl (hg e key items)

theorem Fruitful.call (h : Fruitful (f :: stack) fired log) (e : ℕ) (key : EventKey)
    (item : EventItem) (items : List EventItem) (fired' : List ℕ) :
    Fruitful (.js :: .doEmit e key items :: stack) fired' (log ++ [.called e item]) := by
  have hnew : callsOf e (calls (log ++ [.called e item])) ≠ [] := by
    refine List.ne_nil_of_mem (mem_callsOf.2 (List.mem_filterMap.2 ⟨.called e item, ?_, rfl⟩))
    exact List.mem_append_right _ (mem_singleton.2 rfl)
  refine ⟨fun e' key' items' hmem => ?_, fun e' key' items' htop => ?_, fun e' hmem => ?_⟩
  · rcases mem_cons.1 hmem with heq | hmem
    · cases heq
      exact hnew
    · exact callsOf_append_ne_nil (h.below e' key' items' hmem) _
  · cases htop
  · rcases List.mem_append.1 hmem with hmem | hmem
    · exact callsOf_append_ne_nil (h.finished e' hmem) _
    · cases mem_singleton.1 hmem

end Fruitful

variable {s s' : State} {key : EventKey} {f : Frame} {rest stack : List Frame}

theorem Fruitful.doEmit (h : Fruitful s.stack s.fired s.log) (hs : Coherent s)
    (hrest : Resting s.stack) (key : EventKey) :
    Fruitful (doEmit s.events key s).stack (doEmit s.events key s).fired
      (doEmit s.events key s).log := by
  unfold Events.doEmit
  rw [listenersOf_eq hs.fits.proper]
  split_ifs with hempty
  · exact h.append (by simp)
  · refine Fruitful.append ⟨fun e k items hmem => h.mem hrest hmem, ?_, h.finished⟩ (by simp)
    intro e k items htop
    cases htop
    exact .inr ⟨hempty, hs.fits.idle key⟩

section

variable (h : Fruitful s.stack s.fired s.log)

include h

theorem Fruitful.takeOut {f : List EventItem → List EventItem}
    (hs : Coherent { s with events := removing key f s.events }) (hrest : Resting s.stack) :
    Fruitful (takeOut key f s).stack (takeOut key f s).fired (takeOut key f s).log :=
  Fruitful.doEmit (s := { s with
      events := removing key f s.events
      stack := .removed key (f (table s.events key)).isEmpty :: s.stack })
    (h.push hrest nofun) (hs.push rfl)
    (.of_rests (by nofun) _) removeListener

theorem Fruitful.removeListenerById {id : ℕ} (hproper : Proper s.events)
    (hs : Coherent { s with events := removing key (·.eraseP (·.id = id)) s.events })
    (hrest : Resting s.stack) :
    Fruitful (removeListenerById true key id s).stack (removeListenerById true key id s).fired
      (removeListenerById true key id s).log := by
  by_cases hmem : id ∈ (table s.events key).map (·.id)
  · rw [removeListenerById_of_mem hproper hmem]
    exact h.takeOut hs hrest
  · rw [removeListenerById_of_not_mem hproper hmem]
    exact h

variable (hs : Coherent s)

include hs

theorem Fruitful.tick
    (hstack : s.stack = f :: rest) (hstep : tick true { s with stack := rest } f = some s') :
    Fruitful s'.stack s'.fired s'.log := by
  rw [hstack] at h
  have hpop : Fruitful rest s.fired s.log := h.drop (List.Subset.refl _)
  have hrest : Coherent { s with stack := rest } := by
    have hfits := hs.fits
    rw [hstack] at hfits
    exact hs.silent rfl hfits.pop
  revert hstep
  fun_cases Events.tick true { s with stack := rest } f
  all_goals rintro ⟨⟩
  · next e key =>
    refine hpop.append fun e' he' => ?_
    cases mem_singleton.1 he'
    exact (h.top e key [] rfl).resolve_right fun hempty => hempty.1 rfl
  · next e key item callbacks _ hfired =>
    have hcalls := (h.top e key _ rfl).resolve_right fun hidle => hidle.2 item (.head _) hfired
    refine ⟨h.below, fun e' key' items' htop => ?_, h.finished⟩
    cases htop
    exact .inl hcalls
  · next e key item callbacks honce hfired =>
    exact Fruitful.removeListenerById
      (s := { s with stack := .fire e key item callbacks :: rest })
      (h.replace (by simp [Frame.Rests])) hs.fits.proper
      (hs.ready hstack honce hfired) (.of_rests (by simp [Frame.Rests]) _)
  · next e key item callbacks _ => exact h.call e key item callbacks s.fired
  · next e key item callbacks => exact h.call e key item callbacks _
  · next key _ _ _ =>
    refine Fruitful.append (hpop.append (by simp)) ?_
    cases hasKey s.events key <;> simp
  · next reports =>
    refine hpop.append ?_
    cases reports <;> simp
  · exact hpop
  · next key id ids =>
    exact Fruitful.removeListenerById (s := { s with stack := .removeIds key ids :: rest })
      (h.replace (by simp [Frame.Rests])) hs.fits.proper
      ((hrest.push (f := .removeIds key ids) rfl).remove key fun items => List.eraseP_sublist)
      (.of_rests (by simp [Frame.Rests]) _)
  · exact hpop
  · next keys =>
    exact (h.replace (g := .removeKeys keys) (by simp [Frame.Rests])).push
      (.of_rests (by simp [Frame.Rests]) _) (by simp [Frame.Rests])

theorem Fruitful.step {act : Act} (hstep : step true s act = some s') :
    Fruitful s'.stack s'.fired s'.log := by
  have hjs : ∀ {rest : List Frame}, s.stack = .js :: rest → Resting s.stack := fun hstack => by
    rw [hstack]
    exact .of_rests (by nofun) _
  cases Move.of_step hstep with
  | tick hstack htick => exact h.tick hs hstack htick
  | add hstack key callback prepend once =>
    exact Fruitful.doEmit (s := { s with stack := .insert key callback prepend once :: s.stack })
      (h.push (hjs hstack) nofun) (hs.push rfl)
      (.of_rests (by nofun) _) newListener
  | off hstack key callback =>
    rcases removeEventListener_eq hs.fits.proper key callback with heq | ⟨-, heq⟩
    · rw [heq]
      exact h
    · rw [heq]
      exact h.takeOut (hs.remove key (without_sublist callback)) (hjs hstack)
  | removeAllListeners hstack key =>
    cases key with
    | some key | none => exact h.push (hjs hstack) nofun
  | emit hstack key => exact h.doEmit hs (hjs hstack) key
  | ret hstack =>
    refine h.drop ?_
    rw [hstack]
    exact List.Subset.refl _
  | throw hstack =>
    refine h.drop ?_
    rw [hstack]
    exact (unwind_sublist _).subset

end

theorem fruitful_of_run {acts : List Act} (h : run (step true) .initial acts = some s) :
    Fruitful s.stack s.fired s.log := by
  refine (run_invariant (step true)
    (P := fun s => Coherent s ∧ Fruitful s.stack s.fired s.log)
    (fun _ _ _ hs hstep => ⟨hs.1.step hstep, hs.2.step hs.1 hstep⟩)
    ⟨coherent_initial, ?_⟩ h).2
  exact ⟨nofun, nofun, nofun⟩

/-! ### Reports -/

/-- The list changes a status from `b` to `b'`, each time to the other one. -/
def Flips : Bool → List Bool → Bool → Prop
  | b, [], b' => b = b'
  | b, c :: cs, b' => c = !b ∧ Flips c cs b'

theorem Flips.concat {cs : List Bool} {b b' : Bool} (h : Flips b cs b') :
    Flips b (cs ++ [!b']) (!b') := by
  induction cs generalizing b with
  | nil => exact ⟨congrArg _ h.symm, rfl⟩
  | cons c cs ih => exact ⟨h.1, ih h.2⟩

/-- What `on_event_changed` was told about an event. -/
def reportsOn (key : EventKey) (log : List Entry) : List Bool :=
  log.filterMap fun
    | .changed k added => if k = key then some added else none
    | _ => none

/-- The program does not listen for `removeListener`. -/
def Act.Quiet : Act → Prop
  | .add key _ _ _ => key ≠ removeListener
  | _ => True

instance (act : Act) : Decidable act.Quiet := by
  cases act <;> unfold Act.Quiet <;> infer_instance

/-- No removal is under way. -/
def Clear (stack : List Frame) : Prop := ∀ key reports, .removed key reports ∉ stack

/-- No registration for `removeListener` is under way. -/
def Deaf (stack : List Frame) : Prop :=
  ∀ key callback prepend once, .insert key callback prepend once ∈ stack → key ≠ removeListener

/-- Does the class think that the event has listeners? A removal that is about to report is not
known to it. -/
def status (stack : List Frame) (events : EventList) (key : EventKey) : Bool :=
  decide (stack.head? = some (.removed key true)) || !(table events key).isEmpty

/-- **The reports tell whether an event has listeners.** -/
structure Synced (s : State) : Prop where
  unheard : table s.events removeListener = []
  deaf : Deaf s.stack
  below : Clear s.stack.tail
  emptied : ∀ key, s.stack.head? = some (.removed key true) → table s.events key = []
  reported : ∀ key, Flips false (reportsOn key s.log) (status s.stack s.events key)

theorem Clear.head? (h : Clear stack) (key : EventKey) (reports : Bool) :
    stack.head? ≠ some (.removed key reports) :=
  fun hhead => h key reports (List.mem_of_head? hhead)

theorem Clear.status (h : Clear stack) (events : EventList) (key : EventKey) :
    status stack events key = !(table events key).isEmpty := by
  unfold Events.status
  rw [decide_eq_false (h.head? key true), Bool.false_or]

theorem Clear.cons (h : Clear stack) (hf : ∀ key reports, f ≠ .removed key reports) :
    Clear (f :: stack) := by
  intro key reports hmem
  rcases mem_cons.1 hmem with heq | hmem
  · exact hf key reports heq.symm
  · exact h key reports hmem

/-- The frame belongs neither to a registration nor to a removal. -/
def Frame.plain : Frame → Bool
  | .insert .. | .removed .. => false
  | _ => true

variable {frames : List Frame}

theorem Clear.append (h : Clear stack) (frames : List Frame) (hframes : frames.all Frame.plain) :
    Clear (frames ++ stack) := by
  intro key reports hmem
  rcases List.mem_append.1 hmem with hmem | hmem
  · cases List.all_eq_true.1 hframes _ hmem
  · exact h key reports hmem

theorem Deaf.append (h : Deaf stack) (frames : List Frame) (hframes : frames.all Frame.plain) :
    Deaf (frames ++ stack) := by
  intro key callback prepend once hmem
  rcases List.mem_append.1 hmem with hmem | hmem
  · cases List.all_eq_true.1 hframes _ hmem
  · exact h key callback prepend once hmem

theorem Deaf.subset {stack' : List Frame} (h : Deaf stack) (hsub : stack' ⊆ stack) :
    Deaf stack' :=
  fun key callback prepend once hmem => h key callback prepend once (hsub hmem)

theorem reportsOn_append (key : EventKey) (log entries : List Entry) :
    reportsOn key (log ++ entries) = reportsOn key log ++ reportsOn key entries :=
  List.filterMap_append ..

theorem reportsOn_ite (k key : EventKey) (b added : Bool) :
    reportsOn k (if b then [.changed key added] else []) =
      if b ∧ key = k then [added] else [] := by
  cases b <;> by_cases hk : key = k <;> simp [reportsOn, hk]

theorem Synced.clear (h : Synced s) (hstack : s.stack = f :: rest)
    (hf : ∀ key reports, f ≠ .removed key reports) :
    Clear rest ∧ Clear s.stack := by
  have hbelow := h.below
  rw [hstack] at hbelow ⊢
  exact ⟨hbelow, Clear.cons hbelow hf⟩

/-- A step that neither changes the table nor reports, with no removal under way. -/
theorem Synced.plain (h : Synced s) (hclear : Clear s.stack) (hevents : s'.events = s.events)
    (hlog : ∀ key, reportsOn key s'.log = reportsOn key s.log) (hclear' : Clear s'.stack)
    (hdeaf : Deaf s'.stack) : Synced s' := by
  refine ⟨?_, hdeaf, fun key reports hmem => ?_, fun key hhead => ?_, fun key => ?_⟩
  · rw [hevents]
    exact h.unheard
  · exact hclear' key reports (mem_of_mem_tail hmem)
  · exact absurd hhead (hclear'.head? key true)
  · have hreported := h.reported key
    rw [hclear.status] at hreported
    rw [hlog, hclear'.status, hevents]
    exact hreported

theorem Synced.doEmit (h : Synced s) (hclear : Clear s.stack) (key : EventKey) :
    Synced (doEmit s.events key s) := by
  unfold Events.doEmit
  split
  · refine h.plain hclear rfl (fun k => ?_) (hclear.append [_] rfl)
      (h.deaf.append [_] rfl)
    rw [reportsOn_append]
    exact append_nil _
  · refine h.plain hclear rfl (fun k => ?_) hclear h.deaf
    rw [reportsOn_append]
    exact append_nil _

section TakeOut

variable {f : List EventItem → List EventItem}

theorem table_removing_eq_nil (hproper : Proper s.events) (hf : ∀ items, (f items).Sublist items)
    {k : EventKey} (h : table s.events k = []) : table (removing key f s.events) k = [] := by
  rw [table_removing hproper key (sublist_nil.1 (hf []))]
  split_ifs with hk
  · rw [← hk, h]
    exact sublist_nil.1 (hf [])
  · exact h

theorem takeOut_eq (hproper : Proper s.events) (hf : ∀ items, (f items).Sublist items)
    (hunheard : table s.events removeListener = []) :
    takeOut key f s =
      { s with
        events := removing key f s.events
        nextEmit := s.nextEmit + 1
        stack := .removed key (f (table s.events key)).isEmpty :: s.stack
        log := s.log ++ [.finished s.nextEmit false] } := by
  unfold takeOut doEmit
  rw [listenersOf_eq (hproper.removing key f),
    if_pos (table_removing_eq_nil hproper hf hunheard)]

theorem Synced.takeOut (h : Synced s) (hproper : Proper s.events) (hclear : Clear s.stack)
    (hf : ∀ items, (f items).Sublist items) (hne : table s.events key ≠ []) :
    Synced (takeOut key f s) := by
  have htable := table_removing hproper key (sublist_nil.1 (hf []))
  rw [takeOut_eq hproper hf h.unheard]
  refine ⟨table_removing_eq_nil hproper hf h.unheard, fun k c p o hmem => ?_, hclear,
    fun k hhead => ?_, fun k => ?_⟩
  · exact h.deaf k c p o ((mem_cons.1 hmem).resolve_left nofun)
  · obtain ⟨rfl, hempty⟩ : key = k ∧ (f (table s.events key)).isEmpty := by
      simpa using hhead
    rw [htable, if_pos rfl]
    exact List.isEmpty_iff.1 hempty
  · have hreported := h.reported k
    rw [hclear.status] at hreported
    rw [reportsOn_append]
    change Flips false (reportsOn k s.log ++ []) _
    rw [append_nil]
    -- The class still thinks what it thought.
    have hstatus : status (.removed key (f (table s.events key)).isEmpty :: s.stack)
        (removing key f s.events) k = !(table s.events k).isEmpty := by
      unfold status
      rw [htable]
      by_cases hk : k = key
      · subst hk
        rw [if_pos rfl]
        have hbefore : (table s.events k).isEmpty = false := by simpa using hne
        cases hempty : (f (table s.events k)).isEmpty <;> simp [hbefore]
      · rw [if_neg hk]
        simp [Ne.symm hk]
    rw [hstatus]
    exact hreported

end TakeOut

theorem Synced.removeListenerById (h : Synced s) (hproper : Proper s.events)
    (hclear : Clear s.stack) (key : EventKey) (id : ℕ) :
    Synced (removeListenerById true key id s) := by
  by_cases hmem : id ∈ (table s.events key).map (·.id)
  · rw [removeListenerById_of_mem hproper hmem]
    refine h.takeOut hproper hclear (fun items => List.eraseP_sublist) fun hnil => ?_
    rw [hnil] at hmem
    cases hmem
  · rw [removeListenerById_of_not_mem hproper hmem]
    exact h

theorem Synced.report (h : Synced s) {reports : Bool}
    (hstack : s.stack = .removed key reports :: rest) :
    Synced { s with
      stack := rest
      log := s.log ++ if reports then [.changed key false] else [] } := by
  have hrest : Clear rest := by
    have hbelow := h.below
    rw [hstack] at hbelow
    exact hbelow
  have hdeaf : Deaf rest := h.deaf.subset (by rw [hstack]; exact List.subset_cons_self _ _)
  refine ⟨h.unheard, hdeaf, fun k b hmem => hrest k b (mem_of_mem_tail hmem),
    fun k hhead => absurd hhead (hrest.head? k true), fun k => ?_⟩
  have hreported := h.reported k
  rw [hrest.status, reportsOn_append, reportsOn_ite]
  unfold status at hreported
  rw [hstack, List.head?_cons] at hreported
  by_cases hk : reports ∧ key = k
  · obtain ⟨rfl, rfl⟩ := hk
    rw [decide_eq_true rfl, Bool.true_or] at hreported
    rw [if_pos ⟨rfl, rfl⟩, h.emptied key (by rw [hstack]; rfl)]
    exact hreported.concat
  · rw [if_neg hk, append_nil]
    have hne : some (Frame.removed key reports) ≠ some (.removed k true) := by
      simpa [and_comm] using hk
    rw [decide_eq_false hne, Bool.false_or] at hreported
    exact hreported

/-- A registration is made, and the class is told of the first one. -/
theorem Synced.insertListener (h : Synced s) (hproper : Proper s.events) (hclear : Clear s.stack)
    (hkey : key ≠ removeListener) (callback : ℕ) (prepend once : Bool) :
    Synced (insertListener key callback prepend once s) := by
  unfold Events.insertListener
  refine ⟨?_, h.deaf, fun k b hmem => hclear k b (mem_of_mem_tail hmem),
    fun k hhead => absurd hhead (hclear.head? k true), fun k => ?_⟩
  · rw [table_adding, if_neg (Ne.symm hkey)]
    exact h.unheard
  · have hreported := h.reported k
    rw [hclear.status] at hreported ⊢
    rw [reportsOn_append, reportsOn_append, table_adding, hasKey_eq hproper, reportsOn_ite]
    change Flips false (reportsOn k s.log ++ [] ++ _) _
    rw [append_nil]
    by_cases hk : k = key
    · subst hk
      have hnonempty : (placing ⟨s.nextId, callback, once⟩ prepend (table s.events k)).isEmpty =
          false := by
        cases prepend <;> simp [placing]
      rw [if_pos rfl, hnonempty]
      cases hempty : (table s.events k).isEmpty with
      | true =>
        rw [hempty] at hreported
        rw [if_pos ⟨rfl, rfl⟩]
        exact hreported.concat
      | false =>
        rw [hempty] at hreported
        rw [if_neg (by simp), append_nil]
        exact hreported
    · rw [if_neg hk, if_neg fun hb => hk hb.2.symm, append_nil]
      exact hreported

/-- The frame on top is exchanged for others that neither register nor remove. -/
theorem Synced.restack (h : Synced s) (hstack : s.stack = f :: rest)
    (hf : ∀ key reports, f ≠ .removed key reports) (frames : List Frame)
    (hframes : frames.all Frame.plain) (hsub : stack ⊆ rest) (entries : List Entry)
    (hentries : ∀ key, reportsOn key entries = []) (s' : State) (hevents : s'.events = s.events)
    (hlog : s'.log = s.log ++ entries) (hstack' : s'.stack = frames ++ stack) : Synced s' := by
  obtain ⟨hrest, hall⟩ := h.clear hstack hf
  have hdeaf := h.deaf
  rw [hstack] at hdeaf
  refine h.plain hall hevents (fun key => ?_) ?_ ?_
  · rw [hlog, reportsOn_append, hentries, append_nil]
  · rw [hstack']
    exact Clear.append (fun key reports hmem => hrest key reports (hsub hmem)) frames hframes
  · rw [hstack']
    exact (hdeaf.subset fun g hg => .tail _ (hsub hg)).append frames hframes

theorem Synced.exchange (h : Synced s) (hstack : s.stack = f :: rest)
    (hf : ∀ key reports, f ≠ .removed key reports) (frames : List Frame)
    (hframes : frames.all Frame.plain) (hsub : stack ⊆ rest) :
    Synced { s with stack := frames ++ stack } :=
  h.restack hstack hf frames hframes hsub [] (fun _ => rfl) _ rfl (append_nil _).symm rfl

theorem Synced.remove (h : Synced s) (hproper : Proper s.events) (hstack : s.stack = f :: rest)
    (hf : ∀ key reports, f ≠ .removed key reports) (g : Frame) (hg : [g].all Frame.plain)
    (key : EventKey) (id : ℕ) :
    Synced (Events.removeListenerById true key id { s with stack := g :: rest }) :=
  (h.exchange hstack hf [g] hg (List.Subset.refl _)).removeListenerById hproper
    ((h.clear hstack hf).1.append [g] hg) key id

theorem Synced.tick (hs : Coherent s) (h : Synced s) (hstack : s.stack = f :: rest)
    (hstep : tick true { s with stack := rest } f = some s') :
    Synced s' := by
  have hrest : rest ⊆ rest := List.Subset.refl _
  revert hstep
  fun_cases Events.tick true { s with stack := rest } f
  all_goals rintro ⟨⟩
  · next e _ =>
    exact h.restack hstack (by simp) [] rfl hrest [.finished e true] (fun _ => rfl) _ rfl rfl rfl
  · next e key _ callbacks _ _ =>
    exact h.exchange hstack (by simp) [.doEmit e key callbacks] rfl hrest
  · next e key item callbacks _ _ =>
    exact h.remove hs.fits.proper hstack (by simp) (.fire e key item callbacks) rfl key item.id
  case case5 e key item callbacks _ | case6 e key item callbacks =>
    exact h.restack hstack (by simp) [.js, .doEmit e key callbacks] rfl hrest [.called e item]
      (fun _ => rfl) _ rfl rfl rfl
  · next key callback prepend once =>
    have hkey := h.deaf key callback prepend once (by rw [hstack]; exact .head _)
    exact (h.exchange hstack (by simp) [] rfl hrest).insertListener hs.fits.proper
      (h.clear hstack (by simp)).1 hkey callback prepend once
  · exact h.report hstack
  · exact h.exchange hstack (by simp) [] rfl hrest
  · next key id ids =>
    exact h.remove hs.fits.proper hstack (by simp) (.removeIds key ids) rfl key id
  · exact h.exchange hstack (by simp) [] rfl hrest
  · next key keys =>
    exact h.exchange hstack (by simp) [.removeIds key _, .removeKeys keys] rfl hrest

theorem Synced.step {act : Act} (hs : Coherent s) (h : Synced s) (hstep : step true s act = some s')
    (hquiet : act.Quiet) : Synced s' := by
  have hclear : ∀ {rest : List Frame}, s.stack = .js :: rest → Clear s.stack := fun hstack =>
    (h.clear hstack nofun).2
  cases Move.of_step hstep with
  | tick hstack htick => exact h.tick hs hstack htick
  | add hstack key callback prepend once =>
    have hpush : Synced { s with stack := .insert key callback prepend once :: s.stack } := by
      refine h.plain (hclear hstack) rfl (fun _ => rfl)
        ((hclear hstack).cons nofun) fun k c p o hmem => ?_
      rcases mem_cons.1 hmem with heq | hmem
      · cases heq
        exact hquiet
      · exact h.deaf k c p o hmem
    exact hpush.doEmit ((hclear hstack).cons nofun) newListener
  | off hstack key callback =>
    rcases removeEventListener_eq hs.fits.proper key callback with heq | ⟨hne, heq⟩
    · rw [heq]
      exact h
    · rw [heq]
      exact h.takeOut hs.fits.proper (hclear hstack) (without_sublist callback) hne
  | removeAllListeners hstack key =>
    cases key with
    | some key | none =>
      exact h.plain (hclear hstack) rfl (fun _ => rfl) ((hclear hstack).cons nofun)
        (h.deaf.append [_] rfl)
  | emit hstack key => exact h.doEmit (hclear hstack) key
  | ret hstack => exact h.exchange hstack nofun [] rfl (List.Subset.refl _)
  | throw hstack => exact h.exchange hstack nofun [] rfl (unwind_sublist _).subset

theorem synced_initial : Synced State.initial :=
  ⟨rfl, fun _ _ _ _ hmem => absurd (mem_singleton.1 hmem) nofun, nofun, nofun, fun _ => rfl⟩

theorem synced_of_run {acts : List Act} (hquiet : ∀ act ∈ acts, act.Quiet)
    (h : run (step true) .initial acts = some s) : Coherent s ∧ Synced s :=
  (runEach_of_forall hquiet _).invariant (I := fun s => Coherent s ∧ Synced s)
    (fun _ _ _ hs hq hstep => ⟨hs.1.step hstep, hs.2.step hs.1 hstep hq⟩)
    ⟨coherent_initial, synced_initial⟩ h

/-! ### Removing all listeners -/

theorem eraseP_last {items : List EventItem} {ids : List ℕ} {id : ℕ}
    (h : items.map (·.id) = ids ++ [id]) (hnodup : (items.map (·.id)).Nodup) :
    (items.eraseP (·.id = id)).map (·.id) = ids := by
  obtain ⟨init, last, rfl, rfl, hlast⟩ := List.map_eq_append_iff.1 h
  obtain ⟨x, rfl, rfl⟩ := List.map_eq_singleton_iff.1 hlast
  rw [List.map_append, List.nodup_append] at hnodup
  rw [List.eraseP_append_right]
  · simp
  · intro y hy hid
    exact hnodup.2.2 _ (mem_map.2 ⟨y, hy, rfl⟩) _ (mem_singleton.2 rfl)
      (by simpa using hid)

theorem step_removed {reports : Bool} (hstack : s.stack = .removed key reports :: rest) :
    step true s .tick = some { s with
      stack := rest
      log := s.log ++ if reports then [.changed key false] else [] } := by
  unfold step
  rw [hstack]
  rfl

/-- The loop over the identities, taken in reverse, empties the entry. -/
theorem removeIds_run {ids : List ℕ} (hs : Coherent s) (h : Synced s)
    (hstack : s.stack = .removeIds key ids :: rest)
    (hids : (table s.events key).map (·.id) = ids.reverse) :
    ∃ n s', run (step true) s (replicate n .tick) = some s' ∧ s'.stack = rest ∧
      table s'.events key = [] := by
  induction ids generalizing s with
  | nil =>
    refine ⟨1, { s with stack := rest }, ?_, rfl, List.map_eq_nil_iff.1 hids⟩
    have hstep : step true s .tick = some { s with stack := rest } := by
      unfold step
      rw [hstack]
      rfl
    exact run_cons _ hstep []
  | cons id ids ih =>
    rw [List.reverse_cons] at hids
    have hmem : id ∈ (table s.events key).map (·.id) := by
      rw [hids]
      simp
    -- One step takes the listener out, and one reports.
    obtain ⟨s1, reports, hstep, hstack1, htable⟩ : ∃ s1 reports, step true s .tick = some s1 ∧
        s1.stack = .removed key reports :: .removeIds key ids :: rest ∧
        table s1.events key = (table s.events key).eraseP (·.id = id) := by
      refine ⟨takeOut key (·.eraseP (·.id = id)) { s with stack := .removeIds key ids :: rest },
        ((table s.events key).eraseP (·.id = id)).isEmpty, ?_, ?_⟩
      · unfold step
        rw [hstack]
        exact congrArg some (removeListenerById_of_mem
          (s := { s with stack := .removeIds key ids :: rest }) hs.fits.proper hmem)
      · rw [takeOut_eq (s := { s with stack := .removeIds key ids :: rest }) hs.fits.proper
          (fun items => List.eraseP_sublist) h.unheard]
        exact ⟨rfl, (table_removing hs.fits.proper key rfl key).trans (if_pos rfl)⟩
    have hs1 := hs.step hstep
    have hstep' := step_removed hstack1
    obtain ⟨n, s', hrun, hrest, hempty⟩ := ih (hs1.step hstep')
      ((h.step hs hstep trivial).step hs1 hstep' trivial) rfl
      (htable ▸ eraseP_last hids (hs.fits.nodup key))
    refine ⟨n + 2, s', ?_, hrest, hempty⟩
    rw [List.replicate_succ, List.replicate_succ, run_cons _ hstep, run_cons _ hstep']
    exact hrun

/-- **`removeAllListeners(event)`** returns, and the event has no listener. -/
theorem removeAllListeners_run (hs : Coherent s) (h : Synced s) (hstack : s.stack = .js :: rest)
    (key : EventKey) :
    ∃ n s', run (step true) s (.removeAllListeners (some key) :: replicate n .tick) = some s' ∧
      s'.stack = s.stack ∧ table s'.events key = [] := by
  have hstep : step true s (.removeAllListeners (some key)) =
      some (removeAllForKey true key s) := by
    unfold step
    rw [hstack]
    rfl
  obtain ⟨n, s', hrun, hrest, hempty⟩ := removeIds_run (hs.step hstep)
    (h.step hs hstep trivial) rfl (by
      rw [← List.map_reverse, List.reverse_reverse]
      rfl)
  refine ⟨n, s', ?_, hrest, hempty⟩
  rw [run_cons _ hstep]
  exact hrun

/-! ### Classes that `resolve_events` knows, and the others -/

def Act.removesAll : Act → Bool
  | .removeAllListeners _ => true
  | _ => false

/-- The frame is that of an emit which is about to call a `once` listener. -/
def Frame.callsOnce (fired : List ℕ) : Frame → Bool
  | .doEmit _ _ (item :: _) => item.once && item.id ∉ fired
  | _ => false

/-- **A step that the class stays in sync with**: the program does not listen for `removeListener`,
and `resolve_events` knows the class, or `removeAllListeners` is not called and no `once` listener
is. -/
def InStep (known : Bool) (s : State) (act : Act) : Prop :=
  act.Quiet ∧ (known = true ∨
    act.removesAll = false ∧ ∀ f ∈ s.stack.head?, f.callsOnce s.fired = false)

instance (known : Bool) (s : State) (act : Act) : Decidable (InStep known s act) := by
  unfold InStep
  infer_instance

/-- The frame is a loop of `removeAllListeners`. -/
def Frame.clears : Frame → Bool
  | .removeIds .. | .removeKeys .. => true
  | _ => false

/-- No `removeAllListeners` is under way. -/
def Unclearing (stack : List Frame) : Prop := ∀ f ∈ stack, f.clears = false

theorem Unclearing.cons (h : Unclearing stack) (hf : f.clears = false) : Unclearing (f :: stack) :=
  List.forall_mem_cons.2 ⟨hf, h⟩

theorem Unclearing.doEmit (h : Unclearing s.stack) (key : EventKey) :
    Unclearing (doEmit s.events key s).stack := by
  unfold Events.doEmit
  split
  · exact h.cons rfl
  · exact h

theorem Unclearing.tick (h : Unclearing s.stack) (hstack : s.stack = f :: rest)
    (honce : f.callsOnce s.fired = false)
    (hstep : tick false { s with stack := rest } f = some s') :
    tick true { s with stack := rest } f = some s' ∧ Unclearing s'.stack := by
  rw [hstack] at h
  obtain ⟨hf, hrest : Unclearing rest⟩ := List.forall_mem_cons.1 h
  revert hstep
  fun_cases Events.tick false { s with stack := rest } f
  all_goals rintro ⟨⟩
  · exact ⟨rfl, hrest⟩
  · next ho hfired =>
    refine ⟨?_, hrest.cons rfl⟩
    rw [Events.tick, if_pos ho, if_pos hfired]
  · next ho hfired => simp [Frame.callsOnce, ho, hfired] at honce
  · next ho =>
    refine ⟨?_, (hrest.cons rfl).cons rfl⟩
    rw [Events.tick, if_neg ho]
  · exact ⟨rfl, (hrest.cons rfl).cons rfl⟩
  · exact ⟨rfl, hrest⟩
  · exact ⟨rfl, hrest⟩
  all_goals cases hf

/-- Such a step is the same for a class that is known. -/
theorem InStep.step_eq {known : Bool} {act : Act} (h : InStep known s act)
    (hs : known = false → Unclearing s.stack) (hstep : step known s act = some s') :
    step true s act = some s' ∧ (known = false → Unclearing s'.stack) := by
  cases known with
  | true => exact ⟨hstep, nofun⟩
  | false =>
    obtain ⟨hall, honce⟩ := h.2.resolve_left nofun
    have hs := hs rfl
    suffices step true s act = some s' ∧ Unclearing s'.stack from ⟨this.1, fun _ => this.2⟩
    cases Move.of_step hstep with
    | tick hstack htick =>
      obtain ⟨htrue, hstack'⟩ := hs.tick hstack (honce _ (by rw [hstack]; rfl)) htick
      refine ⟨?_, hstack'⟩
      unfold step
      rw [hstack]
      exact htrue
    | removeAllListeners => cases hall
    | add => exact ⟨hstep, (hs.cons rfl).doEmit (s := { s with stack := _ :: s.stack }) _⟩
    | off _ key callback =>
      refine ⟨hstep, ?_⟩
      unfold removeEventListener
      split
      · exact hs
      · split_ifs
        · exact Unclearing.doEmit (s := { s with events := _, stack := _ :: s.stack })
            (hs.cons rfl) _
        · exact hs
    | emit _ key => exact ⟨hstep, hs.doEmit key⟩
    | ret hstack =>
      rw [hstack] at hs
      exact ⟨hstep, (List.forall_mem_cons.1 hs).2⟩
    | throw hstack =>
      rw [hstack] at hs
      exact ⟨hstep, fun f hf => hs f (.tail _ ((unwind_sublist _).subset hf))⟩

theorem InStep.run_eq {known : Bool} {acts : List Act} (hs : known = false → Unclearing s.stack)
    (h : RunEach (step known) (InStep known) s acts) (hrun : run (step known) s acts = some s') :
    run (step true) s acts = some s' ∧ ∀ act ∈ acts, act.Quiet := by
  induction acts generalizing s with
  | nil => exact ⟨hrun, nofun⟩
  | cons act acts ih =>
    obtain ⟨t, ht, hrun⟩ := Option.bind_eq_some_iff.1 hrun
    obtain ⟨htrue, hstack⟩ := h.1.step_eq hs ht
    obtain ⟨hrest, hquiet⟩ := ih hstack (h.2 t ht) hrun
    exact ⟨(run_cons _ htrue acts).trans hrest, List.forall_mem_cons.2 ⟨h.1.1, hquiet⟩⟩

/-- **An instance of any class**, along steps that keep it in step: a `once` listener that is called
is in no table; `removeAllListeners(event)`, where it may be called, returns and leaves no listener;
an emit that returns `true` has called a listener; and whenever the program is in control, the
reports about an event turn from one status to the other, up to the status it has. -/
theorem class_in_sync (known : Bool) (acts : List Act) (s : State)
    (hsteps : RunEach (step known) (InStep known) .initial acts)
    (h : run (step known) .initial acts = some s) :
    (∀ e item, .called e item ∈ s.log → item.once = true →
      ∀ key, item.id ∉ (table s.events key).map (·.id)) ∧
      (∀ rest key, s.stack = .js :: rest → InStep known s (.removeAllListeners (some key)) →
        ∃ n s', run (step known) s (.removeAllListeners (some key) :: replicate n .tick) = some s' ∧
          s'.stack = s.stack ∧ table s'.events key = []) ∧
      (∀ e, .finished e true ∈ s.log → ∃ item, .called e item ∈ s.log) ∧
      ∀ rest key, s.stack = .js :: rest →
        Flips false (reportsOn key s.log) (hasKey s.events key) := by
  obtain ⟨htrue, hquiet⟩ :=
    InStep.run_eq (fun _ => by simp [Unclearing, State.initial, Frame.clears])
    hsteps h
  obtain ⟨hs, hsynced⟩ := synced_of_run hquiet htrue
  have hmem : ∀ {e : ℕ} {item : EventItem}, .called e item ∈ s.log ↔ (e, item) ∈ calls s.log := by
    intro e item
    unfold calls
    rw [List.mem_filterMap]
    constructor
    · exact fun hcalled => ⟨_, hcalled, rfl⟩
    · rintro ⟨x, hx, hcall⟩
      cases x <;> cases hcall
      exact hx
  refine ⟨fun e item hcalled honce key hid => ?_, fun rest key hstack hcall => ?_,
    fun e hfinished => ?_, fun rest key hstack => ?_⟩
  · obtain ⟨x, hx, hid⟩ := mem_map.1 hid
    have hfired := hs.fits.sets _ (hmem.1 hcalled) honce
    rw [← hid] at hfired
    exact hs.fits.idle key x hx hfired
  · obtain rfl : known = true := hcall.2.resolve_right fun h => absurd h.1 Bool.noConfusion
    exact removeAllListeners_run hs hsynced hstack key
  · obtain ⟨item, hitem⟩ :=
      List.exists_mem_of_ne_nil _ ((fruitful_of_run htrue).finished e hfinished)
    exact ⟨item, hmem.2 (mem_callsOf.1 hitem)⟩
  · have hreported := hsynced.reported key
    rw [(hsynced.clear hstack fun _ _ => Frame.noConfusion).2.status, ← hasKey_eq hs.fits.proper]
      at hreported
    exact hreported

/-- A listener of a socket for `x` is called and removed. -/
def calledAndOff : List Act :=
  [.add (.string "x") 1 false false, .tick, .emit (.string "x"), .tick, .ret, .tick,
    .off (.string "x") 1, .tick]

theorem class_in_sync_socket : ∃ s, run (step false) .initial calledAndOff = some s ∧
    (∃ item, .called 1 item ∈ s.log) ∧
      Flips false (reportsOn (.string "x") s.log) (hasKey s.events (.string "x")) := by
  have hend : (run (step false) .initial calledAndOff).any
      (fun s => s.stack = [.js] ∧ .finished 1 true ∈ s.log) = true := by decide
  obtain ⟨s, hs, hend⟩ := (Option.any_eq_true _ _).1 hend
  obtain ⟨hstack, hfinished⟩ := of_decide_eq_true hend
  obtain ⟨-, -, hcalled, hreports⟩ := class_in_sync false calledAndOff s (by decide) hs
  exact ⟨s, hs, hcalled 1 hfinished, hreports [] _ hstack⟩

/-- An instance of another class, such as a socket: the `once` listener is still in the table after
it was called, the next emit returns `true` without calling anything, and `removeAllListeners`
leaves the listener; its class hears of the first listener only. -/
theorem unknown_class_out_of_sync :
    let acts := [.add (.string "x") 1 false true, .tick, .emit (.string "x"), .tick, .tick, .ret,
      .tick, .emit (.string "x"), .tick, .tick, .removeAllListeners (some (.string "x")), .tick]
    (run (step false) .initial acts).map (fun s => (s.stack, table s.events (.string "x"))) =
        some ([.js], [⟨1, 1, true⟩]) ∧
      (run (step false) .initial acts).map (fun s => (calls s.log, s.log.getLast?)) =
        some ([(1, ⟨1, 1, true⟩)], some (.finished 2 true)) ∧
      (run (step false) .initial acts).map (fun s => reportsOn (.string "x") s.log) =
        some [true] := by
  decide

end RasterRuntime.Events
