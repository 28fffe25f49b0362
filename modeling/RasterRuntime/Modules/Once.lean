import RasterRuntime.Modules.Registry
import RasterRuntime.Modules.Tables

/-! # Bodies run once

The tables and the stack of the loader agree with the phases of the log (`Simulates`), and every
action keeps that: the loader refines the registry. -/

namespace RasterRuntime.Modules

open Loader

/-! ### Tables, stack and phases -/

/-- The load of a module that is under way. -/
def frameOf (stack : List Frame) (n : Text) : Option Frame := stack.find? (·.name = n)

theorem frameOf_cons_self (f : Frame) (stack : List Frame) : frameOf (f :: stack) f.name = some f :=
  List.find?_cons_of_pos (by simp)

variable {n : Text}

theorem frameOf_cons_of_ne {f : Frame} (h : n ≠ f.name) (stack : List Frame) :
    frameOf (f :: stack) n = frameOf stack n :=
  List.find?_cons_of_neg (by simpa using h.symm)

theorem frameOf_eq_none {stack : List Frame} :
    frameOf stack n = none ↔ n ∉ stack.map Frame.name := by
  rw [frameOf, List.find?_eq_none]
  constructor
  · intro h hn
    obtain ⟨f, hf, rfl⟩ := List.mem_map.mp hn
    exact h f hf (by simp)
  · intro h f hf hn
    exact h (of_decide_eq_true hn ▸ List.mem_map_of_mem hf)

/-- The tables and the load of a module fit its phase. -/
def Tied (v : View) (f : Option Frame) : Phase → Prop
  | .idle => v.Idle ∧ f = none
  | .loading r => ∃ e p g, v = ⟨some (r, false, e), none, some p⟩ ∧ f = some g ∧ g.record = r ∧
      (g.viaImport = false ∧ g.guard = none ∧ p = .record r ∨ g.viaImport = true ∧ g.guard ≠ none)
  | .running r e => ∃ g, v = ⟨some (r, false, e), none, some (.record r)⟩ ∧ f = some g ∧
      g.record = r ∧ g.viaImport = false ∧ g.guard ≠ none
  | .done r e => ∃ w, v = ⟨some (r, true, e), w, none⟩ ∧ f = none

structure Simulates (s : Loader) (stack : List Frame) (log : List Event) : Prop where
  wellFormed : s.WellFormed
  names : (stack.map Frame.name).Nodup
  lawful : Lawful log
  tied : ∀ n, Tied (s.view n) (frameOf stack n) (phase n log)

theorem simulates_initial : Simulates .empty [] [] where
  wellFormed := wellFormed_empty
  names := List.nodup_nil
  lawful := lawful_nil
  tied := fun _ => ⟨⟨(nofun), rfl, rfl⟩, rfl⟩

theorem Phase.next_of_ne {n' : Text} {e : Event} (he : e.name = some n) (hn : n' ≠ n) (p : Phase) :
    p.next n' e = p := by
  cases e with
  | assigned r v => cases he
  | returned n₁ v => rfl
  | loading | started | finished | threw =>
    cases he
    exact if_neg hn.symm

section Simulates

variable {s : Loader} {stack : List Frame} {log : List Event}
  {v : View} {f : Option Frame} {p : Phase} {s' : Loader} {r : Ref} {e : Value} {m : Machine}

theorem Loader.Changes.refl (h : s.WellFormed) (n : Text) : Changes s s n (s.view n) :=
  ⟨h, rfl, fun _ _ => rfl⟩

/-- The current module is not part of a view. -/
theorem Loader.Changes.current (h : s.WellFormed) (n : Text) (c : Option Ref) :
    Changes s { s with current := c } n (s.view n) :=
  ⟨⟨h.bounded, h.distinct⟩, rfl, fun _ _ => rfl⟩

theorem Tied.cached (h : Tied v f p) (hc : v.cached = none) : p = .idle := by
  cases p with
  | idle => rfl
  | loading r =>
    obtain ⟨e, p, g, rfl, -⟩ := h
    cases hc
  | running r e =>
    obtain ⟨g, rfl, -⟩ := h
    cases hc
  | done r e =>
    obtain ⟨w, rfl, -⟩ := h
    cases hc

theorem Tied.assign_of_ne (h : Tied v f p) (hr : ∀ b e, v.cached ≠ some (r, b, e)) (w : Value) :
    p.assign r w = p := by
  cases p with
  | idle | loading => rfl
  | running r' e =>
    obtain ⟨g, rfl, -⟩ := h
    rw [Phase.assign, if_neg (by rintro rfl; exact hr _ _ rfl)]
  | done r' e =>
    obtain ⟨w', rfl, -⟩ := h
    rw [Phase.assign, if_neg (by rintro rfl; exact hr _ _ rfl)]

theorem Tied.assign_of_eq {b : Bool} (h : Tied v f p) (hc : v.cached = some (r, b, e)) (w : Value) :
    Tied ⟨some (r, b, w), v.value, v.progress⟩ f (p.assign r w) := by
  cases p with
  | idle =>
    obtain ⟨hidle, hf⟩ := h
    refine ⟨⟨?_, hidle.value, hidle.progress⟩, hf⟩
    rintro _ _ _ heq
    cases heq
    exact hidle.cached hc
  | loading r' =>
    obtain ⟨e', p, g, rfl, hg⟩ := h
    cases hc
    exact ⟨w, p, g, rfl, hg⟩
  | running r' e' =>
    obtain ⟨g, rfl, hg⟩ := h
    cases hc
    rw [Phase.assign, if_pos rfl]
    exact ⟨g, rfl, hg⟩
  | done r' e' =>
    obtain ⟨w', rfl, hf⟩ := h
    cases hc
    rw [Phase.assign, if_pos rfl]
    exact ⟨w', rfl, hf⟩

section

variable (h : Simulates s stack log)

include h

theorem Simulates.event (hc : Changes s s' n v) {stack' : List Frame}
    (hnames : (stack'.map Frame.name).Nodup)
    (hstack : ∀ n' ≠ n, frameOf stack' n' = frameOf stack n') {e : Event} (he : e.name = some n)
    (hallow : (phase n log).Allows e) (htied : Tied v (frameOf stack' n) ((phase n log).next n e)) :
    Simulates s' stack' (log ++ [e]) where
  wellFormed := hc.wellFormed
  names := hnames
  lawful := h.lawful.concat fun n' hn' => by
    cases he.symm.trans hn'
    exact hallow
  tied := by
    intro n'
    rw [phase_concat]
    by_cases hn : n' = n
    · rw [hn, hc.self]
      exact htied
    · rw [hc.others n' hn, hstack n' hn, Phase.next_of_ne he hn]
      exact h.tied n'

theorem Simulates.current (c : Option Ref) : Simulates { s with current := c } stack log :=
  ⟨⟨h.wellFormed.bounded, h.wellFormed.distinct⟩, h.names, h.lawful, h.tied⟩

/-! ### Records -/

theorem Simulates.getOrCreate (W : World) (n : Text) (parent : Option Ref) :
    Simulates (s.getOrCreate W n parent).2 stack log := by
  obtain ⟨hwf, -, hothers, hidle, hsame⟩ := getOrCreate_spec (n := n) W parent h.wellFormed
  by_cases hc : s.cache n = none
  · refine ⟨hwf, h.names, h.lawful, fun n' => ?_⟩
    by_cases hn : n' = n
    · have hp : phase n log = .idle := (h.tied n).cached (by rw [view, hc]; rfl)
      have htied := h.tied n
      rw [hp] at htied
      rw [hn, hp]
      exact ⟨hidle htied.1, htied.2⟩
    · rw [hothers n' hn]
      exact h.tied n'
  · rw [hsame hc]
    exact h

theorem Simulates.construct (W : World) (id : Text) (parent : Option Ref) :
    Simulates (s.construct W id parent) stack log := by
  refine ⟨h.wellFormed.construct W id parent, h.names, h.lawful, fun n => ?_⟩
  rw [view_construct W id parent h.wellFormed]
  exact h.tied n

/-! ### Assignments -/

theorem Simulates.assigned (r : Ref) (w : Value) :
    Simulates (s.setExports r w) stack (log ++ [.assigned r w]) where
  wellFormed := h.wellFormed.modify r _
  names := h.names
  lawful := h.lawful.concat nofun
  tied := by
    intro n
    rw [phase_concat]
    by_cases hc : s.cache n = some r
    · rw [(changes_setExports h.wellFormed hc w).self]
      exact (h.tied n).assign_of_eq (view_cached hc) w
    · rw [show (s.setExports r w).view n = s.view n from view_modify_of_ne r _ hc]
      have hne : (phase n log).assign r w = phase n log :=
        (h.tied n).assign_of_ne (fun b e hcached => hc (cache_of_view hcached).1) w
      rw [Phase.next, hne]
      exact h.tied n

/-! ### Calls of `require` -/

theorem Simulates.known (n : Text) : (phase n log = .idle ∧ s.known n = (none, s)) ∨
      ∃ v, s.known n = (some v, s) ∧ (phase n log).Allows (.returned n v) := by
  have htied := h.tied n
  generalize phase n log = q at htied
  cases q with
  | idle => exact .inl ⟨rfl, known_idle htied.1⟩
  | loading r =>
    obtain ⟨e, p, g, hv, -⟩ := htied
    have hprogress : s.progress n = some p := congrArg View.progress hv
    obtain ⟨v, hv'⟩ : ∃ v, s.inProgress n = some v := by
      rw [inProgress, hprogress]
      exact ⟨_, rfl⟩
    exact .inr ⟨v, hv' ▸ known_progress hv, .inl ⟨r, rfl⟩⟩
  | running r e =>
    obtain ⟨g, hv, -⟩ := htied
    exact .inr ⟨e, inProgress_record hv ▸ known_progress hv, .inr (.inl ⟨r, rfl⟩)⟩
  | done r e =>
    obtain ⟨w, hv, -⟩ := htied
    exact .inr ⟨e, known_done (congrArg View.cached hv), .inr (.inr ⟨r, rfl⟩)⟩

theorem Simulates.returned {v : Value}
    (ha : (phase n log).Allows (.returned n v)) : Simulates s stack (log ++ [.returned n v]) :=
  h.event (Changes.refl h.wellFormed n) h.names (fun _ _ => rfl) rfl ha (h.tied n)

end

/-- The load of an idle module begins, with its record found or made. -/
structure Begins (W : World) (s : Loader) (parent : Option Ref) (f : Frame)
    (s' : Loader) : Prop where
  idle : (s.view f.name).Idle
  record : (s.getOrCreate W f.name parent).1 = f.record
  enters :
    f.guard = some s.current ∧
        s' = (s.getOrCreate W f.name parent).2.enterImport f.name f.record ∨
      f.guard = none ∧
        s' = { (s.getOrCreate W f.name parent).2.setLoaded f.record false with
               progress := Function.update (s.getOrCreate W f.name parent).2.progress f.name
                 (some (.record f.record)) }

variable {W : World} {time : ℕ} {parent : Option Ref} {f : Frame}

/-- The module has its record and is being loaded; the other modules stay as they were. -/
theorem Begins.changes (h : Begins W s parent f s') (hs : s.WellFormed) :
    ∃ e p, Changes s s' f.name ⟨some (f.record, false, e), none, some p⟩ ∧
      (f.guard = none → p = .record f.record) := by
  obtain ⟨hwf, hcache, hothers, hmade, -⟩ := getOrCreate_spec (n := f.name) W parent hs
  obtain ⟨hidle, hrecord, hs'⟩ := h
  rw [hrecord] at hcache
  have hvalue : (s.getOrCreate W f.name parent).2.values f.name = none := (hmade hidle).value
  have hafter {t : Loader} {v : View} (hc : Changes (s.getOrCreate W f.name parent).2 t f.name v) :
      Changes s t f.name v :=
    ⟨hc.wellFormed, hc.self, fun n hn => (hc.others n hn).trans (hothers n hn)⟩
  rcases hs' with ⟨hguard, rfl⟩ | ⟨-, rfl⟩
  · exact ⟨_, _, hvalue ▸ hafter (changes_enterImport hwf hcache),
      fun hn => by cases hguard.symm.trans hn⟩
  · exact ⟨_, _, hvalue ▸ hafter (changes_enterExtensions hwf hcache), fun _ => rfl⟩

section

variable (h : Simulates s stack log)

include h

theorem Simulates.begins (hb : Begins W s parent f s') (hp : phase f.name log = .idle)
    (hvia : f.viaImport = f.guard.isSome) :
    Simulates s' (f :: stack) (log ++ [.loading f.name f.record]) := by
  obtain ⟨e, p, hc, hrecord⟩ := hb.changes h.wellFormed
  have htied := h.tied f.name
  rw [hp] at htied
  refine h.event hc ?_ (fun n hn => frameOf_cons_of_ne hn stack) rfl hp ?_
  · exact List.nodup_cons.mpr ⟨frameOf_eq_none.mp htied.2, h.names⟩
  · rw [Phase.next, if_pos rfl, frameOf_cons_self]
    refine ⟨e, p, f, rfl, rfl, rfl, ?_⟩
    rw [hvia]
    cases hg : f.guard with
    | none => exact .inl ⟨rfl, rfl, hrecord hg⟩
    | some g => exact .inr ⟨rfl, Option.some_ne_none g⟩

theorem Simulates.loadModule_cases {i : Import} (hp : phase i.name log = .idle)
    (parent : Option Ref) :
    ∃ f s', loadModule W s i parent = (.loading f, s') ∧ Begins W s parent f s' ∧
      phase f.name log = .idle ∧ f.viaImport = f.guard.isSome := by
  have hidle : (s.view i.name).Idle := by
    have htied := h.tied i.name
    rw [hp] at htied
    exact htied.1
  obtain ⟨-, hcache, -, hmade, -⟩ := getOrCreate_spec (n := i.name) W parent h.wellFormed
  unfold loadModule
  dsimp only
  cases i.viaImport with
  | true =>
    exact ⟨_, _, rfl,
      ⟨hidle, rfl, .inl ⟨congrArg some (current_getOrCreate W parent i.name), rfl⟩⟩, hp,
      rfl⟩
  | false =>
    rw [if_neg Bool.false_ne_true, enterExtensions_idle hcache (hmade hidle)]
    exact ⟨_, _, rfl, ⟨hidle, rfl, .inr ⟨rfl, rfl⟩⟩, hp, rfl⟩

/-- A call of `require` fails or returns at once and changes nothing, or it begins to load a
module. -/
theorem Simulates.require_cases (W : World) (time : ℕ) (parent : Ref) (specifier : Text)
    (link : Bool) :
    (∃ e, requireFromModule W time s parent specifier link = (.failed e, s)) ∨
      (∃ n v, requireFromModule W time s parent specifier link = (.returned n v, s) ∧
        (phase n log).Allows (.returned n v)) ∨
      ∃ f s', requireFromModule W time s parent specifier link = (.loading f, s') ∧
        Begins W s (if link then some parent else none) f s' ∧ phase f.name log = .idle ∧
          f.viaImport = f.guard.isSome := by
  unfold requireFromModule
  cases importOf W time specifier (s.filenameOf parent) with
  | error e => exact .inl ⟨e, rfl⟩
  | ok i =>
    dsimp only
    rcases h.known i.name with ⟨hp, hknown⟩ | ⟨v, hknown, hallow⟩
    · rw [hknown]
      exact .inr (.inr (h.loadModule_cases hp _))
    · rw [hknown]
      exact .inr (.inl ⟨i.name, v, rfl, hallow⟩)

end

/-- The tables and the stack of a machine fit its log. -/
def Machine.Simulating (m : Machine) : Prop := Simulates m.loader m.stack m.log

theorem Simulates.require (h : Simulates s m.stack m.log) (parent : Ref) (specifier : Text)
    (link : Bool) : (m.entered (requireFromModule W time s parent specifier link)).Simulating := by
  rcases h.require_cases W time parent specifier link with
    ⟨e, he⟩ | ⟨n, v, hr, hallow⟩ | ⟨f, s', hl, hb, hp, hvia⟩
  · rw [he, Machine.entered, Machine.note, List.append_nil]
    exact h
  · rw [hr]
    exact h.returned hallow
  · rw [hl]
    exact h.begins hb hp hvia

/-! ### The end of loads -/

section Top

variable {f : Frame} {rest : List Frame}

theorem Simulates.of_frame (h : Simulates s stack log) (hf : frameOf stack f.name = some f) :
    ∃ e p, s.view f.name = ⟨some (f.record, false, e), none, some p⟩ ∧
    (phase f.name log = .loading f.record ∧
        (f.viaImport = false ∧ f.guard = none ∧ p = .record f.record ∨
          f.viaImport ∧ f.guard ≠ none) ∨
      phase f.name log = .running f.record e ∧ f.viaImport = false ∧ f.guard ≠ none) := by
  have htied := h.tied f.name
  rw [hf] at htied
  generalize phase f.name log = q at htied
  cases q with
  | idle => cases htied.2
  | loading r =>
    obtain ⟨e, p, _, hv, ⟨⟩, rfl, hkind⟩ := htied
    exact ⟨e, p, hv, .inl ⟨rfl, hkind⟩⟩
  | running r e =>
    obtain ⟨_, hv, ⟨⟩, rfl, hkind⟩ := htied
    exact ⟨e, _, hv, .inr ⟨rfl, hkind⟩⟩
  | done r e => obtain ⟨_, -, ⟨⟩⟩ := htied

variable (h : Simulates s (f :: rest) log)

include h

theorem Simulates.below : (rest.map Frame.name).Nodup ∧ frameOf rest f.name = none ∧
    ∀ n ≠ f.name, frameOf rest n = frameOf (f :: rest) n := by
  obtain ⟨hf, hrest⟩ := List.nodup_cons.mp h.names
  exact ⟨hrest, frameOf_eq_none.mpr hf, fun n hn => (frameOf_cons_of_ne hn rest).symm⟩

theorem Simulates.started (hguard : f.guard = none) (guard : Option Ref) (c : Option Ref) :
    Simulates { s with current := c } ({ f with guard := some guard } :: rest)
      (log ++ [.started f.name f.record (s.exportsOf f.record)]) := by
  obtain ⟨e, p, hv, ⟨hp, hkind⟩ | ⟨-, -, hne⟩⟩ := h.of_frame (frameOf_cons_self f rest)
  · obtain ⟨hvia, -, rfl⟩ : f.viaImport = false ∧ f.guard = none ∧ p = .record f.record :=
      hkind.resolve_right fun hk => hk.2 hguard
    obtain ⟨-, -, rfl⟩ := cache_of_view (congrArg View.cached hv)
    have hc := Changes.current h.wellFormed f.name c
    rw [hv] at hc
    refine h.event hc ?_ (fun n hn => ?_) rfl hp ?_
    · exact h.names
    · rw [frameOf_cons_of_ne hn, frameOf_cons_of_ne (f := { f with guard := some guard }) hn]
    · rw [Phase.next, if_pos rfl]
      exact ⟨_, rfl, frameOf_cons_self { f with guard := some guard } rest, rfl, hvia,
        Option.some_ne_none _⟩
  · exact absurd hguard hne

theorem Simulates.finished (c : Option Ref) :
    Simulates (({ s with current := c } : Loader).complete f.name f.record) rest
      (log ++ [.finished f.name f.record (s.exportsOf f.record)]) := by
  obtain ⟨e, p, hv, hphase⟩ := h.of_frame (frameOf_cons_self f rest)
  obtain ⟨hcache, -, rfl⟩ := cache_of_view (congrArg View.cached hv)
  obtain ⟨hnames, hnone, hothers⟩ := h.below
  have hcurrent := h.current c
  refine hcurrent.event (changes_complete hcurrent.wellFormed hcache) hnames hothers rfl ?_ ?_
  · rcases hphase with ⟨hp, -⟩ | ⟨hp, -⟩
    · exact .inr hp
    · exact .inl hp
  · rw [Phase.next, if_pos rfl]
    exact ⟨_, rfl, hnone⟩

theorem Simulates.threw (c : Option Ref) :
    Simulates (({ s with current := c } : Loader).rollback f.name) rest
      (log ++ [.threw f.name f.record]) := by
  obtain ⟨e, p, hv, hphase⟩ := h.of_frame (frameOf_cons_self f rest)
  obtain ⟨hnames, hnone, hothers⟩ := h.below
  have hcurrent := h.current c
  refine hcurrent.event (changes_rollback hcurrent.wellFormed) hnames hothers rfl ?_ ?_
  · rcases hphase with ⟨hp, -⟩ | ⟨hp, -⟩
    · exact .inl hp
    · exact .inr ⟨_, hp⟩
  · rw [Phase.next, if_pos rfl]
    exact ⟨⟨(nofun), rfl, rfl⟩, hnone⟩

end Top

theorem dropGuard_eq (s : Loader) (f : Frame) :
    s.dropGuard f = { s with current := (s.dropGuard f).current } := by
  unfold Loader.dropGuard
  cases f.guard <;> rfl

section Step

variable {m' : Machine} {f : Frame} {rest : List Frame}

theorem Simulates.endLoad {guard : Option (Option Ref)} {events : List Event}
    (h : Simulates s ({ f with guard := guard } :: rest) (m.log ++ events)) :
    (m.endLoad s f rest events).Simulating := by
  have hend := h.finished (s.dropGuard f).current
  rw [List.append_assoc] at hend
  rw [Machine.endLoad, dropGuard_eq]
  exact hend

theorem Machine.Simulating.failLoad (h : m.Simulating) (hstack : m.stack = f :: rest) :
    (m.failLoad f rest).Simulating := by
  have h : Simulates m.loader (f :: rest) m.log := hstack ▸ h
  rw [Machine.failLoad, dropGuard_eq]
  exact h.threw _

variable {a : Action}

theorem Machine.Simulating.readStep (h : m.Simulating) (hstack : m.stack = f :: rest)
    (hguard : f.guard = none) (hstep : readStep m f rest a = some m') :
    m'.Simulating := by
  have htop : Simulates m.loader (f :: rest) m.log := hstack ▸ h
  rcases readStep_cases hstep with ⟨-, rfl⟩ | ⟨v, -, rfl⟩ | ⟨-, rfl⟩
  · exact htop.started hguard m.loader.current (some f.record)
  · have hrun := (htop.started hguard none m.loader.current).assigned f.record v
    rw [List.append_assoc] at hrun
    exact hrun.endLoad
  · exact h.failLoad hstack

theorem Machine.Simulating.otherStep (h : m.Simulating) (hstep : otherStep W m a = some m') :
    m'.Simulating := by
  obtain ⟨s, rfl, hs⟩ | ⟨r, v, rfl⟩ | ⟨f, rest, hstack, hend⟩ := otherStep_cases hstep
  · rw [Machine.Simulating, Machine.note, List.append_nil]
    rcases hs with rfl | ⟨n, rfl⟩ | ⟨id, parent, rfl⟩
    · exact h
    · exact Simulates.getOrCreate h W n none
    · exact Simulates.construct h W id parent
  · exact Simulates.assigned h r v
  · have htop : Simulates m.loader (f :: rest) m.log := hstack ▸ h
    rcases hend with ⟨v, -, -, rfl⟩ | ⟨v, -, -, rfl⟩ | ⟨-, rfl⟩
    · exact (htop.assigned f.record v).endLoad
    · exact Simulates.endLoad (by rwa [List.append_nil])
    · exact h.failLoad hstack

/-- **Every action keeps the tables in line with the log.** -/
theorem Machine.Simulating.step (h : m.Simulating) (hstep : step W m a = some m') :
    m'.Simulating := by
  obtain ⟨f, rest, hstack, hguard, hread⟩
      | ⟨-, ⟨parent, link, s, specifier, hcaller, rfl⟩ | ⟨-, hother⟩⟩ :=
    step_cases hstep
  · exact h.readStep hstack hguard hread
  · have hs : Simulates s m.stack m.log := by
      rcases callerOf_loader hcaller with rfl | ⟨n, rfl⟩
      · exact h
      · exact Simulates.getOrCreate h W n none
    exact hs.require parent specifier link
  · exact h.otherStep hother

end Step

theorem simulating_of_run {acts : List Action}
    (h : Transition.run (step W) .initial acts = some m) : m.Simulating :=
  Transition.run_invariant (step W) (fun _ _ _ hm hstep => Machine.Simulating.step hm hstep)
    (show Machine.initial.Simulating from simulates_initial) h

end Simulates

/-- **The requires of every run do what they are for**, if each file has one name. -/
theorem requires_conform (W : World) (acts : List Action) (m : Machine)
    (hrun : Transition.run (step W) .initial acts = some m) {F : Type} (file : Text → F)
    (hone : OneName file m.log) : Conforms file m.log :=
  (simulating_of_run hrun).lawful.conforms hone

/-- Two files `/a.js` and `/b.js`, required by their names. -/
def twoFiles : World where
  names := ⟨[], [], []⟩
  resolvePath := id
  requireResolve _ request _ :=
    if request = "/a.js".toList ∨ request = "/b.js".toList then some request else none

/-- A script requires `/a.js`, which requires `/b.js` twice: the first time it throws, the second
time it requires `/a.js`, whose body runs. The script then requires `/b.js`. -/
def nestedRequires : List Action :=
  [.globalRequire "/main.js".toList "/a.js".toList, .begin, .moduleRequire 1 "/b.js".toList, .begin,
    .throw, .moduleRequire 1 "/b.js".toList, .begin, .moduleRequire 3 "/a.js".toList,
    .finish .undefined, .finish .undefined, .globalRequire "/main.js".toList "/b.js".toList]

def nestedLog : List Event :=
  [.loading "/a.js".toList 1, .started "/a.js".toList 1 (.object 1), .loading "/b.js".toList 2,
    .started "/b.js".toList 2 (.object 2), .threw "/b.js".toList 2, .loading "/b.js".toList 3,
    .started "/b.js".toList 3 (.object 3), .returned "/a.js".toList (.object 1),
    .finished "/b.js".toList 3 (.object 3), .finished "/a.js".toList 1 (.object 1),
    .returned "/b.js".toList (.object 3)]

theorem requires_conform_nested : ∃ m,
    Transition.run (step twoFiles) .initial nestedRequires = some m ∧ m.log = nestedLog ∧
      Conforms Path.normalize m.log := by
  have hlog : (Transition.run (step twoFiles) .initial nestedRequires).map (·.log) =
      some nestedLog := by decide
  obtain ⟨m, hm, hlog⟩ := Option.map_eq_some_iff.mp hlog
  have hfixed : ∀ e ∈ nestedLog, ∀ n ∈ e.name, Path.normalize n = n := by decide
  refine ⟨m, hm, hlog, requires_conform _ _ m hm Path.normalize ?_⟩
  intro e he e' he' n n' hn hn' hsame
  rwa [hfixed e (hlog ▸ he) n hn, hfixed e' (hlog ▸ he') n' hn'] at hsame

/-! ### A file with two names -/

/-- A package `/app/node_modules/pkg` whose directory `sub` has a `package.json` with the main file
`./index.js`. -/
def nestedPackage : World :=
  World.ofFiles ⟨[], [], []⟩
    { json := fun bytes =>
        some (.object (if bytes = [1] then [("main".toList, .string "./index.js".toList)] else []))
      home := []
      platform := "browser".toList
      cache := NodeModules.Table.empty }
    { fs :=
        { isFile := fun p => Path.normalize p ∈
            ["/app/node_modules/pkg/package.json".toList,
              "/app/node_modules/pkg/sub/package.json".toList,
              "/app/node_modules/pkg/sub/index.js".toList]
          isDir := fun p => Path.normalize p ∈
            ["/app".toList, "/app/node_modules".toList, "/app/node_modules/pkg".toList,
              "/app/node_modules/pkg/sub".toList]
          readLink := fun _ => none
          read := fun p =>
            .ok (if Path.normalize p = "/app/node_modules/pkg/sub/package.json".toList
              then [1] else []) }
      parseJson := fun bytes =>
        some (.object .absent (if bytes = [1] then .string "./index.js".toList else .absent))
      registered := .ok defaultExtensions
      hooked := none
      isEsm := false }
    ⟨["app".toList], by decide⟩

/-- The main file of the directory is loaded as `sub/./index.js`, and again by its own name. -/
theorem nested_package_runs_twice : ∃ m,
    Transition.run (step nestedPackage) .initial
        [.globalRequire "/app/main.js".toList "pkg/sub".toList, .begin, .finish .undefined,
          .globalRequire "/app/main.js".toList "pkg/sub/index.js".toList, .begin] = some m ∧
      ¬ Conforms Path.normalize m.log := by
  refine ((Option.map_eq_some_iff (f := Machine.log)
    (b := [.loading "/app/node_modules/pkg/sub/./index.js".toList 1,
      .started "/app/node_modules/pkg/sub/./index.js".toList 1 (.object 1),
      .finished "/app/node_modules/pkg/sub/./index.js".toList 1 (.object 1),
      .loading "/app/node_modules/pkg/sub/index.js".toList 2,
      .started "/app/node_modules/pkg/sub/index.js".toList 2 (.object 2)])).mp
    (by decide +kernel)).imp fun m ⟨hm, hlog⟩ => ⟨hm, fun h => ?_⟩
  obtain ⟨r, hr⟩ := h.once [.loading _ 1] _ 1 (.object 1)
    [.finished "/app/node_modules/pkg/sub/./index.js".toList 1 (.object 1),
      .loading "/app/node_modules/pkg/sub/index.js".toList 2]
    _ 2 (.object 2) [] hlog (by decide)
  simp at hr

end RasterRuntime.Modules
