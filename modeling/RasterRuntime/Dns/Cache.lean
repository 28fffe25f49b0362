import Mathlib.Logic.Function.Basic
import RasterRuntime.Transition

/-! # The caching resolver

`call` looks a host up in the cache, waits for the semaphore of the host if what it finds is too
old, looks once more and resolves the host only if it finds nothing. The second look does not read
the age.

* `fresh_iff`: the answers are fresh in exactly the runs in which no lookup that has waited finds an
  entry that was too old when the lookup began. -/

namespace RasterRuntime.Dns

open Function (update forall_update_iff)
open Transition

variable {N A : Type}

/-- Addresses, and the time up to which they may be used. -/
structure CacheEntry (A : Type) where
  ttl : ℕ
  addrs : A

structure CacheConcurrencyGuard (A : Type) where
  semaphore : ℕ
  entry : Option (CacheEntry A)

/-- Where a lookup is: a semaphore is waited for in `waiting` and held in `resolving`, and an answer
is the addresses of an entry. -/
inductive Phase (A : Type) where
  | called
  | waiting (semaphore : ℕ)
  | resolving (semaphore : ℕ)
  | answered (entry : CacheEntry A)
  | failed

structure Lookup (N A : Type) where
  name : N
  start : ℕ
  phase : Phase A

/-- The clock, the cache, the free permits of each semaphore made so far, the lookups, and the
resolutions that succeeded with the time they finished at. -/
structure State (N A : Type) where
  now : ℕ := 0
  cache : N → Option (CacheConcurrencyGuard A) := fun _ => none
  permits : ℕ → ℕ := fun _ => 0
  semaphores : ℕ := 0
  lookups : ℕ → Option (Lookup N A) := fun _ => none
  resolved : List (N × A × ℕ) := []

def State.goto (s : State N A) (k : ℕ) (l : Lookup N A) (phase : Phase A) : State N A :=
  { s with lookups := update s.lookups k (some { l with phase := phase }) }

/-- The second look, with the semaphore held. -/
def State.lookAgain (s : State N A) (k : ℕ) (l : Lookup N A) (semaphore : ℕ) : State N A :=
  match (s.cache l.name).bind (·.entry) with
  | some item => s.goto k l (.answered item)
  | none => { s.goto k l (.resolving semaphore) with
      permits := update s.permits semaphore (s.permits semaphore - 1) }

def State.release (s : State N A) (semaphore : ℕ) : State N A :=
  { s with permits := update s.permits semaphore (s.permits semaphore + 1) }

/-- The future of a lookup is dropped, and with it the permit it holds. -/
def State.drop (s : State N A) (k : ℕ) : State N A :=
  let rest : State N A := { s with lookups := update s.lookups k none }
  match s.lookups k with
  | some ⟨_, _, .resolving semaphore⟩ => rest.release semaphore
  | _ => rest

variable [DecidableEq N]

/-- The guard of a host, made if there is none. -/
def State.getValueOrGuard (concurrency : ℕ) (s : State N A) (name : N) :
    CacheConcurrencyGuard A × State N A :=
  match s.cache name with
  | some guard => (guard, s)
  | none =>
    let guard := ⟨s.semaphores, none⟩
    (guard, { s with
      cache := update s.cache name (some guard)
      permits := update s.permits s.semaphores concurrency
      semaphores := s.semaphores + 1 })

/-- The first look at the cache. -/
def State.look (concurrency : ℕ) (s : State N A) (k : ℕ) (l : Lookup N A) : State N A :=
  let (guard, s) := s.getValueOrGuard concurrency l.name
  match guard.entry with
  | some entry =>
    s.goto k l (if entry.ttl > s.now then .answered entry else .waiting guard.semaphore)
  | none => s.goto k l (.waiting guard.semaphore)

/-- `lookup_host` is done, with addresses or an error. -/
def State.finish (ttl : ℕ) (s : State N A) (k : ℕ) (l : Lookup N A) (semaphore : ℕ) :
    Option A → State N A
  | none => (s.goto k l .failed).release semaphore
  | some addrs =>
    let entry := ⟨s.now + ttl, addrs⟩
    State.release { s.goto k l (.answered entry) with
      cache := update s.cache l.name (some ⟨semaphore, some entry⟩)
      resolved := (l.name, addrs, s.now) :: s.resolved } semaphore

/-- Time passes, a lookup begins, goes on or is dropped, or the cache gives up a host for another
one. -/
inductive Event (N A : Type) where
  | pass (duration : ℕ)
  | call (k : ℕ) (name : N)
  | look (k : ℕ)
  | acquire (k : ℕ)
  | finish (k : ℕ) (addrs : Option A)
  | drop (k : ℕ)
  | evict (name : N)

/-- One step; what a lookup cannot do where it is changes nothing. -/
def State.next (concurrency ttl : ℕ) (s : State N A) : Event N A → State N A
  | .pass duration => { s with now := s.now + duration }
  | .call k name =>
    match s.lookups k with
    | none => s.goto k ⟨name, s.now, .called⟩ .called
    | some _ => s
  | .look k =>
    match s.lookups k with
    | some ⟨name, start, .called⟩ => s.look concurrency k ⟨name, start, .called⟩
    | _ => s
  | .acquire k =>
    match s.lookups k with
    | some ⟨name, start, .waiting semaphore⟩ =>
      if 0 < s.permits semaphore then
        s.lookAgain k ⟨name, start, .waiting semaphore⟩ semaphore
      else s
    | _ => s
  | .finish k addrs =>
    match s.lookups k with
    | some ⟨name, start, .resolving semaphore⟩ =>
      s.finish ttl k ⟨name, start, .resolving semaphore⟩ semaphore addrs
    | _ => s
  | .drop k => s.drop k
  | .evict name => { s with cache := update s.cache name none }

/-! ### What is asked for -/

/-- The entry comes from a resolution of the host. -/
def Resolved (ttl : ℕ) (resolved : List (N × A × ℕ)) (name : N) (entry : CacheEntry A) : Prop :=
  ∃ t, (name, entry.addrs, t) ∈ resolved ∧ entry.ttl = t + ttl

/-- The answer comes from a resolution of the host that finished at most `ttl` before the lookup
began. -/
def Lookup.Fresh (ttl : ℕ) (resolved : List (N × A × ℕ)) (l : Lookup N A) : Prop :=
  ∀ entry, l.phase = .answered entry → Resolved ttl resolved l.name entry ∧ l.start ≤ entry.ttl

def Fresh (ttl : ℕ) (s : State N A) : Prop := ∀ k, ∀ l ∈ s.lookups k, l.Fresh ttl s.resolved

/-- What a lookup finds once it has the semaphore was not too old when it began. -/
def FoundFresh (s : State N A) : Event N A → Prop
  | .acquire k => ∀ name start semaphore guard item,
      s.lookups k = some ⟨name, start, .waiting semaphore⟩ → 0 < s.permits semaphore →
        s.cache name = some guard → guard.entry = some item → start ≤ item.ttl
  | _ => True

/-! ### One step -/

/-- Lookups began in the past, and the cache holds what was resolved. -/
structure Kept (ttl : ℕ) (s : State N A) : Prop where
  fresh : Fresh ttl s
  started : ∀ k, ∀ l ∈ s.lookups k, l.start ≤ s.now
  cached : ∀ name, ∀ guard ∈ s.cache name, ∀ entry ∈ guard.entry,
    Resolved ttl s.resolved name entry

variable {concurrency ttl : ℕ} {s : State N A} {k : ℕ} {l : Lookup N A}

omit [DecidableEq N] in
/-- A lookup is put in place of another one, or of none. -/
theorem Kept.lookup (h : Kept ttl s) {o : Option (Lookup N A)}
    (ho : ∀ l ∈ o, l.start ≤ s.now ∧ l.Fresh ttl s.resolved) :
    Kept ttl { s with lookups := update s.lookups k o } where
  fresh := (forall_update_iff _ fun _ o => ∀ l ∈ o, Lookup.Fresh ttl s.resolved l).mpr
    ⟨fun l hl => (ho l hl).2, fun j _ => h.fresh j⟩
  started := (forall_update_iff _ fun _ o => ∀ l ∈ o, Lookup.start l ≤ s.now).mpr
    ⟨fun l hl => (ho l hl).1, fun j _ => h.started j⟩
  cached := h.cached

omit [DecidableEq N] in
theorem Kept.goto (h : Kept ttl s) {phase : Phase A} (hstart : l.start ≤ s.now)
    (hphase : Lookup.Fresh ttl s.resolved { l with phase := phase }) :
    Kept ttl (s.goto k l phase) := by
  refine h.lookup fun l' hl' => ?_
  obtain rfl := Option.mem_some_iff.mp hl'
  exact ⟨hstart, hphase⟩

omit [DecidableEq N] in
theorem Kept.lookAgain (h : Kept ttl s) (hl : s.lookups k = some l) (semaphore : ℕ)
    (hfound : ∀ guard ∈ s.cache l.name, ∀ item ∈ guard.entry, l.start ≤ item.ttl) :
    Kept ttl (s.lookAgain k l semaphore) := by
  have hstart := h.started k l hl
  unfold State.lookAgain
  split
  · next item hitem =>
    obtain ⟨guard, hguard, hentry⟩ := Option.bind_eq_some_iff.mp hitem
    refine h.goto hstart ?_
    rintro entry ⟨⟩
    exact ⟨h.cached l.name guard hguard item hentry, hfound guard hguard item hentry⟩
  · have hgoto : Kept ttl (s.goto k l (.resolving semaphore)) :=
      h.goto hstart (by rintro _ ⟨⟩)
    exact { hgoto with }

omit [DecidableEq N] in
theorem Kept.drop (h : Kept ttl s) (k : ℕ) : Kept ttl (s.drop k) := by
  have hrest : Kept ttl { s with lookups := update s.lookups k none } :=
    h.lookup fun _ hl => absurd hl (Option.not_mem_none _)
  unfold State.drop
  split
  · exact { hrest with }
  · exact hrest

theorem Kept.cache (h : Kept ttl s) {name : N} {o : Option (CacheConcurrencyGuard A)}
    (ho : ∀ guard ∈ o, ∀ entry ∈ guard.entry, Resolved ttl s.resolved name entry) :
    Kept ttl { s with cache := update s.cache name o } where
  fresh := h.fresh
  started := h.started
  cached := (forall_update_iff _ fun n o =>
    ∀ g ∈ o, ∀ entry ∈ CacheConcurrencyGuard.entry g, Resolved ttl s.resolved n entry).mpr
      ⟨ho, fun n _ => h.cached n⟩

theorem Kept.look (h : Kept ttl s) (hl : s.lookups k = some l) :
    Kept ttl (s.look concurrency k l) := by
  have hstart := h.started k l hl
  unfold State.look State.getValueOrGuard
  rcases hg : s.cache l.name with _ | ⟨semaphore, _ | entry⟩
  · have hnew : Kept ttl { s with cache := update s.cache l.name (some ⟨s.semaphores, none⟩) } :=
      h.cache (by simp)
    exact { hnew.goto hstart (by rintro _ ⟨⟩) with }
  · exact h.goto hstart (by rintro _ ⟨⟩)
  · refine h.goto hstart fun found hfound => ?_
    dsimp only at hfound
    split_ifs at hfound with hnow
    cases hfound
    exact ⟨h.cached l.name _ hg entry rfl, Nat.le_trans hstart (Nat.le_of_lt hnow)⟩

theorem Kept.finish (h : Kept ttl s) (hl : s.lookups k = some l) (semaphore : ℕ) (r : Option A) :
    Kept ttl (s.finish ttl k l semaphore r) := by
  have hstart := h.started k l hl
  rcases r with _ | addrs
  · have hgoto : Kept ttl (s.goto k l .failed) := h.goto hstart (by rintro _ ⟨⟩)
    exact { hgoto with }
  · have hmore : ∀ {name entry}, Resolved ttl s.resolved name entry →
        Resolved ttl ((l.name, addrs, s.now) :: s.resolved) name entry :=
      fun ⟨t, ht, hentry⟩ => ⟨t, .tail _ ht, hentry⟩
    have hnew : Kept ttl { s with resolved := (l.name, addrs, s.now) :: s.resolved } :=
      ⟨fun j m hm entry he => ⟨hmore (h.fresh j m hm entry he).1, (h.fresh j m hm entry he).2⟩,
        h.started, fun n g hg entry he => hmore (h.cached n g hg entry he)⟩
    have hsource :
        Resolved ttl ((l.name, addrs, s.now) :: s.resolved) l.name ⟨s.now + ttl, addrs⟩ :=
      ⟨s.now, .head _, rfl⟩
    have hcache := hnew.cache (o := some ⟨semaphore, some ⟨s.now + ttl, addrs⟩⟩)
      (by simpa using hsource)
    have hanswer : Lookup.Fresh ttl ((l.name, addrs, s.now) :: s.resolved)
        { l with phase := .answered ⟨s.now + ttl, addrs⟩ } := by
      rintro entry ⟨⟩
      exact ⟨hsource, Nat.le_add_right_of_le hstart⟩
    exact { hcache.goto hstart hanswer with }

theorem Kept.next (h : Kept ttl s) {e : Event N A} (he : FoundFresh s e) :
    Kept ttl (s.next concurrency ttl e) := by
  fun_cases State.next concurrency ttl s e with
  | case1 duration =>
    exact { h with started := fun k l hl => Nat.le_add_right_of_le (h.started k l hl) }
  | case2 k name => exact h.goto (Nat.le_refl _) (by rintro _ ⟨⟩)
  | case4 k name start hl => exact h.look hl
  | case6 k name start semaphore hl hfree =>
    exact h.lookAgain hl semaphore fun guard hguard item hitem =>
      he _ _ _ _ _ hl hfree hguard hitem
  | case9 k addrs name start semaphore hl => exact h.finish hl semaphore addrs
  | case11 k => exact h.drop k
  | case12 name => exact h.cache (by simp)
  | case3 | case5 | case7 | case8 | case10 => exact h

/-- An entry that was too old when the lookup began is its answer all the same. -/
theorem not_fresh_next {e : Event N A} (he : ¬ FoundFresh s e) :
    ¬ Fresh ttl (s.next concurrency ttl e) := by
  cases e with
  | acquire k =>
    intro hfresh
    refine he fun name start semaphore guard item hl hfree hguard hitem => ?_
    have hnext : (s.next concurrency ttl (.acquire k)).lookups k =
        some ⟨name, start, .answered item⟩ := by
      simp [State.next, hl, hfree, State.lookAgain, hguard, hitem, State.goto]
    exact (hfresh k _ hnext item rfl).2
  | _ => exact absurd trivial he

/-- **Fresh answers**: along a run every answer comes from a resolution of the host that finished at
most `ttl` before the lookup began or during it, exactly if each lookup that gets the semaphore
finds an entry that was usable when the lookup began, or none. -/
theorem fresh_iff (concurrency ttl : ℕ) (es : List (Event N A)) :
    Throughout (State.next concurrency ttl) (Fresh ttl) {} es ↔
      Each (State.next concurrency ttl) FoundFresh {} es :=
  throughout_iff_each (I := Kept ttl) (fun _ h => h.fresh) (fun _ _ h => h.next)
    (fun _ _ _ => not_fresh_next) es ⟨nofun, nofun, nofun⟩

/-- With the options of `new`, addresses resolved at time 0 are the answer to a lookup at time
1000. -/
theorem stale_answer : ¬ Throughout (State.next 2 300) (Fresh 300) ({} : State Unit ℕ)
    [.call 0 (), .look 0, .acquire 0, .finish 0 (some 7), .pass 1000, .call 1 (), .look 1,
      .acquire 1] := by
  intro ⟨_, _, _, _, _, _, _, _, h⟩
  have hstart : 1000 ≤ 300 := (h 1 ⟨(), 1000, .answered ⟨300, 7⟩⟩ rfl _ rfl).2
  omega

end RasterRuntime.Dns
