import RasterRuntime.Text.Utf16
import RasterRuntime.Transition

/-! # The entry list of FormData

The entries stand in a vector behind a mutex. Each method takes the lock for its own duration;
`for_each` keeps it while its callbacks run, so that a call on the same object from inside a
callback waits for ever. The standard's object is an entry list without a lock. Beside it, `get`
finds the last entry of a name and not the first, and `set` removes the entries of the name before
it looks at the value and puts the new one at the end.

`run_iff` is the exact condition under which a run of calls gives the standard's answers and
list. -/

namespace RasterRuntime.FormData

open Text (Utf16.fromUtf16)
open Transition

variable {F B : Type}

/-- A value of the engine, as the methods tell them apart. -/
inductive Arg (F B : Type) where
  | file (f : F)
  | blob (b : B)
  | string (s : List UInt16)
  | other
deriving DecidableEq

inductive FormValue (F B : Type) where
  | text (s : List Char)
  | file (f : F)
  | blob (b : B)
deriving DecidableEq

/-- Why a call throws: an argument is no Rust string, the value is refused, or the callback
threw. -/
inductive Thrown where
  | argument
  | utf8
  | type (message : String)
  | callback
deriving DecidableEq

abbrev Entry (F B : Type) := List Char × FormValue F B

/-- The conversion of an argument to `String`. -/
def Arg.toName : Arg F B → Option (List Char)
  | .string s => Utf16.fromUtf16 s
  | _ => none

/-- What `append` and `set` make of their value. -/
def Arg.toFormValue : Arg F B → Except Thrown (FormValue F B)
  | .file f => .ok (.file f)
  | .blob b => .ok (.blob b)
  | .string s =>
    match Utf16.fromUtf16 s with
    | some cs => .ok (.text cs)
    | none => .error .utf8
  | .other => .error (.type "Invalid FormData value type")

/-- The methods with a name. -/
inductive Method (F B : Type) where
  | append (value : Arg F B)
  | set (value : Arg F B)
  | delete
  | get
  | getAll

/-- What a call, or the return of a callback, leads to. -/
inductive Outcome (F B : Type) where
  | done
  | value (v : Option (FormValue F B))
  | values (vs : List (FormValue F B))
  | callback (v : FormValue F B) (name : List Char)
  | thrown (e : Thrown)
deriving DecidableEq

def named (name : List Char) (entries : List (Entry F B)) : List (FormValue F B) :=
  (entries.filter (·.1 = name)).map Prod.snd

/-- `entries.retain(|(k, _)| *k != name)`. -/
def retain (name : List Char) (entries : List (Entry F B)) : List (Entry F B) :=
  entries.filter (·.1 ≠ name)

/-- The body of a method, with the lock held. -/
def Method.body (name : List Char) (entries : List (Entry F B)) :
    Method F B → Outcome F B × List (Entry F B)
  | .append value =>
    match value.toFormValue with
    | .ok v => (.done, entries ++ [(name, v)])
    | .error e => (.thrown e, entries)
  | .set value =>
    match value.toFormValue with
    | .ok v => (.done, retain name entries ++ [(name, v)])
    | .error e => (.thrown e, retain name entries)
  | .delete => (.done, retain name entries)
  | .get => (.value ((entries.reverse.find? (·.1 = name)).map Prod.snd), entries)
  | .getAll => (.values (named name entries), entries)

/-- What happens: a call, or the end of the callback that runs. -/
inductive Event (F B : Type) where
  | call (name : Arg F B) (m : Method F B)
  | forEach
  | returns
  | throws

/-- The lock is free, held by a `for_each` that has the entries still to visit, or waited for by the
thread that holds it. -/
inductive Lock (F B : Type) where
  | free
  | forEach (rest : List (Entry F B))
  | deadlock

structure State (F B : Type) where
  entries : List (Entry F B)
  lock : Lock F B

/-- The answer, if the call does not wait for ever, and the state after it. -/
abbrev Answer (F B : Type) := Option (Outcome F B) × State F B

/-- The loop of `for_each`, up to its next callback. -/
def State.visit (s : State F B) : List (Entry F B) → Answer F B
  | [] => (some .done, { s with lock := .free })
  | (name, v) :: rest => (some (.callback v name), { s with lock := .forEach rest })

/-- `self.entries.lock()`, and what is done with the lock. -/
def State.locked (s : State F B) (a : Answer F B) : Answer F B :=
  match s.lock with
  | .free => a
  | _ => (none, { s with lock := .deadlock })

/-- The end of a callback of the loop that runs. -/
def State.back (s : State F B) (f : List (Entry F B) → Answer F B) : Answer F B :=
  match s.lock with
  | .free => (some .done, s)
  | .forEach rest => f rest
  | .deadlock => (none, s)

/-- The name is converted before the method takes the lock. -/
def State.step (s : State F B) : Event F B → Answer F B
  | .call name m =>
    match name.toName with
    | none => (some (.thrown .argument), s)
    | some k =>
      s.locked (some (m.body k s.entries).1, { s with entries := (m.body k s.entries).2 })
  | .forEach => s.locked (s.visit s.entries)
  | .returns => s.back s.visit
  | .throws => s.back fun _ => (some (.thrown .callback), { s with lock := .free })

/-! ### The standard's entry list -/

/-- The new entry stands for the first of its name, or at the end. -/
def put (name : List Char) (v : FormValue F B) : List (Entry F B) → List (Entry F B)
  | [] => [(name, v)]
  | x :: xs => if x.1 = name then (name, v) :: retain name xs else x :: put name v xs

/-- The methods of the standard. What is refused is refused as in the code. -/
def Method.standard (name : List Char) (entries : List (Entry F B)) :
    Method F B → Outcome F B × List (Entry F B)
  | .append value =>
    match value.toFormValue with
    | .ok v => (.done, entries ++ [(name, v)])
    | .error e => (.thrown e, entries)
  | .set value =>
    match value.toFormValue with
    | .ok v => (.done, put name v entries)
    | .error e => (.thrown e, entries)
  | .delete => (.done, retain name entries)
  | .get => (.value (named name entries).head?, entries)
  | .getAll => (.values (named name entries), entries)

/-- The entries, and the index that each `forEach` is at, the innermost first. -/
structure Standard (F B : Type) where
  entries : List (Entry F B)
  loops : List ℕ

/-- The callback for the entry at the index, in the list as it is now. -/
def Standard.visit (s : Standard F B) (i : ℕ) : Outcome F B × Standard F B :=
  match s.entries[i]? with
  | some (name, v) => (.callback v name, { s with loops := i :: s.loops })
  | none => (.done, s)

def Standard.step (s : Standard F B) : Event F B → Outcome F B × Standard F B
  | .call name m =>
    match name.toName with
    | none => (.thrown .argument, s)
    | some k => ((m.standard k s.entries).1, { s with entries := (m.standard k s.entries).2 })
  | .forEach => s.visit 0
  | .returns =>
    match s.loops with
    | [] => (.done, s)
    | i :: is => { s with loops := is }.visit (i + 1)
  | .throws =>
    match s.loops with
    | [] => (.done, s)
    | _ :: is => (.thrown .callback, { s with loops := is })

/-! ### When they agree -/

/-- The code and the standard, each with its last answer. -/
structure Both (F B : Type) where
  code : Answer F B
  standard : Outcome F B × Standard F B

def Both.init : Both F B := ⟨(some .done, ⟨[], .free⟩), (.done, ⟨[], []⟩)⟩

def Both.next (s : Both F B) (e : Event F B) : Both F B := ⟨s.code.2.step e, s.standard.2.step e⟩

/-- The call does not wait, the answers are the same, and the lists. -/
def Both.Agree (s : Both F B) : Prop :=
  s.code.1 = some s.standard.1 ∧ s.code.2.entries = s.standard.2.entries

/-- What the entries must be for the method to do what the standard says: no entry of another name
follows one of this name, or a refused value finds no entry to remove; the first entry of the name
has the value of the last. -/
def Method.Right (name : List Char) (entries : List (Entry F B)) : Method F B → Prop
  | .set value =>
    match value.toFormValue with
    | .ok _ => ∀ x ∈ entries.dropWhile (·.1 ≠ name), x.1 = name
    | .error _ => ∀ x ∈ entries, x.1 ≠ name
  | .get => (named name entries).head? = (named name entries).getLast?
  | _ => True

/-- A call that gets to the lock finds it free, and the entries right. -/
def Both.Good (s : Both F B) : Event F B → Prop
  | .call name m => ∀ k, name.toName = some k → s.code.2.lock = .free ∧ m.Right k s.code.2.entries
  | .forEach => s.code.2.lock = .free
  | _ => True

section lists

variable {name : List Char} {entries : List (Entry F B)}

theorem retain_eq_nil : retain name entries = [] ↔ ∀ x ∈ entries, x.1 = name := by
  simp [retain, List.filter_eq_nil_iff]

theorem retain_eq_self : retain name entries = entries ↔ ∀ x ∈ entries, x.1 ≠ name := by
  simp [retain, List.filter_eq_self]

theorem retain_concat_eq_put {v : FormValue F B} :
    retain name entries ++ [(name, v)] = put name v entries ↔
      ∀ x ∈ entries.dropWhile (·.1 ≠ name), x.1 = name := by
  induction entries with
  | nil => simp [put, retain]
  | cons x xs ih =>
    by_cases hx : x.1 = name
    · have hr : retain name (x :: xs) = retain name xs := by simp [retain, hx]
      have hd : (x :: xs).dropWhile (·.1 ≠ name) = x :: xs := by simp [hx]
      rw [hr, hd, put, if_pos hx, List.forall_mem_cons, ← retain_eq_nil]
      constructor
      · intro h
        refine ⟨hx, ?_⟩
        cases hxs : retain name xs with
        | nil => rfl
        | cons y ys =>
          -- what is kept begins with another name, and the standard's list with this one
          have hy : y ∈ retain name xs := by rw [hxs]; exact .head _
          rw [hxs] at h
          cases (List.cons.inj h).1
          simp [retain] at hy
      · rintro ⟨-, h⟩
        rw [h]; rfl
    · have hr : retain name (x :: xs) = x :: retain name xs := by simp [retain, hx]
      have hd : (x :: xs).dropWhile (·.1 ≠ name) = xs.dropWhile (·.1 ≠ name) := by simp [hx]
      rw [hr, hd, put, if_neg hx, List.cons_append, List.cons_inj_right, ih]

theorem find_reverse : (entries.reverse.find? (·.1 = name)).map Prod.snd =
    (named name entries).getLast? := by
  rw [← List.head?_filter, List.filter_reverse, List.head?_reverse, named, List.getLast?_map]

/-- **A method does what the standard says just when the entries are right for it.** -/
theorem Method.body_iff (m : Method F B) :
    m.body name entries = m.standard name entries ↔ m.Right name entries := by
  cases m with
  | set value =>
    cases hv : value.toFormValue with
    | ok v => simp only [body, standard, Right, hv, Prod.mk.injEq, true_and, retain_concat_eq_put]
    | error e => simp only [body, standard, Right, hv, Prod.mk.injEq, true_and, retain_eq_self]
  | get => simp [body, standard, Right, find_reverse, eq_comm (a := List.head? _)]
  | append value | delete | getAll => simp [body, standard, Right]

end lists

/-- The invariant of the runs that agree: a loop of the code has still to visit what follows the
index of the standard's. -/
inductive Both.Inv : Both F B → Prop
  | free {o l} : Inv ⟨(some o, ⟨l, .free⟩), (o, ⟨l, []⟩)⟩
  | loop {o l i} : Inv ⟨(some o, ⟨l, .forEach (l.drop (i + 1))⟩), (o, ⟨l, [i]⟩)⟩

theorem inv_visit (l : List (Entry F B)) (lock : Lock F B) (i : ℕ) :
    Both.Inv ⟨State.visit ⟨l, lock⟩ (l.drop i), Standard.visit ⟨l, []⟩ i⟩ := by
  unfold Standard.visit
  rcases Nat.lt_or_ge i l.length with hi | hi
  · rw [List.drop_eq_getElem_cons hi, List.getElem?_eq_getElem hi]
    exact .loop
  · rw [List.drop_eq_nil_of_le hi, List.getElem?_eq_none hi]
    exact .free

variable {s : Both F B} {e : Event F B}

theorem Both.Inv.agree (h : s.Inv) : s.Agree := by
  cases h <;> exact ⟨rfl, rfl⟩

/-- **An event that is good** keeps the invariant. -/
theorem Both.Inv.next (h : s.Inv) (he : s.Good e) : (s.next e).Inv := by
  cases e with
  | call name m =>
    cases hk : name.toName with
    | none =>
      simp only [Both.next, State.step, Standard.step, hk]
      cases h <;> constructor
    | some k =>
      obtain ⟨hf, hr⟩ := he k hk
      cases h with
      | loop => cases hf
      | free =>
        simp only [Both.next, State.step, Standard.step, hk, State.locked, m.body_iff.mpr hr]
        exact .free
  | forEach =>
    cases h with
    | loop => cases he
    | @free _ l => exact inv_visit l .free 0
  | returns =>
    cases h with
    | free => exact .free
    | loop => exact inv_visit ..
  | throws => cases h <;> exact .free

/-- **An event that is not good** waits for ever, or has another answer or list. -/
theorem Both.Inv.not_agree (h : s.Inv) (he : ¬ s.Good e) : ¬ (s.next e).Agree := by
  rintro ⟨ha, hl⟩
  cases e with
  | call name m =>
    refine he fun k hk => ?_
    simp only [Both.next, State.step, Standard.step, hk] at ha hl
    cases h with
    | loop => cases ha
    | free => exact ⟨rfl, m.body_iff.mp (Prod.ext (Option.some.inj ha) hl)⟩
  | forEach =>
    cases h with
    | free => exact he rfl
    | loop => cases ha
  | returns | throws => exact he trivial

/-- **A run of calls and callbacks is the standard's just when** no call is made on the object from
inside a callback of its `for_each`, every `get` finds the same value in the first and the last
entry of its name, and every `set` finds the entries of its name at the end, or none if it
throws. -/
theorem run_iff (es : List (Event F B)) :
    Throughout Both.next Both.Agree Both.init es ↔ Each Both.next Both.Good Both.init es :=
  throughout_iff_each (fun _ => Both.Inv.agree) (fun _ _ h he => h.next he)
    (fun _ _ h he => h.not_agree he) es .free

/-- The answers of a run of the code, and the entries after it. -/
def answers : State F B → List (Event F B) → List (Option (Outcome F B)) × List (Entry F B)
  | s, [] => ([], s.entries)
  | s, e :: es => ((s.step e).1 :: (answers (s.step e).2 es).1, (answers (s.step e).2 es).2)

/-- `get` gives the last of two entries, `set` moves an entry behind another, a `set` that throws
loses one, and a `get` inside a callback waits. -/
theorem run_differs :
    let a : Arg Unit Unit := .string [97]
    let b : Arg Unit Unit := .string [98]
    let start : State Unit Unit := ⟨[], .free⟩
    let two := [.call a (.append a), .call b (.append b)]
    (answers start [.call a (.append a), .call a (.append b), .call a .get]).1.getLast? =
      some (some (.value (some (.text ['b'])))) ∧
    (answers start (two ++ [.call a (.set b)])).2 = [(['b'], .text ['b']), (['a'], .text ['b'])] ∧
    (answers start (two ++ [.call a (.set .other)])).2 = [(['b'], .text ['b'])] ∧
    (answers start (two ++ [.forEach, .call a .get])).1.getLast? = some none := by
  decide

end RasterRuntime.FormData
