import Mathlib.Data.Int.Notation
import Mathlib.Data.List.Basic

/-! # Queues with sizes

The queue of values that the controllers of readable and of writable streams keep, each value with
the size that the strategy of the stream gives it, and the sum of the sizes. Sizes are binary64
numbers: their operations are a parameter, and nothing here depends on how they round. -/

namespace RasterRuntime.Streams

/-- What the queues and strategies use of binary64 numbers. -/
class Binary64 (F : Type) where
  zero : F
  one : F
  add : F → F → F
  sub : F → F → F
  lt : F → F → Bool
  le : F → F → Bool
  isNan : F → Bool
  isInfinite : F → Bool
  zero_isNan : isNan zero = false
  zero_lt_zero : lt zero zero = false
  zero_isInfinite : isInfinite zero = false

/-- Exact sizes. -/
instance : Binary64 ℤ where
  zero := 0
  one := 1
  add := (· + ·)
  sub := (· - ·)
  lt a b := a < b
  le a b := a ≤ b
  isNan _ := false
  isInfinite _ := false
  zero_isNan := rfl
  zero_lt_zero := rfl
  zero_isInfinite := rfl

/-- One is a size, as it is in binary64. -/
class UnitSize (F : Type) [Binary64 F] : Prop where
  one_isNan : Binary64.isNan (Binary64.one : F) = false
  one_lt_zero : Binary64.lt (Binary64.one : F) Binary64.zero = false
  one_isInfinite : Binary64.isInfinite (Binary64.one : F) = false

instance : UnitSize ℤ := ⟨rfl, rfl, rfl⟩

/-- What a promise is rejected or a stream errored with: a value of the program, or an error that
the implementation makes. -/
inductive Reason (V : Type)
  | value (v : V)
  | typeError (message : String)
  | rangeError (message : String)
  deriving DecidableEq, Repr

/-- A promise of the implementation, as far as it is settled. -/
inductive PromiseState (V : Type)
  | pending
  | resolved
  | rejected (e : Reason V)
  deriving DecidableEq, Repr

/-- To settle a promise again does nothing. -/
def PromiseState.settle {V : Type} (p o : PromiseState V) : PromiseState V :=
  match p with
  | .pending => o
  | .resolved => .resolved
  | .rejected e => .rejected e

/-- A value queue with the total of its sizes. -/
structure QueueWithSizes (A F : Type) where
  queue : List (A × F)
  queueTotalSize : F
  deriving DecidableEq, Repr

variable {A F : Type} [Binary64 F]

namespace QueueWithSizes

def empty : QueueWithSizes A F := ⟨[], Binary64.zero⟩

/-- The number that a strategy returned, if it is one and is not negative. -/
def isNonNegativeNumber (size : Option F) : Option F :=
  match size with
  | none => none
  | some n =>
    if Binary64.isNan n then none
    else if Binary64.lt n Binary64.zero then none
    else some n

def sizeMessage : String := "Size must be a finite, non-NaN, non-negative number."

def enqueueValueWithSize {V : Type} (q : QueueWithSizes A F) (value : A) (size : Option F) :
    Except (Reason V) (QueueWithSizes A F) :=
  match isNonNegativeNumber size with
  | none => .error (.rangeError sizeMessage)
  | some n =>
    if Binary64.isInfinite n then .error (.rangeError sizeMessage)
    else .ok ⟨q.queue ++ [(value, n)], Binary64.add q.queueTotalSize n⟩

/-- The total without the size of a value that leaves; rounding does not take it below zero. -/
def totalWithout (total size : F) : F :=
  let rest := Binary64.sub total size
  if Binary64.lt rest Binary64.zero then Binary64.zero else rest

/-- The first value and the queue without it; on an empty queue the source panics. -/
def dequeueValue (q : QueueWithSizes A F) : Option (A × QueueWithSizes A F) :=
  match q.queue with
  | [] => none
  | (value, size) :: rest => some (value, ⟨rest, totalWithout q.queueTotalSize size⟩)

theorem enqueueValueWithSize_zero {V : Type} (q : QueueWithSizes A F) (value : A) :
    q.enqueueValueWithSize (V := V) value (some Binary64.zero) =
      .ok ⟨q.queue ++ [(value, Binary64.zero)],
        Binary64.add q.queueTotalSize Binary64.zero⟩ := by
  simp [enqueueValueWithSize, isNonNegativeNumber, Binary64.zero_isNan (F := F),
    Binary64.zero_lt_zero (F := F), Binary64.zero_isInfinite (F := F)]

theorem enqueueValueWithSize_one {V : Type} [UnitSize F] (q : QueueWithSizes A F) (value : A) :
    q.enqueueValueWithSize (V := V) value (some Binary64.one) =
      .ok ⟨q.queue ++ [(value, Binary64.one)],
        Binary64.add q.queueTotalSize Binary64.one⟩ := by
  simp [enqueueValueWithSize, isNonNegativeNumber, UnitSize.one_isNan (F := F),
    UnitSize.one_lt_zero (F := F), UnitSize.one_isInfinite (F := F)]

theorem enqueueValueWithSize_queue {V : Type} {q q' : QueueWithSizes A F} {value : A}
    {size : Option F} (h : q.enqueueValueWithSize (V := V) value size = .ok q') :
    ∃ n, q'.queue = q.queue ++ [(value, n)] := by
  unfold enqueueValueWithSize at h
  split at h
  · cases h
  · next n _ =>
    split_ifs at h
    cases h
    exact ⟨n, rfl⟩

end QueueWithSizes

end RasterRuntime.Streams
