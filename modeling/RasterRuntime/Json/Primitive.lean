import RasterRuntime.Json.Stringify

/-! # What is written for one value

* `wrote_writePrimitive2`: the ways in which `write_primitive` can end.
* `appendValue_eq`: `append_value` is `write_primitive` and then `proceed`. -/

namespace RasterRuntime.Json

variable {F O σ E : Type}

theorem Val.eq_bigint {v : Val F O} (h : v.isBigint) : v = .bigint := by
  cases v <;> first | rfl | cases h

/-- A key that the array of keys does not leave out. -/
def Kept (replacing : Replacing F O σ E) (key : Bytes) : Prop :=
  ∀ keys ∈ replacing.includeKeys, key ∈ keys

theorem any_not_contains {replacing : Replacing F O σ E} {key : Bytes} :
    replacing.includeKeys.any (!·.contains key) ↔ ¬ Kept replacing key := by
  unfold Kept
  cases replacing.includeKeys <;> simp

/-- What `append_value` does after `write_primitive`. -/
def proceed (iterate : Iterate F O σ E) (slot : Slot O) (value : Val F O)
    (p : PrimitiveStatus F O × Writer O σ) : Except (Stop E) (Bool × Writer O σ) :=
  match p.1 with
  | .written => .ok (true, p.2)
  | .ignored => .ok (false, p.2)
  | .iterate newValue =>
    iterate { slot with depth := slot.depth + 1 } value newValue p.2 >>= fun w => .ok (true, w)

variable [Numeral F]

/-- The ways to end for the value `v` at a place. -/
inductive Wrote (replacing : Replacing F O σ E) (slot : Slot O) (v : Val F O) (addComma : Bool)
    (newValue : Option (Val F O)) (w : Writer O σ) :
    Except (Stop E) (PrimitiveStatus F O × Writer O σ) → Prop
  | omitted (hi : slot.index = none) (ho : v.isOmitted = true) :
      Wrote replacing slot v addComma newValue w (.ok (.ignored, w))
  | bigint (hv : v = .bigint) : Wrote replacing slot v addComma newValue w (.error .bigint)
  | filtered (hk : ¬ Kept replacing (getKeyOrIndex slot.key slot.index)) :
      Wrote replacing slot v addComma newValue w (.ok (.ignored, w))
  | badKey (hn : slot.index = none → v.isOmitted = false) (hs : separators slot addComma = none) :
      Wrote replacing slot v addComma newValue w (.error .panic)
  | badText (before : Bytes) (hs : separators slot addComma = some before)
      (ht : primitiveText v = none) : Wrote replacing slot v addComma newValue w (.error .panic)
  | text (before text : Bytes) (hk : Kept replacing (getKeyOrIndex slot.key slot.index))
      (hn : slot.index = none → v.isOmitted = false)
      (hs : separators slot addComma = some before) (ht : primitiveText v = some (some text)) :
      Wrote replacing slot v addComma newValue w (.ok (.written, (w.push before).push text))
  | nested (before : Bytes) (hk : Kept replacing (getKeyOrIndex slot.key slot.index))
      (hn : slot.index = none → v.isOmitted = false)
      (hs : separators slot addComma = some before) (ht : primitiveText v = some none)
      (hb : v ≠ .bigint) :
      Wrote replacing slot v addComma newValue w (.ok (.iterate newValue, w.push before))

theorem wrote_writePrimitive2 (replacing : Replacing F O σ E) (slot : Slot O) (value : Val F O)
    (addComma : Bool) (newValue : Option (Val F O)) (w : Writer O σ) :
    Wrote replacing slot (newValue.getD value) addComma newValue w
      (writePrimitive2 replacing slot value addComma newValue w) := by
  unfold writePrimitive2
  dsimp only
  generalize newValue.getD value = v
  by_cases ho : (slot.index.isNone && v.isOmitted)
  · rw [if_pos ho]
    obtain ⟨hi, ho⟩ := Bool.and_eq_true_iff.mp ho
    exact .omitted (Option.isNone_iff_eq_none.mp hi) ho
  · rw [if_neg ho]
    have hn : slot.index = none → v.isOmitted = false := by
      intro hi
      rw [hi, Option.isNone_none, Bool.true_and] at ho
      exact Bool.eq_false_iff.mpr ho
    by_cases hb : v.isBigint
    · rw [if_pos hb]
      exact .bigint (Val.eq_bigint hb)
    · rw [if_neg hb]
      by_cases hf : replacing.includeKeys.any
          (!·.contains (getKeyOrIndex slot.key slot.index))
      · rw [if_pos hf]
        exact .filtered (any_not_contains.mp hf)
      · rw [if_neg hf]
        have hk := not_not.mp fun hk => hf (any_not_contains.mpr hk)
        cases hs : separators slot addComma with
        | none => exact .badKey hn hs
        | some before =>
          cases ht : primitiveText v with
          | none => exact .badText before hs ht
          | some text =>
            cases text with
            | none =>
              refine .nested before hk hn hs ht ?_
              rintro rfl
              exact hb rfl
            | some text => exact .text before text hk hn hs ht

theorem appendValue_eq (engine : Engine F O σ E) (replacing : Replacing F O σ E)
    (iterate : Iterate F O σ E) (slot : Slot O) (value : Val F O) (addComma : Bool)
    (w : Writer O σ) :
    appendValue engine replacing iterate slot value addComma w =
      writePrimitive engine replacing slot value addComma w >>= proceed iterate slot value := rfl

end RasterRuntime.Json
