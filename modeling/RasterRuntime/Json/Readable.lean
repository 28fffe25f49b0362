import Mathlib.Data.List.TakeWhile
import RasterRuntime.Json.Printed

/-! # The texts of primitives are read back

Strings without half a surrogate pair, and numbers. The text of a floating point number comes from a
library: what is used of it is that it is the text of a number, and of which one. -/

namespace RasterRuntime.Json

open JsonText (Doc Reads Spells isSpace isNumber isUnsigned isInteger isFraction isExponent isDigit)

variable {F O : Type}

/-- What numbers the texts are. -/
class LawfulNumeral (F : Type) [Numeral F] where
  read : Bytes → F
  ofInt : ℤ → F
  isNumber_ryu : ∀ x : F, Numeral.isFinite x = true → isNumber (Numeral.ryu x) = true
  read_ryu : ∀ x : F, Numeral.isFinite x = true → read (Numeral.ryu x) = x
  read_fraction : ∀ text, isNumber (text ++ ascii ".0") = true →
    read (text ++ ascii ".0") = read text
  read_itoa : ∀ i, read (itoa i) = ofInt i

/-! ### Integers -/

theorem digitsOf_spec {fuel n : ℕ} (h : n < fuel) :
    (digitsOf fuel n).all isDigit ∧ digitsOf fuel n ≠ [] ∧
      ((digitsOf fuel n).length = 1 ∨ (digitsOf fuel n).head? ≠ some 48) ∧
      (n ≠ 0 → (digitsOf fuel n).head? ≠ some 48) := by
  have hdigit : ∀ d < 10, isDigit (UInt8.ofNat (48 + d)) := by decide
  have hzero : ∀ d < 10, d ≠ 0 → UInt8.ofNat (48 + d) ≠ 48 := by decide
  induction fuel generalizing n with
  | zero => omega
  | succ fuel ih =>
    rw [digitsOf]
    by_cases hn : n < 10
    · rw [if_pos hn]
      refine ⟨by rw [List.all_cons, hdigit n hn]; rfl, by simp, .inl rfl, fun h0 => ?_⟩
      simpa using hzero n hn h0
    · rw [if_neg hn]
      obtain ⟨hall, hne, -, hhead⟩ := @ih (n / 10) (by omega)
      have hh : (digitsOf fuel (n / 10) ++ [UInt8.ofNat (48 + n % 10)]).head? ≠ some 48 := by
        rw [List.head?_append_of_ne_nil _ hne]
        exact hhead (by omega)
      refine ⟨?_, by simp, .inr hh, fun _ => hh⟩
      rw [List.all_append, hall, List.all_cons, hdigit (n % 10) (by omega)]
      rfl

variable {text : Bytes}

theorem isDigit_of_isInteger (h : isInteger text) :
    ∀ b ∈ text, isDigit b :=
  List.all_eq_true.mp (Bool.and_eq_true_iff.mp (Bool.and_eq_true_iff.mp h).1).2

theorem takeWhile_isInteger (h : isInteger text) :
    text.takeWhile isDigit = text := List.takeWhile_eq_self_iff.mpr (isDigit_of_isInteger h)

theorem dropWhile_isInteger (h : isInteger text) :
    text.dropWhile isDigit = [] := List.dropWhile_eq_nil_iff.mpr (isDigit_of_isInteger h)

theorem isInteger_natText (n : ℕ) : isInteger (natText n) := by
  obtain ⟨hall, hne, hhead, -⟩ := digitsOf_spec (Nat.lt_succ_self n)
  rw [isInteger, natText, hall]
  simpa [hne] using hhead

theorem natText_ne_nil (n : ℕ) : natText n ≠ [] := (digitsOf_spec (Nat.lt_succ_self n)).2.1

theorem head_natText (n : ℕ) : (natText n).head? ≠ some 45 := by
  intro hh
  cases isDigit_of_isInteger (isInteger_natText n) 45 (List.mem_of_mem_head? hh)

theorem isNumber_itoa (i : ℤ) : isNumber (itoa i) := by
  have hu : isUnsigned (natText i.natAbs) := by
    have hi := isInteger_natText i.natAbs
    rw [isUnsigned, takeWhile_isInteger hi, dropWhile_isInteger hi, hi]
    rfl
  rw [itoa]
  split_ifs
  · exact hu
  · rw [isNumber, if_neg (head_natText _), hu]

/-! ### Floating point numbers -/

theorem all_isDigit_dot (text : Bytes) : (text ++ [46, 48]).all isDigit = false := by
  rw [List.all_append, Bool.and_eq_false_iff]
  exact .inr rfl

theorem isExponent_dot (text : Bytes) : isExponent (text ++ [46, 48]) = false := by
  cases text with
  | nil => rfl
  | cons b text =>
    rw [List.cons_append, isExponent]
    cases text with
    | nil => simp [isDigit]
    | cons sign text =>
      split_ifs
      · rw [List.cons_append, List.tail_cons, all_isDigit_dot, Bool.and_false]
      · rw [all_isDigit_dot, Bool.and_false]

theorem dropWhile_dot (text : Bytes) :
    (text ++ [46, 48]).dropWhile isDigit = text.dropWhile isDigit ++ [46, 48] := by
  rw [List.dropWhile_append]
  split_ifs with h
  · rw [List.isEmpty_iff.mp h]
    rfl
  · rfl

theorem takeWhile_dot (text : Bytes) :
    (text ++ [46, 48]).takeWhile isDigit = text.takeWhile isDigit := by
  rw [List.takeWhile_append]
  split_ifs with h
  · have : [46, 48].takeWhile isDigit = [] := rfl
    rw [this, List.append_nil]
    exact (List.takeWhile_prefix isDigit).eq_of_length h |>.symm
  · rfl

theorem isFraction_dot (h : isFraction (text ++ [46, 48])) : text = [] := by
  cases text with
  | nil => rfl
  | cons b text =>
    rw [List.cons_append, isFraction] at h
    split_ifs at h
    · rw [dropWhile_dot, isExponent_dot, Bool.and_false] at h
      cases h
    · rw [← List.cons_append, isExponent_dot] at h
      cases h

theorem isUnsigned_of_dot (h : isUnsigned (text ++ [46, 48])) :
    isUnsigned text := by
  rw [isUnsigned, takeWhile_dot, dropWhile_dot] at h
  obtain ⟨hi, hf⟩ := Bool.and_eq_true_iff.mp h
  rw [isUnsigned, hi, isFraction_dot hf]
  rfl

theorem isNumber_of_dot (h : isNumber (text ++ [46, 48])) :
    isNumber text := by
  cases text with
  | nil => cases h
  | cons b text =>
    unfold isNumber at h ⊢
    rw [List.cons_append, List.head?_cons, List.tail_cons] at h
    rw [List.head?_cons, List.tail_cons]
    split_ifs at h ⊢
    all_goals exact isUnsigned_of_dot h

theorem reads_shorten [Numeral F] [LawfulNumeral F] (h : isNumber text) :
    Reads LawfulNumeral.read (.number (LawfulNumeral.read text : F)) (shorten text) := by
  rw [shorten]
  split_ifs with hd
  · have htext : text.take (text.length - 2) ++ ascii ".0" = text := by
      rw [← hd, List.take_append_drop]
    rw [← htext] at h
    have hread := LawfulNumeral.read_fraction (F := F) _ h
    rw [htext] at hread
    rw [hread]
    exact JsonText.reads_number (isNumber_of_dot h)
  · exact JsonText.reads_number h

/-! ### Strings -/

theorem readPart_escapeByte (b : UInt8) :
    JsonText.readPart (.plain none) (escapeByte b) = some ([b], .plain none) := by
  have h : ∀ n < 256, JsonText.readPart (.plain none) (escapeByte (UInt8.ofNat n)) =
      some ([UInt8.ofNat n], .plain none) := by decide +kernel
  have := h b.toNat b.toNat_lt
  rwa [UInt8.ofNat_toNat] at this

theorem spells_escape (s : Bytes) : Spells (s.flatMap escapeByte) s := by
  induction s with
  | nil => exact JsonText.spells_nil
  | cons b s ih =>
    rw [List.flatMap_cons]
    exact JsonText.Spells.append (readPart_escapeByte b) ih

/-! ### Primitives -/

/-- A string has no half of a surrogate pair. -/
def Val.Clean : Val F O → Prop
  | .string s => SurrogateFree s
  | _ => True

/-- The document of a primitive; what has no text of its own counts as null, and a promise as an
object without members. -/
def Val.doc [Numeral F] [LawfulNumeral F] : Val F O → Doc F
  | .bool b => .bool b
  | .int i => .number (LawfulNumeral.ofInt i)
  | .float x => if Numeral.isFinite x then .number x else .null
  | .string s => .string s
  | .promise => .object []
  | _ => .null

theorem reads_primitive [Numeral F] [LawfulNumeral F] {v : Val F O}
    (h : primitiveText v = some (some text)) (hc : v.Clean) :
    Reads LawfulNumeral.read v.doc text := by
  cases v with
  | undefined | null =>
    cases h
    exact JsonText.reads_null
  | bool b =>
    cases h
    cases b with
    | true => exact JsonText.reads_true
    | false => exact JsonText.reads_false
  | int i =>
    cases h
    rw [Val.doc, ← LawfulNumeral.read_itoa]
    exact JsonText.reads_number (isNumber_itoa i)
  | float x =>
    cases h
    rw [Val.doc, floatText]
    split_ifs with hx
    · have := reads_shorten (F := F) (LawfulNumeral.isNumber_ryu x hx)
      rwa [LawfulNumeral.read_ryu x hx] at this
    · exact JsonText.reads_null
  | string s =>
    rw [primitiveText, writeString, escape_eq hc] at h
    cases h
    exact JsonText.reads_string (spells_escape s)
  | _ => exact absurd h (by simp [primitiveText])

end RasterRuntime.Json
