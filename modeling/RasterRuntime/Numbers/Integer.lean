import Mathlib.Data.Nat.Digits.Lemmas

/-! # Integers in a radix

`i64_to_base_n` writes the digits of a number from the end of a buffer of fixed size: 64 bytes for
radix 2, 21 for radix 8, 80 for the others. Radix 10 is left to the crate `itoa`. The functions
negate a negative number, which is taken here of an `i64` other than the least.

* `digitsLoop_eq`: the loop writes the digits of the number, if the buffer has room for them.
* `i64ToBaseN_eq`: the buffers have room, and every radix gives the same numeral. -/

namespace RasterRuntime.Numbers

/-- The table `DIGITS`. -/
def digits : List Char := "0123456789abcdefghijklmnopqrstuvwxyz".toList

def digit (d : ℕ) : Char := digits.getD d '0'

/-- The loops that write digits from the end of a buffer, with `index` bytes left in front of those
that are written. `none` is an index outside the buffer. -/
def digitsLoop (toDigit : ℕ → Char) (base : ℕ) : ℕ → ℕ → List Char → Option (List Char)
  | 0, n, written => if n = 0 then some written else none
  | index + 1, n, written =>
    if n = 0 then some written
    else digitsLoop toDigit base index (n / base) (toDigit (n % base) :: written)

def sign (number : ℤ) : List Char := if number < 0 then ['-'] else []

/-- `size` is the length of the buffer. -/
def toBaseLessThan10 (size : ℕ) (num : ℤ) (base : ℕ) : Option (List Char) :=
  if num = 0 then some ['0']
  else (digitsLoop (fun d => Char.ofNat (d + 48)) base size num.natAbs []).map (sign num ++ ·)

def internalI64ToBaseN (number radix : ℕ) : Option (List Char) :=
  if number = 0 then some [digit 0] else digitsLoop digit radix 80 number []

/-- The numeral of a number: its digits, the first one not zero, or one zero. -/
def numeral (radix n : ℕ) : List Char :=
  if n = 0 then ['0'] else (radix.digits n).reverse.map digit

/-- What `itoa` prints. -/
def toDec (number : ℤ) : List Char := sign number ++ numeral 10 number.natAbs

def i64ToBaseN (number : ℤ) (radix : ℕ) : Option (List Char) :=
  if radix = 10 then some (toDec number)
  else if radix = 2 then toBaseLessThan10 64 number 2
  else if radix = 8 then toBaseLessThan10 21 number 8
  else (internalI64ToBaseN number.natAbs radix).map (sign number ++ ·)

/-- The number of digits, as the text reads. -/
def readNat (radix : ℕ) (text : List Char) : ℕ :=
  text.foldl (fun value c => value * radix + digits.idxOf c) 0

def readInt (radix : ℕ) : List Char → ℤ
  | '-' :: text => -readNat radix text
  | text => readNat radix text

/-! ### The loop -/

variable {radix n : ℕ}

theorem digitsLoop_eq {toDigit : ℕ → Char} (hr : 2 ≤ radix) (hd : ∀ d < radix, toDigit d = digit d)
    {index : ℕ} (h : n < radix ^ index) (written : List Char) :
    digitsLoop toDigit radix index n written =
      some ((radix.digits n).reverse.map digit ++ written) := by
  induction index generalizing n written with
  | zero =>
    obtain rfl : n = 0 := by simpa using h
    simp [digitsLoop]
  | succ index ih =>
    unfold digitsLoop
    by_cases hn : n = 0
    · simp [hn]
    · have hlt : n / radix < radix ^ index := by
        refine Nat.div_lt_of_lt_mul ?_
        rwa [← Nat.pow_succ']
      rw [if_neg hn, ih hlt, hd _ (Nat.mod_lt _ (by omega)), @Nat.digits_def' radix hr n (by omega),
        List.reverse_cons, List.map_append, List.append_assoc]
      rfl

theorem toBaseLessThan10_eq {number : ℤ} {size : ℕ} (h2 : 2 ≤ radix) (h10 : radix ≤ 10)
    (h : number.natAbs < radix ^ size) :
    toBaseLessThan10 size number radix = some (sign number ++ numeral radix number.natAbs) := by
  have hd : ∀ d < 10, Char.ofNat (d + 48) = digit d := by decide
  unfold toBaseLessThan10 numeral
  by_cases hn : number = 0
  · rw [if_pos hn, if_pos (by simp [hn]), hn]
    rfl
  · rw [if_neg hn, if_neg (by simpa using hn),
      digitsLoop_eq h2 (fun d hlt => hd d (by omega)) h, List.append_nil]
    rfl

theorem internalI64ToBaseN_eq (hr : 2 ≤ radix) (h : n < 2 ^ 64) :
    internalI64ToBaseN n radix = some (numeral radix n) := by
  have hlt : n < radix ^ 80 := calc
    n < 2 ^ 64 := h
    _ ≤ 2 ^ 80 := by decide
    _ ≤ radix ^ 80 := Nat.pow_le_pow_left hr 80
  unfold internalI64ToBaseN numeral
  split_ifs
  · rfl
  · rw [digitsLoop_eq hr (fun _ _ => rfl) hlt, List.append_nil]

/-- The buffers have room for every number but the least. -/
theorem i64ToBaseN_eq {number : ℤ} (hr : 2 ≤ radix) (h : number.natAbs < 2 ^ 63) :
    i64ToBaseN number radix = some (sign number ++ numeral radix number.natAbs) := by
  unfold i64ToBaseN
  split_ifs with h10 h2 h8
  · rw [h10]
    rfl
  · rw [h2]
    exact toBaseLessThan10_eq (by omega) (by omega) (by omega)
  · rw [h8]
    exact toBaseLessThan10_eq (by omega) (by omega) (by omega)
  · rw [internalI64ToBaseN_eq hr (by omega)]
    rfl

/-! ### The numeral -/

theorem readNat_digits {ds : List ℕ} (h : ∀ d ∈ ds, d < 36) :
    readNat radix (ds.reverse.map digit) = Nat.ofDigits radix ds := by
  have hidx : ∀ d < 36, digits.idxOf (digit d) = d := by decide +kernel
  rw [readNat, List.foldl_map, List.foldl_reverse]
  induction ds with
  | nil => rfl
  | cons d ds ih =>
    obtain ⟨hd, hds⟩ := List.forall_mem_cons.mp h
    rw [List.foldr_cons, ih hds, hidx d hd, Nat.ofDigits_cons]
    ring

theorem readNat_numeral (hr : 2 ≤ radix) (h36 : radix ≤ 36) :
    readNat radix (numeral radix n) = n := by
  unfold numeral
  split_ifs with hn
  · rw [hn]
    show 0 * radix + 0 = 0
    rw [Nat.zero_mul]
  · rw [readNat_digits fun d hd => by have := Nat.digits_lt_base hr hd; omega, Nat.ofDigits_digits]

theorem mem_numeral (hr : 2 ≤ radix) (h36 : radix ≤ 36) {c : Char} (h : c ∈ numeral radix n) :
    c ∈ digits.take radix := by
  have hmem : ∀ r ≤ 36, ∀ d < r, digit d ∈ digits.take r := by decide +kernel
  unfold numeral at h
  split_ifs at h
  · rw [List.mem_singleton.mp h]
    exact hmem radix h36 0 (by omega)
  · obtain ⟨d, hd, rfl⟩ := List.mem_map.mp h
    exact hmem radix h36 d (Nat.digits_lt_base hr (List.mem_reverse.mp hd))

/-- Only the numeral of zero starts with a zero. -/
theorem head_numeral (hr : 2 ≤ radix) (h36 : radix ≤ 36) (hn : n ≠ 0) :
    ∃ c, (numeral radix n).head? = some c ∧ c ≠ '0' := by
  have hzero : ∀ d < 36, d ≠ 0 → digit d ≠ '0' := by decide +kernel
  have hne : radix.digits n ≠ [] := Nat.digits_ne_nil_iff_ne_zero.mpr hn
  have hlast := List.getLast?_eq_some_getLast hne
  refine ⟨digit ((radix.digits n).getLast hne), ?_, ?_⟩
  · rw [numeral, if_neg hn, List.head?_map, List.head?_reverse, hlast]
    rfl
  · have := Nat.digits_lt_base hr (List.getLast_mem hne)
    exact hzero _ (by omega) (Nat.getLast_digit_ne_zero radix hn)

theorem readInt_sign {number : ℤ} {text : List Char} (h : text.head? ≠ some '-')
    (hv : readNat radix text = number.natAbs) : readInt radix (sign number ++ text) = number := by
  unfold sign
  split_ifs with hneg
  · show -(readNat radix text : ℤ) = number
    rw [hv]
    omega
  · rw [List.nil_append, readInt, hv]
    · omega
    · rintro t rfl
      exact h rfl

end RasterRuntime.Numbers
