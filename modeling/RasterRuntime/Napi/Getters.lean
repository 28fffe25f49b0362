import RasterRuntime.JsonText.Reader

/-! # N-API calls that fill memory of the caller

`napi_get_cb_info` and the getters for strings of `raster_runtime_napi`. What a call stores at a
pointer is the list of what it writes there, from the first place on; the caller says how many
places there are.

* `napi_get_cb_info` does not look at the number it is given: it stores all arguments, and nothing
  else.
* The getters report the length of the whole string, and cut it between any two bytes. -/

namespace RasterRuntime.Napi

/-! ### Arguments -/

/-- What a call of `napi_get_cb_info` stores. -/
structure CbInfo (V : Type) where
  argc : Option ℕ
  argv : List V

variable {V : Type}

/-- `napi_get_cb_info` in a call with these arguments. The pointers `argc` and `argv` may be null;
where `argc` is not, it points to the number of places at `argv`. -/
def getCbInfo (args : List V) (argc : Option ℕ) (argv : Bool) : CbInfo V where
  argc := argc.map fun _ => args.length
  argv := if argv then args else []

/-- Every place is filled, and nothing behind them. -/
def CbInfo.Conforms (undefined : V) (args : List V) (c : ℕ) (info : CbInfo V) : Prop :=
  info.argc = some args.length ∧
    info.argv = args.take c ++ List.replicate (c - args.length) undefined

theorem getCbInfo_conforms_iff (undefined : V) (args : List V) (c : ℕ) :
    (getCbInfo args (some c) true).Conforms undefined args c ↔ args.length = c := by
  simp only [CbInfo.Conforms, getCbInfo, Option.map_some, if_true, true_and]
  constructor
  · intro h
    have := congrArg List.length h
    simp only [List.length_append, List.length_take, List.length_replicate] at this
    omega
  · rintro rfl
    simp

/-! ### Strings -/

/-- A code point that is half of a surrogate pair. -/
def isSurrogate (c : ℕ) : Bool := 0xD800 ≤ c && c ≤ 0xDFFF

def latin1Byte (c : ℕ) : UInt8 := if c ≤ 0xFF then UInt8.ofNat c else 63

/-- What a getter stores: bytes at `buf` and a number at `result`. -/
structure Stored where
  buf : List UInt8
  result : Option ℕ
  deriving DecidableEq, Repr

/-- The bytes that are copied; `from_utf8` refuses halves of surrogate pairs, and then there are
none. -/
def copied (chars : List ℕ) (latin1 : Bool) : List UInt8 :=
  if latin1 then if chars.any isSurrogate then [] else chars.map latin1Byte
  else chars.flatMap JsonText.utf8

/-- `bytes_from_js` for a string of these code points. The buffer may be null, and so may
`result`. -/
def bytesFromJs (chars : List ℕ) (bufsize : Option ℕ) (result latin1 : Bool) : Stored where
  buf :=
    match bufsize with
    | none => []
    | some size => if 0 < size then (copied chars latin1).take (size - 1) ++ [0] else []
  result := if result then some (copied chars latin1).length else none

/-- The bytes of each character. -/
def encoded (chars : List ℕ) (latin1 : Bool) : List (List UInt8) :=
  chars.map fun c => if latin1 then [latin1Byte c] else JsonText.utf8 c

/-- The whole characters, from the first on, that fit into so many bytes. -/
def fit : ℕ → List (List UInt8) → List UInt8
  | _, [] => []
  | size, c :: cs => if c.length ≤ size then c ++ fit (size - c.length) cs else []

/-- What is to be stored: whole characters with a NUL in a buffer, of which there is place for `b`
bytes and the NUL, and their number; without a buffer, the number of all bytes. -/
def Stored.Conforms (chars : List ℕ) (latin1 : Bool) (buffer : Option ℕ) (result : Bool)
    (s : Stored) :
    Prop :=
  match buffer with
  | none => s.buf = [] ∧ (result = true → s.result = some (encoded chars latin1).flatten.length)
  | some b => s.buf = fit b (encoded chars latin1) ++ [0] ∧
      (result = true → s.result = some (fit b (encoded chars latin1)).length)

theorem length_fit_le : ∀ (b : ℕ) (cs : List (List UInt8)), (fit b cs).length ≤ b
  | b, [] => by simp [fit]
  | b, c :: cs => by
    rw [fit]
    split_ifs with h
    · have := length_fit_le (b - c.length) cs
      rw [List.length_append]; omega
    · simp

theorem fit_isPrefix : ∀ (b : ℕ) (cs : List (List UInt8)), fit b cs <+: cs.flatten
  | b, [] => by simp [fit]
  | b, c :: cs => by
    rw [fit]
    split_ifs
    · rw [List.flatten_cons, List.prefix_append_right_inj]
      exact fit_isPrefix _ cs
    · exact List.nil_prefix

theorem fit_all : ∀ {b : ℕ} {cs : List (List UInt8)}, cs.flatten.length ≤ b → fit b cs = cs.flatten
  | b, [], _ => rfl
  | b, c :: cs, h => by
    rw [List.flatten_cons, List.length_append] at h
    rw [fit, if_pos (by omega), fit_all (by omega), List.flatten_cons]

theorem take_eq_fit_iff (b : ℕ) (cs : List (List UInt8)) :
    cs.flatten.take b = fit b cs ↔ cs.flatten.length ≤ b ∨ (fit b cs).length = b := by
  constructor
  · intro h
    have := congrArg List.length h
    rw [List.length_take] at this
    omega
  · rintro (h | h)
    · rw [fit_all h, List.take_of_length_le h]
    · have htake := List.prefix_iff_eq_take.mp (fit_isPrefix b cs)
      rw [h] at htake
      exact htake.symm

/-- Where no character is lost for its encoding, all bytes of all characters are copied. -/
theorem copied_eq {chars : List ℕ} {latin1 : Bool}
    (h : ¬ (latin1 ∧ chars.any isSurrogate)) :
    copied chars latin1 = (encoded chars latin1).flatten := by
  unfold copied encoded
  cases latin1 with
  | false => simp [List.flatMap]
  | true =>
    rw [if_pos rfl, if_neg fun hs => h ⟨rfl, hs⟩]
    exact List.map_eq_flatMap

/-- **When the calls fill the caller's memory as they should**: `napi_get_cb_info` if there are as
many places as arguments. A getter if the buffer has place for the whole string, or at least for
whole characters where the number is not asked for; a Latin-1 string with half a surrogate pair is
right only in a buffer without place, or where nothing is asked for. -/
theorem getters_conform_iff (undefined : V) (args : List V) (c : ℕ) (chars : List ℕ)
    (latin1 result : Bool) (buffer : Option ℕ) :
    ((getCbInfo args (some c) true).Conforms undefined args c ↔ args.length = c) ∧
    ((bytesFromJs chars (buffer.map (· + 1)) result latin1).Conforms chars latin1 buffer result ↔
      if latin1 = true ∧ chars.any isSurrogate = true then
        buffer = some 0 ∨ (buffer = none ∧ result = false)
      else ∀ b ∈ buffer, (encoded chars latin1).flatten.length ≤ b ∨
        (result = false ∧ (fit b (encoded chars latin1)).length = b)) := by
  refine ⟨getCbInfo_conforms_iff undefined args c, ?_⟩
  split_ifs with hbad
  · -- nothing is copied, and there is a character
    obtain ⟨rfl, hany⟩ := hbad
    obtain ⟨a, cs, rfl⟩ : ∃ a cs, chars = a :: cs := by
      cases chars with
      | nil => simp at hany
      | cons a cs => exact ⟨a, cs, rfl⟩
    have hnone : copied (a :: cs) true = [] := by rw [copied, if_pos rfl, if_pos hany]
    rcases buffer with _ | _ | b <;> cases result <;>
      simp [bytesFromJs, Stored.Conforms, hnone, encoded, fit]
  · have heq := copied_eq hbad
    cases buffer with
    | none => cases result <;> simp [bytesFromJs, Stored.Conforms, heq]
    | some b =>
      have hle := length_fit_le b (encoded chars latin1)
      have htake := take_eq_fit_iff b (encoded chars latin1)
      have hall := @fit_all b (encoded chars latin1)
      cases result with
      | false => simpa [bytesFromJs, Stored.Conforms, heq] using htake
      | true =>
        simp only [bytesFromJs, Stored.Conforms, heq, Option.map_some, Nat.succ_pos, if_true,
          Nat.add_sub_cancel, List.append_left_inj, htake, Option.some.injEq, forall_const,
          Option.mem_def, forall_eq', Bool.true_eq_false, false_and, or_false]
        constructor
        · rintro ⟨-, h⟩; omega
        · exact fun h => ⟨.inl h, by rw [hall h]⟩

/-- A call with two arguments stores two where there is place for one; and `é` in a buffer of two
bytes is cut in the middle, with two bytes reported. -/
theorem getters_overflow_and_cut :
    (getCbInfo ["a", "b"] (some 1) true).argv = ["a", "b"] ∧
      bytesFromJs [0xE9] (some 2) true false = ⟨[0xC3, 0], some 2⟩ := by
  decide

end RasterRuntime.Napi
