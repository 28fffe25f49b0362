import Mathlib.Data.List.Basic

/-! # Escaping for JSON

`escape_json_string` goes through the UTF-8 bytes of a string in pieces of eight, and copies a piece
without a control character, a quote or a backslash as it is. A code unit that is half of a
surrogate pair comes as three bytes, and is to be written as an escape. -/

namespace RasterRuntime.Json

abbrev Bytes := List UInt8

/-- The bytes of an ASCII text. -/
def ascii (s : String) : Bytes := s.toList.map fun c => UInt8.ofNat c.toNat

/-- The place of a byte in the table of escapes, 34 for none. -/
def jsonEscapeChars (b : UInt8) : ℕ :=
  if b.toNat < 32 then b.toNat else if b = 34 then 32 else if b = 92 then 33 else 34

def hexDigit (d : ℕ) : UInt8 := if d < 10 then UInt8.ofNat (48 + d) else UInt8.ofNat (87 + d)

/-- The table of escapes. -/
def jsonEscapeQuotes (c : ℕ) : Bytes :=
  match c with
  | 8 => ascii "\\b"
  | 9 => ascii "\\t"
  | 10 => ascii "\\n"
  | 12 => ascii "\\f"
  | 13 => ascii "\\r"
  | 32 => ascii "\\\""
  | 33 => ascii "\\\\"
  | c => ascii "\\u00" ++ [hexDigit (c / 16), hexDigit (c % 16)]

def escapeLen : ℕ := 34

/-- What has been written, and the places up to which bytes were read and written. -/
structure Escaping where
  result : Bytes
  i : ℕ
  start : ℕ
  deriving DecidableEq, Repr

/-- The bytes from `start` to `i`; a range beyond the end panics. -/
def slice (bytes : Bytes) (start i : ℕ) : Option Bytes :=
  if i ≤ bytes.length then some ((bytes.take i).drop start) else none

/-- The bytes that were read and not yet written. -/
def Escaping.pushRead (bytes : Bytes) (e : Escaping) : Option Bytes :=
  if e.start < e.i then (slice bytes e.start e.i).map (e.result ++ ·) else some e.result

def surrogateEscape (b0 b1 b2 : UInt8) : Bytes :=
  let codePoint := b0.toNat % 16 * 4096 + b1.toNat % 64 * 64 + b2.toNat % 64
  ascii "\\u" ++ [hexDigit (codePoint / 4096), hexDigit (codePoint / 256 % 16),
    hexDigit (codePoint / 16 % 16), hexDigit (codePoint % 16)]

/-- Half of a surrogate pair stands at the place `i`, as far as the byte read is concerned. -/
def isSurrogate (bytes : Bytes) (i : ℕ) (byte : UInt8) : Bool :=
  i + 2 < bytes.length && byte = 0xED && 0xA0 ≤ ((bytes.getD (i + 1) 0).toNat / 16 * 16)

def processByte (bytes : Bytes) (e : Escaping) (byte : UInt8) : Option Escaping :=
  if isSurrogate bytes e.i byte then
    (e.pushRead bytes).map fun result =>
      { result := result ++ surrogateEscape (bytes.getD e.i 0) (bytes.getD (e.i + 1) 0)
          (bytes.getD (e.i + 2) 0)
        i := e.i + 3
        start := e.i + 3 }
  else if jsonEscapeChars byte < escapeLen then
    (e.pushRead bytes).map fun result =>
      { result := result ++ jsonEscapeQuotes (jsonEscapeChars byte)
        i := e.i + 1
        start := e.i + 1 }
  else some { e with i := e.i + 1 }

def needsEscape (b : UInt8) : Bool := b.toNat < 32 || b = 34 || b = 92

/-- The loop over the pieces. -/
def escapeLoop (bytes : Bytes) : Bytes → Escaping → Option Escaping
  | b0 :: b1 :: b2 :: b3 :: b4 :: b5 :: b6 :: b7 :: rest, e =>
    let chunk := [b0, b1, b2, b3, b4, b5, b6, b7]
    (if chunk.any needsEscape then chunk.foldlM (processByte bytes) e
      else some { e with i := e.i + 8 }).bind fun e => escapeLoop bytes rest e
  | tail, e => tail.foldlM (processByte bytes) e

/-- The result, with the bytes that are not yet written. -/
def Escaping.finish (bytes : Bytes) (e : Escaping) : Option Bytes :=
  if e.start < bytes.length then (slice bytes e.start bytes.length).map (e.result ++ ·)
  else some e.result

def escapeJsonString (bytes : Bytes) : Option Bytes :=
  (escapeLoop bytes bytes ⟨[], 0, 0⟩).bind (Escaping.finish bytes)

/-! ### The loop, byte by byte -/

/-- The byte at a place is looked at: its piece is the last, shorter one, or has a byte to
escape. -/
def looked (bytes : Bytes) (q : ℕ) : Bool :=
  bytes.length / 8 * 8 ≤ q || ((bytes.drop (q / 8 * 8)).take 8).any needsEscape

section Steps

variable (bytes : Bytes) (look : ℕ → Bool)

/-- The byte at the place `q`; one that is not looked at is counted. -/
def goOver (q : ℕ) (e : Escaping) (byte : UInt8) : Option Escaping :=
  if look q then processByte bytes e byte else some { e with i := e.i + 1 }

def go : ℕ → Bytes → Escaping → Option Escaping
  | _, [], e => some e
  | q, b :: rest, e => (goOver bytes look q e b).bind (go (q + 1) rest)

theorem go_append (q : ℕ) (l rest : Bytes) (e : Escaping) :
    go bytes look q (l ++ rest) e =
      (go bytes look q l e).bind (go bytes look (q + l.length) rest) := by
  induction l generalizing q e with
  | nil => rfl
  | cons b l ih =>
    simp only [List.cons_append, go, Option.bind_assoc, List.length_cons]
    refine Option.bind_congr fun e' _ => ?_
    rw [ih, Nat.add_assoc, Nat.add_comm 1]

variable {bytes look} {q : ℕ} {l : Bytes} {e : Escaping}

theorem go_looked (h : ∀ k < l.length, look (q + k) = true) :
    go bytes look q l e = l.foldlM (processByte bytes) e := by
  induction l generalizing q e with
  | nil => rfl
  | cons b l ih =>
    have hq : look q = true := h 0 (Nat.zero_lt_succ _)
    rw [go, goOver, if_pos hq, List.foldlM_cons]
    refine Option.bind_congr fun e' _ => ih fun k hk => ?_
    rw [Nat.add_assoc, Nat.add_comm 1]
    exact h (k + 1) (Nat.succ_lt_succ hk)

theorem go_skipped (h : ∀ k < l.length, look (q + k) = false) :
    go bytes look q l e = some { e with i := e.i + l.length } := by
  induction l generalizing q e with
  | nil => rfl
  | cons b l ih =>
    have hq : look q = false := h 0 (Nat.zero_lt_succ _)
    rw [go, goOver, hq, if_neg Bool.false_ne_true, Option.bind_some, ih]
    · rw [List.length_cons, Nat.add_comm l.length, Nat.add_assoc]
    · intro k hk
      rw [Nat.add_assoc, Nat.add_comm 1]
      exact h (k + 1) (Nat.succ_lt_succ hk)

/-- The pieces of eight only say which bytes are looked at. -/
theorem escapeLoop_eq (rest : Bytes) (e : Escaping) (hq : q % 8 = 0) (hle : q ≤ bytes.length)
    (hd : bytes.drop q = rest) : escapeLoop bytes rest e = go bytes (looked bytes) q rest e := by
  have hlen := congrArg List.length hd
  rw [List.length_drop] at hlen
  fun_induction escapeLoop bytes rest e generalizing q with
  | case1 b0 b1 b2 b3 b4 b5 b6 b7 rest e chunk =>
    rename_i ih
    have hd : bytes.drop q = chunk ++ rest := hd
    simp only [List.length_cons] at hlen
    have hlook (k : ℕ) (hk : k < chunk.length) :
        looked bytes (q + k) = chunk.any needsEscape := by
      have hk : k < 8 := hk
      have hpiece : (q + k) / 8 * 8 = q := by omega
      have hfull : ¬ bytes.length / 8 * 8 ≤ q + k := by omega
      rw [looked, hpiece, hd, decide_eq_false hfull, Bool.false_or]
      rfl
    have hrest : bytes.drop (q + chunk.length) = rest := by
      rw [← List.drop_drop, hd, List.drop_left]
    have hnext (e' : Escaping) :
        escapeLoop bytes rest e' = go bytes (looked bytes) (q + chunk.length) rest e' := by
      refine ih e' (by change (q + 8) % 8 = 0; omega) ?_ hrest ?_
      · change q + 8 ≤ _
        omega
      · change _ - (q + 8) = _
        omega
    change _ = go bytes (looked bytes) q (chunk ++ rest) e
    rw [go_append]
    simp only [hnext]
    cases hc : chunk.any needsEscape with
    | true => rw [if_pos rfl, go_looked fun k hk => (hlook k hk).trans hc]
    | false =>
      rw [if_neg Bool.false_ne_true, go_skipped fun k hk => (hlook k hk).trans hc]
      rfl
  | case2 tail e hne =>
    have hshort : tail.length < 8 := by
      rcases tail with _ | ⟨_, _ | ⟨_, _ | ⟨_, _ | ⟨_, _ | ⟨_, _ | ⟨_, _ | ⟨_, _ | ⟨_, _⟩⟩⟩⟩⟩⟩⟩⟩
      all_goals
        first
        | (exfalso; exact hne _ _ _ _ _ _ _ _ _ rfl)
        | (simp only [List.length_cons, List.length_nil]; omega)
    refine (go_looked fun k _ => ?_).symm
    rw [looked, decide_eq_true (by omega), Bool.true_or]

end Steps

/-! ### Bytes without half a surrogate pair -/

/-- How a byte is written. -/
def escapeByte (b : UInt8) : Bytes :=
  if jsonEscapeChars b < escapeLen then jsonEscapeQuotes (jsonEscapeChars b) else [b]

/-- No half of a surrogate pair is in the bytes. -/
def SurrogateFree (bytes : Bytes) : Prop :=
  ∀ i b, bytes[i]? = some b → isSurrogate bytes i b = false

instance (bytes : Bytes) : Decidable (SurrogateFree bytes) :=
  @decidable_of_iff _ (∀ i < bytes.length, ∀ b ∈ bytes[i]?, isSurrogate bytes i b = false) (by
    constructor
    · intro h i b hb
      exact h i (List.getElem?_eq_some_iff.mp hb).1 b hb
    · exact fun h i _ b hb => h i b hb)
    (@Nat.decidableBallLT _ _ fun _ _ => Option.decidableForallMem _)

/-- The bytes read are escaped, up to those that are not yet written and need no escape. -/
structure Escaped (bytes : Bytes) (e : Escaping) : Prop where
  le : e.start ≤ e.i
  read : e.i ≤ bytes.length
  written : e.result ++ (bytes.take e.i).drop e.start = (bytes.take e.i).flatMap escapeByte

variable {bytes : Bytes} {e : Escaping} {b : UInt8}

theorem Escaped.pushRead (h : Escaped bytes e) :
    e.pushRead bytes = some ((bytes.take e.i).flatMap escapeByte) := by
  unfold Escaping.pushRead slice
  rw [if_pos h.read]
  by_cases hlt : e.start < e.i
  · rw [if_pos hlt, Option.map_some, h.written]
  · rw [if_neg hlt]
    have heq : (bytes.take e.i).drop e.start = [] := by
      refine List.drop_eq_nil_of_le ?_
      rw [List.length_take]
      omega
    have := h.written
    rw [heq, List.append_nil] at this
    rw [this]

variable {look : ℕ → Bool} {rest l : Bytes}

theorem needsEscape_iff : needsEscape b ↔ jsonEscapeChars b < escapeLen := by
  unfold needsEscape jsonEscapeChars escapeLen
  split_ifs with h32 h34 h92
  · simp [h32]
    omega
  · simp [h34]
  · simp [h92]
  · simp [h32, h34, h92]

theorem escapeByte_of_needsEscape (h : needsEscape b = false) : escapeByte b = [b] :=
  if_neg fun hc => Bool.false_ne_true (h.symm.trans (needsEscape_iff.mpr hc))

/-- Bytes to escape are looked at. -/
theorem needsEscape_of_looked {k : ℕ} (hb : bytes[k]? = some b) (h : looked bytes k = false) :
    needsEscape b = false := by
  rw [looked, Bool.or_eq_false_iff, List.any_eq_false] at h
  refine Bool.eq_false_iff.mpr (h.2 b ?_)
  refine List.mem_iff_getElem?.mpr ⟨k % 8, ?_⟩
  have hk : k / 8 * 8 + k % 8 = k := by omega
  rw [List.getElem?_take_of_lt (Nat.mod_lt k (by decide)), List.getElem?_drop, hk, hb]

theorem take_succ_of_getElem? {i : ℕ} (hb : bytes[i]? = some b) :
    bytes.take (i + 1) = bytes.take i ++ [b] := by
  rw [List.take_add_one, hb]
  rfl

theorem getElem?_of_drop {i : ℕ} (h : bytes.drop i = b :: rest) :
    bytes[i]? = some b ∧ bytes.drop (i + 1) = rest := by
  constructor
  · rw [← List.head?_drop, h, List.head?_cons]
  · rw [← List.drop_drop, h, List.drop_one, List.tail_cons]

theorem Escaped.copy (h : Escaped bytes e) (hb : bytes[e.i]? = some b)
    (hn : needsEscape b = false) : Escaped bytes { e with i := e.i + 1 } := by
  have hlt : e.i < bytes.length := (List.getElem?_eq_some_iff.mp hb).1
  refine ⟨Nat.le_succ_of_le h.le, hlt, ?_⟩
  change e.result ++ (bytes.take (e.i + 1)).drop e.start = (bytes.take (e.i + 1)).flatMap escapeByte
  rw [take_succ_of_getElem? hb, List.drop_append_of_le_length, ← List.append_assoc, h.written,
    List.flatMap_append, List.flatMap_singleton, escapeByte_of_needsEscape hn]
  rw [List.length_take]
  have := h.le
  omega

theorem Escaped.goOver (h : Escaped bytes e) (hb : bytes[e.i]? = some b)
    (hs : isSurrogate bytes e.i b = false) (hl : look e.i = false → needsEscape b = false) :
    ∃ e', goOver bytes look e.i e b = some e' ∧ Escaped bytes e' ∧ e'.i = e.i + 1 := by
  unfold Json.goOver
  split_ifs with hlook
  · unfold processByte
    rw [hs, if_neg Bool.false_ne_true]
    split_ifs with hc
    · rw [h.pushRead, Option.map_some]
      refine ⟨_, rfl, ⟨Nat.le_refl _, (List.getElem?_eq_some_iff.mp hb).1, ?_⟩, rfl⟩
      rw [List.drop_take, Nat.sub_self, List.take_zero, List.append_nil, take_succ_of_getElem? hb,
        List.flatMap_append, List.flatMap_singleton, escapeByte, if_pos hc]
    · refine ⟨_, rfl, h.copy hb (Bool.eq_false_iff.mpr ?_), rfl⟩
      exact mt needsEscape_iff.mp hc
  · exact ⟨_, rfl, h.copy hb (hl (Bool.eq_false_iff.mpr hlook)), rfl⟩

/-- Bytes among which no surrogate stands are escaped one by one. -/
theorem Escaped.go (h : Escaped bytes e) (hd : bytes.drop e.i = l ++ rest)
    (hs : ∀ k b, k < e.i + l.length → bytes[k]? = some b → isSurrogate bytes k b = false)
    (hl : ∀ k b, bytes[k]? = some b → look k = false → needsEscape b = false) :
    ∃ e', go bytes look e.i l e = some e' ∧ Escaped bytes e' ∧ e'.i = e.i + l.length := by
  induction l generalizing e with
  | nil => exact ⟨e, rfl, h, rfl⟩
  | cons b l ih =>
    obtain ⟨hb, hrest⟩ := getElem?_of_drop hd
    have hlen : (b :: l).length = l.length + 1 := rfl
    obtain ⟨e₁, h₁, he₁, hi₁⟩ := h.goOver hb (hs e.i b (by omega) hb) (hl e.i b hb)
    obtain ⟨e₂, h₂, he₂, hi₂⟩ := ih he₁ (hi₁ ▸ hrest) fun k b hk => hs k b (by omega)
    refine ⟨e₂, ?_, he₂, by omega⟩
    rw [Json.go, h₁, Option.bind_some, ← hi₁, h₂]

theorem Escaped.finish (h : Escaped bytes e) (hi : e.i = bytes.length) :
    e.finish bytes = some (bytes.flatMap escapeByte) := by
  have hpush := h.pushRead
  rwa [Escaping.pushRead, hi, List.take_length] at hpush

theorem escaped_initial (bytes : Bytes) : Escaped bytes ⟨[], 0, 0⟩ :=
  ⟨Nat.le_refl _, Nat.zero_le _, rfl⟩

/-- **Escaping**: bytes without half a surrogate pair are escaped one by one. -/
theorem escape_eq (hs : SurrogateFree bytes) :
    escapeJsonString bytes = some (bytes.flatMap escapeByte) := by
  obtain ⟨e, h, he, hi⟩ := (escaped_initial bytes).go (List.append_nil bytes).symm
    (fun k b _ => hs k b) (fun k b => needsEscape_of_looked)
  rw [escapeJsonString, escapeLoop_eq bytes _ rfl (Nat.zero_le _) rfl, h]
  exact he.finish (hi.trans (Nat.zero_add _))

end RasterRuntime.Json
