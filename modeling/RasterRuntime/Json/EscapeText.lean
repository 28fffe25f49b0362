import RasterRuntime.Json.Readable
import RasterRuntime.Text.Utf8

/-! # Escaping a text

The bytes of a text have no half of a surrogate pair, so every byte is escaped for itself, and a
reader of JSON reads them back. -/

namespace RasterRuntime.Json

open Text.Utf8

/-- `escape_json_string_simple` without the pieces of eight: every byte goes through
`process_byte`. -/
def escapeEach (bytes : Bytes) : Option Bytes :=
  (bytes.foldlM (processByte bytes) ⟨[], 0, 0⟩).bind (Escaping.finish bytes)

variable {bytes : Bytes} {cs : List Char}

theorem escapeEach_eq (hs : SurrogateFree bytes) :
    escapeEach bytes = some (bytes.flatMap escapeByte) := by
  have hlook (k : ℕ) (b : UInt8) (_ : bytes[k]? = some b) (h : (fun _ : ℕ => true) k = false) :
      needsEscape b = false := absurd h Bool.noConfusion
  obtain ⟨e, h, he, hi⟩ := (escaped_initial bytes).go (List.append_nil bytes).symm
    (fun k b _ => hs k b) hlook
  rw [go_looked fun _ _ => rfl] at h
  rw [escapeEach, h]
  exact he.finish (hi.trans (Nat.zero_add _))

/-- The bytes of a character: one in ASCII, or a lead byte with continuation bytes. -/
theorem utf8EncodeChar_cases (c : Char) :
    (∃ b, String.utf8EncodeChar c = [b] ∧ b.toNat < 0x80) ∨
      ∃ b x l, String.utf8EncodeChar c = b :: x :: l ∧ 0xC2 ≤ b.toNat ∧
        (∀ y ∈ x :: l, isCont y) ∧ (b = 0xED → x.toNat < 0xA0 ∧ l.length = 1) := by
  obtain ⟨b, l, hc, hw, hf, -⟩ := utf8EncodeChar_spec c
  rw [hc]
  by_cases hb : b.toNat < 0x80
  · have hone : width b = 1 := if_pos hb
    obtain rfl : l = [] := List.length_eq_zero_iff.mp (by omega)
    exact .inl ⟨b, rfl, hb⟩
  · have hcont : ∀ y ∈ l, isCont y := by
      have htests : ∀ p ∈ follow b, ∀ y, p y → isCont y := fun p hp y => isCont_of_follow hp
      clear hw hc
      generalize follow b = ps at hf htests
      induction hf with
      | nil => exact fun y hy => absurd hy List.not_mem_nil
      | cons hp _ ih =>
        rw [List.forall_mem_cons] at htests ⊢
        exact ⟨htests.1 _ hp, ih htests.2⟩
    have hcases := width_cases (Nat.not_lt.mp hb) (by omega)
    match l with
    | [] =>
      rw [List.length_nil] at hw
      omega
    | x :: l =>
      refine .inr ⟨b, x, l, rfl, by omega, hcont, ?_⟩
      rintro rfl
      have hfollow : follow 0xED = [secondOk 0xED, isCont] := rfl
      rw [hfollow] at hf
      obtain _ | ⟨hx, htail⟩ := hf
      obtain ⟨-, -, -, hlt, -⟩ := secondOk_bounds hx
      have hlt := hlt rfl
      have hlen := htail.length_eq
      exact ⟨by omega, hlen.symm⟩

theorem ne_lead {b : UInt8} (h : isCont b) : b ≠ 0xED := by
  rintro rfl
  cases h

/-- The byte that a surrogate starts with is the first of a character, and what follows it is no
surrogate. -/
theorem utf8EncodeChar_lead {c : Char} {i : ℕ} (h : (String.utf8EncodeChar c)[i]? = some 0xED) :
    i = 0 ∧ ∃ b rest, String.utf8EncodeChar c = 0xED :: b :: rest ∧ b.toNat < 0xA0 := by
  rcases utf8EncodeChar_cases c with ⟨b, hc, hb⟩ | ⟨b, x, l, hc, -, hcont, hlead⟩
  · rw [hc] at h
    obtain rfl := List.mem_singleton.mp (List.mem_of_getElem? h)
    exact absurd hb (by decide)
  · rw [hc] at h ⊢
    cases i with
    | zero =>
      obtain rfl : b = 0xED := Option.some_inj.mp h
      exact ⟨rfl, x, l, rfl, (hlead rfl).1⟩
    | succ i =>
      rw [List.getElem?_cons_succ] at h
      exact absurd rfl (ne_lead (hcont _ (List.mem_of_getElem? h)))

theorem lead_encode {i : ℕ} (h : (encode cs)[i]? = some 0xED) :
    ∃ b, (encode cs)[i + 1]? = some b ∧ b.toNat < 0xA0 := by
  induction cs generalizing i with
  | nil => cases h
  | cons c cs ih =>
    rw [encode, List.flatMap_cons, ← encode] at h ⊢
    rcases Nat.lt_or_ge i (String.utf8EncodeChar c).length with hi | hi
    · rw [List.getElem?_append_left hi] at h
      obtain ⟨rfl, b, rest, hl, hb⟩ := utf8EncodeChar_lead h
      exact ⟨b, by rw [hl]; rfl, hb⟩
    · rw [List.getElem?_append_right hi] at h
      rw [List.getElem?_append_right (by omega), Nat.sub_add_comm hi]
      exact ih h

/-- No surrogate stands in the bytes of a text, whatever comes after them. -/
theorem isSurrogate_encode {rest : Bytes} {k : ℕ} {b : UInt8} (hk : k < (encode cs).length)
    (hb : (encode cs ++ rest)[k]? = some b) : isSurrogate (encode cs ++ rest) k b = false := by
  rw [List.getElem?_append_left hk] at hb
  by_cases hlead : b = 0xED
  · subst hlead
    obtain ⟨x, hx, hlt⟩ := lead_encode hb
    have hnext := (List.getElem?_eq_some_iff.mp hx).1
    have hlow : ¬ 0xA0 ≤ x.toNat / 16 * 16 := by omega
    rw [isSurrogate, List.getD_eq_getElem?_getD, List.getElem?_append_left hnext, hx,
      Option.getD_some, decide_eq_false hlow, Bool.and_false]
  · simp [isSurrogate, hlead]

theorem surrogateFree_encode (cs : List Char) : SurrogateFree (encode cs) := by
  intro i b hb
  have hlt := (List.getElem?_eq_some_iff.mp hb).1
  rw [← List.append_nil (encode cs)] at hb ⊢
  exact isSurrogate_encode hlt hb

theorem le_of_mem_escapeByte : ∀ b : UInt8, (escapeByte b).all (32 ≤ ·) :=
  forall_byte (by decide +kernel)

/-- **Escaping a text**: the result is what handling the bytes one at a time gives; there is no
control character in it, and between two quotes it is a JSON string, which ends at the second quote
and is read back as the text. -/
theorem escape_text (text : List Char) :
    ∃ out, escapeJsonString (encode text) = some out ∧ escapeEach (encode text) = some out ∧
      (∀ b ∈ out, 32 ≤ b) ∧
      ∀ rest, JsonText.readString (.plain none) (out ++ 34 :: rest) = some (encode text, rest) := by
  have hs := surrogateFree_encode text
  refine ⟨_, escape_eq hs, escapeEach_eq hs, fun b hb => ?_, spells_escape _⟩
  obtain ⟨a, -, hb⟩ := List.mem_flatMap.mp hb
  exact of_decide_eq_true (List.all_eq_true.mp (le_of_mem_escapeByte a) b hb)

end RasterRuntime.Json
