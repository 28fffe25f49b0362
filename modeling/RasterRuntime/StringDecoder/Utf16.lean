import RasterRuntime.StringDecoder.Utf8

/-! # `StringDecoder` for UTF-16: when the guess about the missing bytes goes wrong

The decoder waits for the rest of a unit, or of a pair when the unit is a lead surrogate. To tell
whether the new bytes ask for more, it tests every one of the missing bytes for being the high byte
of a lead surrogate, low bytes too, and then asks for three. With a lead surrogate already in the
buffer that is one byte too many: five bytes are decoded as two units, and the fifth is lost.

* `Held16`: what the decoder can hold, given the bytes still to come.
* `SplitPair`: a lead surrogate, a unit of which either byte looks like the high byte of one, and
  one unit more.
* `utf16Scheme`: the decoding chunk by chunk, when there is none.
* `writeAll_utf16`: a sequence of units is decoded right for every way to cut it **if and only if**
  there is none in it. -/

namespace RasterRuntime.StringDecoder

open Text Encoding
open List (append_assoc append_nil length_append length_cons length_nil)
open Text.Utf16 (isLead isTrail fromUtf16Lossy unitLength)
open Text.Utf8 (forall_byte)

/-! ### Units and bytes -/

/-- The little-endian bytes of code units. -/
def leBytes (us : List UInt16) : List UInt8 :=
  us.flatMap fun u => [UInt8.ofNat (u.toNat % 256), UInt8.ofNat (u.toNat / 256)]

theorem u16_little (x y : UInt8) :
    u16FromBytes .little x y = UInt16.ofNat (x.toNat + 256 * y.toNat) := rfl

theorem u16_leBytes (u : UInt16) :
    u16FromBytes .little (UInt8.ofNat (u.toNat % 256)) (UInt8.ofNat (u.toNat / 256)) = u := by
  have hu := u.toNat_lt
  have h1 : (UInt8.ofNat (u.toNat % 256)).toNat = u.toNat % 256 :=
    Utf8.toNat_ofNat_of_lt (by omega)
  have h2 : (UInt8.ofNat (u.toNat / 256)).toNat = u.toNat / 256 :=
    Utf8.toNat_ofNat_of_lt (by omega)
  have hsum : u.toNat % 256 + 256 * (u.toNat / 256) = u.toNat := by omega
  rw [u16_little, h1, h2, hsum, UInt16.ofNat_toNat]

theorem leBytes_cons (u : UInt16) (us : List UInt16) : leBytes (u :: us) =
    UInt8.ofNat (u.toNat % 256) :: UInt8.ofNat (u.toNat / 256) :: leBytes us := rfl

theorem units_leBytes : ∀ us : List UInt16, units .little (leBytes us) = us
  | [] => rfl
  | u :: us => by rw [leBytes_cons, units, u16_leBytes, units_leBytes us]

theorem length_leBytes (us : List UInt16) : (leBytes us).length = 2 * us.length := by
  induction us with
  | nil => rfl
  | cons u us ih =>
    simp only [leBytes_cons, length_cons]
    omega

theorem isHighByte_iff (b : UInt8) : isHighByte b ↔ 0xD8 ≤ b.toNat ∧ b.toNat ≤ 0xDB := by
  revert b
  exact forall_byte (by decide +kernel)

theorem isLead_u16 (x y : UInt8) : isLead (u16FromBytes .little x y) = isHighByte y := by
  have hx := x.toNat_lt
  have hy := y.toNat_lt
  rw [Bool.eq_iff_iff, isHighByte_iff, u16_little, isLead, UInt16.toNat_ofNat']
  simp only [Bool.and_eq_true, decide_eq_true_eq]
  omega

/-- The low byte of a unit looks like the high byte of a lead surrogate. -/
def lowByteHigh (u : UInt16) : Bool := isHighByte (UInt8.ofNat (u.toNat % 256))

theorem lowByteHigh_u16 (x y : UInt8) : lowByteHigh (u16FromBytes .little x y) = isHighByte x := by
  have hx := x.toNat_lt
  have hy := y.toNat_lt
  unfold lowByteHigh
  rw [u16_little, UInt16.toNat_ofNat']
  have hmod : (x.toNat + 256 * y.toNat) % 2 ^ 16 % 256 = x.toNat := by omega
  rw [hmod, UInt8.ofNat_toNat]

/-- **A lead surrogate, a unit that looks like it needs three more bytes, and one unit more.** -/
def SplitPair (us : List UInt16) : Prop :=
  ∃ a b c, isLead a = true ∧ (isLead b = true ∨ lowByteHigh b = true) ∧ [a, b, c] <:+: us

theorem SplitPair.mono {us vs : List UInt16} (h : SplitPair us) (hs : us <:+: vs) :
    SplitPair vs := by
  obtain ⟨a, b, c, ha, hb, hi⟩ := h
  exact ⟨a, b, c, ha, hb, hi.trans hs⟩

/-- No such units in the bytes: after a lead surrogate and a unit with a high byte in it, there is
nothing. -/
theorem length_of_not_splitPair {x y : UInt8} {r : List UInt8} (hy : isHighByte y)
    (hr : (r.take 2).any isHighByte) (heven : r.length % 2 = 0)
    (h : ¬ SplitPair (units .little (x :: y :: r))) : r.length = 2 := by
  match r with
  | [] => simp at hr
  | [_] | [_, _, _] => simp at heven
  | [_, _] => rfl
  | z :: w :: v :: v' :: r =>
    refine absurd ⟨u16FromBytes .little x y, u16FromBytes .little z w,
      u16FromBytes .little v v', ?_,
      ?_, [], units .little r, rfl⟩ h
    · rw [isLead_u16]; exact hy
    · rw [isLead_u16, lowByteHigh_u16]
      simpa [or_comm] using hr

/-! ### What is held -/

/-- The text of bytes. -/
def utf16Text (bytes : List UInt8) : List Char := fromUtf16Lossy (units .little bytes)

/-- The bytes that are held lack `m` bytes: of a unit, or of a pair where they begin with a lead
surrogate. More than will come is asked for only where the input ends with the unit after a lead
surrogate. -/
def Lacks (rest : List UInt8) (m : ℕ) : List UInt8 → Prop
  | [] => m = 0
  | [_] => m = 1
  | _ :: y :: t => isHighByte y ∧ 0 < m ∧
      (t.length + m = 2 ∨ t.length + rest.length = 2 ∧ rest.length < m)

/-- **What the decoder can hold** before the bytes `rest`. -/
structure Held16 (rest : List UInt8) (d : Decoder) : Prop where
  eq : d = ⟨.utf16le, d.buffer, d.buffer.length, d.missingBytes⟩
  lacks : Lacks rest d.missingBytes d.buffer
  even : (d.buffer ++ rest).length % 2 = 0
  free : ¬ SplitPair (units .little (d.buffer ++ rest))

/-- `e` is decoded before `t`: the cut is between units, and not in the middle of a pair. -/
structure Cut (e t : List UInt8) : Prop where
  even : e.length % 2 = 0
  pair : ∀ u ∈ (units .little e).getLast?, ∀ v ∈ (units .little t).head?,
    isLead u = true → isTrail v = false

variable {x y : UInt8} {e t buf data rest : List UInt8} {m : ℕ}

theorem Cut.text (h : Cut e t) : utf16Text (e ++ t) = utf16Text e ++ utf16Text t := by
  unfold utf16Text
  rw [units_append .little e t h.even, Utf16.lossy_append _ _ h.pair]

theorem cut_of_not_lead (he : e.length % 2 = 0) (hy : isHighByte y = false) (t : List UInt8) :
    Cut (e ++ [x, y]) t := by
  refine ⟨by simp only [length_append, length_cons, length_nil]; omega, ?_⟩
  intro u hu v _ hl
  rw [units_append .little e [x, y] he] at hu
  have huv : u16FromBytes .little x y = u := by simpa [units] using hu
  rw [← huv, isLead_u16, hy] at hl
  simp at hl

theorem cut_of_lead (he : e.length % 2 = 0) (hy : isHighByte y) : Cut e (x :: y :: t) := by
  refine ⟨he, ?_⟩
  intro u _ v hv _
  have huv : u16FromBytes .little x y = v := by simpa [units] using hv
  rw [← huv]
  exact Utf16.isTrail_of_isLead (by rw [isLead_u16]; exact hy)

theorem cut_nil (he : e.length % 2 = 0) : Cut e [] := ⟨he, by simp [units]⟩

/-- The text before a cut is written, and what follows it is held. -/
theorem Held16.cut {d : Decoder} (h : Held16 (data ++ rest) d) (hcut : Cut e (buf ++ t))
    (heq : d.buffer ++ (data ++ rest) = e ++ (buf ++ t)) (hl : Lacks t m buf) :
    Held16 t ⟨.utf16le, buf, buf.length, m⟩ ∧
      utf16Text (d.buffer ++ (data ++ rest)) = utf16Text e ++ utf16Text (buf ++ t) := by
  have heven := h.even
  have hfree := h.free
  have hlen := hcut.even
  rw [heq, length_append] at heven
  rw [heq, units_append .little e _ hlen] at hfree
  refine ⟨⟨rfl, hl, ?_, fun hs => hfree (hs.mono (List.suffix_append _ _).isInfix)⟩, ?_⟩
  · show (buf ++ t).length % 2 = 0
    omega
  · rw [heq, hcut.text]

/-- `finishCharacter` asks for three bytes if one of the missing ones looks like a lead
surrogate. -/
theorem finishCharacter_eq [Codecs] (buf : List UInt8) (hm : 0 < m) (data : List UInt8) :
    (⟨.utf16le, buf, buf.length, m⟩ : Decoder).finishCharacter data =
      (⟨.utf16le, buf, buf.length, if (data.take m).any isHighByte then 3 else m⟩ : Decoder).fill
        data := by
  unfold Decoder.finishCharacter Decoder.align
  rw [if_neg (by exact Nat.ne_of_gt hm)]
  dsimp only
  split_ifs <;> rfl

/-- What `finishCharacter` has done. -/
def Finished [Codecs] (d : Decoder) (data rest : List UInt8) : Prop :=
  ∃ s data' d', d.finishCharacter data = (.ok s, data', d') ∧ Held16 (data' ++ rest) d' ∧
    (data' ≠ [] → d' = .fresh .utf16le) ∧
    utf16Text (d.buffer ++ (data ++ rest)) = s ++ utf16Text (d'.buffer ++ (data' ++ rest))

section finish

variable {k : ℕ} (h : Held16 (data ++ rest) ⟨.utf16le, buf, buf.length, m⟩) (hm : 0 < m)
  (hk : (if (data.take m).any isHighByte then 3 else m) = k)

include h hm hk

theorem finished_hold [Codecs] (hlt : data.length < k)
    (hl : Lacks rest (k - data.length) (buf ++ data)) :
    Finished ⟨.utf16le, buf, buf.length, m⟩ data rest := by
  refine ⟨[], [], ⟨.utf16le, buf ++ data, buf.length + data.length, k - data.length⟩, ?_,
    ⟨by rw [length_append], hl, ?_, ?_⟩, fun h => absurd rfl h, ?_⟩
  · rw [finishCharacter_eq buf hm, hk]
    exact Decoder.fill_of_lt hlt
  · simpa using h.even
  · simpa using h.free
  · simp

theorem finished_decode [Codecs] (hle : k ≤ data.length)
    (hcut : Cut (buf ++ data.take k) (data.drop k ++ rest)) :
    Finished ⟨.utf16le, buf, buf.length, m⟩ data rest := by
  obtain ⟨hheld, htext⟩ :=
    h.cut (show Cut _ ([] ++ _) from hcut) (append_take_drop buf data rest k) rfl
  refine ⟨_, _, _, ?_, hheld, fun _ => rfl, htext⟩
  rw [finishCharacter_eq buf hm, hk]
  exact Decoder.fill_of_le hle rfl

end finish

theorem finishCharacter_one [Codecs] (h : Held16 (data ++ rest) ⟨.utf16le, [x], 1, 1⟩) :
    Finished ⟨.utf16le, [x], 1, 1⟩ data rest := by
  match data with
  | [] => exact finished_hold h Nat.one_pos rfl Nat.one_pos rfl
  | y :: r =>
    by_cases hy : isHighByte y
    · have hk : (if ((y :: r).take 1).any isHighByte then 3 else 1) = 3 := by simp [hy]
      match r with
      | [] | [z] => exact finished_hold h Nat.one_pos hk (by simp) ⟨hy, by simp, .inl rfl⟩
      | z :: w :: r =>
        refine finished_decode h Nat.one_pos hk (by simp) ?_
        by_cases hw : isHighByte w
        · have heven := h.even
          have hlen := length_of_not_splitPair hy (r := z :: w :: (r ++ rest)) (by simp [hw])
            (by simp at heven ⊢; omega) h.free
          obtain ⟨rfl, rfl⟩ : r = [] ∧ rest = [] := by simpa using hlen
          exact cut_nil (by simp)
        · exact cut_of_not_lead (e := [x, y]) (by simp) (by simpa using hw) _
    · have hy' : isHighByte y = false := by simpa using hy
      exact finished_decode h Nat.one_pos (k := 1) (by simp [hy']) (by simp)
        (cut_of_not_lead (e := []) rfl hy' _)

theorem finishCharacter_lead [Codecs]
    (h : Held16 (data ++ rest) ⟨.utf16le, x :: y :: t, (x :: y :: t).length, m⟩) :
    Finished ⟨.utf16le, x :: y :: t, (x :: y :: t).length, m⟩ data rest := by
  obtain ⟨hy, hm, hl⟩ := h.lacks
  have heven := h.even
  dsimp only at hm hl
  simp only [List.cons_append, length_cons, length_append] at heven hl
  by_cases hany : (data.take m).any isHighByte
  · -- three bytes are asked for where at most two can come
    have hlen : t.length + (data.length + rest.length) = 2 := by
      rcases hl with hl | ⟨hl, -⟩
      · have := length_of_not_splitPair hy (r := t ++ (data ++ rest))
          (by simp [List.take_append, show 2 - t.length = m by omega, hany])
          (by simp only [length_append]; omega) h.free
        simpa using this
      · exact hl
    refine finished_hold h hm (if_pos hany) (by omega) ⟨hy, by omega, .inr ?_⟩
    change (t ++ data).length + _ = 2 ∧ _
    rw [length_append]
    omega
  · have hk : (if (data.take m).any isHighByte then 3 else m) = m := if_neg hany
    rcases Nat.lt_or_ge data.length m with hlt | hle
    · refine finished_hold h hm hk hlt ⟨hy, by omega, ?_⟩
      change (t ++ data).length + _ = 2 ∨ (t ++ data).length + _ = 2 ∧ _
      rw [length_append]
      omega
    · refine finished_decode h hm hk hle ?_
      have hne : data.take m ≠ [] := List.ne_nil_of_length_pos (by rw [List.length_take]; omega)
      have hlast := List.dropLast_append_getLast hne
      have hw : isHighByte ((data.take m).getLast hne) = false := by
        simpa using fun hw => hany (List.any_eq_true.mpr ⟨_, List.getLast_mem hne, hw⟩)
      obtain ⟨z, hz⟩ : ∃ z, t ++ (data.take m).dropLast = [z] := List.length_eq_one_iff.mp (by
        rw [length_append, List.length_dropLast, List.length_take]; omega)
      rw [List.cons_append, List.cons_append, ← hlast, ← append_assoc, hz]
      exact cut_of_not_lead (e := [x, y]) (by simp) hw _

theorem finishCharacter_utf16 [Codecs] {d : Decoder} (h : Held16 (data ++ rest) d) :
    Finished d data rest := by
  obtain ⟨e, buf, n, m⟩ := d
  obtain ⟨rfl, rfl⟩ : e = .utf16le ∧ n = buf.length := by simpa using h.eq
  match buf with
  | [] =>
    obtain rfl : m = 0 := h.lacks
    exact ⟨[], data, .fresh .utf16le, rfl, h, fun _ => rfl, rfl⟩
  | [x] =>
    obtain rfl : m = 1 := h.lacks
    exact finishCharacter_one h
  | x :: y :: t => exact finishCharacter_lead h

/-! ### The end of a chunk -/

theorem even_cases (h : e.length % 2 = 0) :
    e = [] ∨ ∃ e' a b, e = e' ++ [a, b] ∧ e'.length % 2 = 0 := by
  rcases List.eq_nil_or_concat e with rfl | ⟨e1, b, rfl⟩
  · exact .inl rfl
  rcases List.eq_nil_or_concat e1 with rfl | ⟨e2, a, rfl⟩
  · simp at h
  · refine .inr ⟨e2, a, b, by simp, ?_⟩
    simp only [List.concat_eq_append, length_append, List.length_singleton] at h
    omega

theorem holdTail_even (he : e.length % 2 = 0) (a b : UInt8) :
    (Decoder.fresh .utf16le).holdTail (e ++ [a, b]) =
      if isHighByte b then ⟨.utf16le, [], 2, 2⟩ else ⟨.utf16le, [], 0, 0⟩ := by
  have hlen : (e ++ [a, b]).length = e.length + 2 := by simp
  have hlast : (e ++ [a, b]).getD ((e ++ [a, b]).length - 1) 0 = b := by
    rw [hlen]; simp
  unfold Decoder.holdTail Decoder.fresh
  dsimp only
  rw [hlast, hlen, if_neg (by omega)]

theorem holdTail_odd (he : e.length % 2 = 0) (a b c : UInt8) :
    (Decoder.fresh .utf16le).holdTail (e ++ [a, b] ++ [c]) =
      if isHighByte b then ⟨.utf16le, [], 3, 1⟩ else ⟨.utf16le, [], 1, 1⟩ := by
  have hlen : (e ++ [a, b] ++ [c]).length = e.length + 3 := by simp
  have hlast : (e ++ [a, b] ++ [c]).getD ((e ++ [a, b] ++ [c]).length - 2) 0 = b := by
    rw [hlen]; simp
  unfold Decoder.holdTail Decoder.fresh
  dsimp only
  rw [hlast, hlen, if_pos (by omega)]
  by_cases hb : isHighByte b = true <;> simp [hb]

/-- `holdTail` cuts the chunk between units, and before a lead surrogate that would be the last. -/
theorem holdTail_utf16 (hd : data ≠ []) : ∃ pre buf m, data = pre ++ buf ∧
    (Decoder.fresh .utf16le).holdTail data = ⟨.utf16le, [], buf.length, m⟩ ∧
    ∀ rest, Lacks rest m buf ∧ Cut pre (buf ++ rest) := by
  by_cases hodd : data.length % 2 = 1
  · obtain ⟨e, c, rfl⟩ : ∃ e c, data = e ++ [c] :=
      ⟨data.dropLast, data.getLast hd, (List.dropLast_append_getLast hd).symm⟩
    rw [length_append, List.length_singleton] at hodd
    rcases even_cases (e := e) (by omega) with rfl | ⟨e', a, b, rfl, he'⟩
    · exact ⟨[], [c], 1, rfl, rfl, fun _ => ⟨rfl, rfl, by simp [units]⟩⟩
    · have hhold := holdTail_odd he' a b c
      split_ifs at hhold with hb
      · exact ⟨e', [a, b, c], 1, by simp, hhold,
          fun _ => ⟨⟨hb, Nat.one_pos, .inl rfl⟩, cut_of_lead he' hb⟩⟩
      · exact ⟨_, [c], 1, rfl, hhold, fun _ => ⟨rfl, cut_of_not_lead he' (by simpa using hb) _⟩⟩
  · rcases even_cases (e := data) (by omega) with rfl | ⟨e, a, b, rfl, he⟩
    · exact absurd rfl hd
    · have hhold := holdTail_even he a b
      split_ifs at hhold with hb
      · exact ⟨e, [a, b], 2, rfl, hhold,
          fun _ => ⟨⟨hb, Nat.two_pos, .inl rfl⟩, cut_of_lead he hb⟩⟩
      · exact ⟨_, [], 0, (append_nil _).symm, hhold,
          fun _ => ⟨rfl, cut_of_not_lead he (by simpa using hb) _⟩⟩

theorem flush_utf16 [Codecs] (buf : List UInt8) (m : ℕ) :
    (⟨.utf16le, buf, buf.length, m⟩ : Decoder).flush.1 = .ok (utf16Text buf) ∨
      buf.length = 1 ∧ (⟨.utf16le, buf, buf.length, m⟩ : Decoder).flush.1 = .ok [] := by
  match buf with
  | [] => exact .inl rfl
  | [x] => exact .inr ⟨rfl, rfl⟩
  | x :: y :: t =>
    left
    unfold Decoder.flush
    split_ifs <;> rfl

theorem utf16Scheme [Codecs] : Scheme .utf16le utf16Text Held16 where
  cutting := .inr (.inl rfl)
  make := fun _ => rfl
  nil := rfl
  encoder := fun h => by rw [h.eq]
  finish := finishCharacter_utf16
  tail := fun hd h => by
    obtain ⟨pre, buf, m, rfl, htail, hl⟩ := holdTail_utf16 hd
    obtain ⟨hlacks, hcut⟩ := hl _
    exact ⟨pre, buf, m, rfl, htail, (h.cut hcut (append_assoc pre buf _) hlacks).1, hcut.text⟩
  flush := fun h => by
    have heven := h.even
    rw [append_nil] at heven
    rw [h.eq]
    exact (flush_utf16 _ _).resolve_right (by omega)

/-! ### A byte is lost -/

theorem unitLength_text (bytes : List UInt8) : unitLength (utf16Text bytes) = bytes.length / 2 := by
  rw [utf16Text, Utf16.unitLength_lossy, length_units]

/-- After a lead surrogate at the end of a chunk, five bytes are decoded as two units. -/
theorem finishCharacter_splitPair [Codecs] {z w v : UInt8} {r : List UInt8}
    (hzw : isHighByte z ∨ isHighByte w) :
    (⟨.utf16le, [x, y], 2, 2⟩ : Decoder).finishCharacter (z :: w :: v :: r) =
      (.ok (utf16Text [x, y, z, w, v]), r, .fresh .utf16le) := by
  refine (finishCharacter_eq [x, y] Nat.two_pos _).trans ?_
  rw [if_pos (by simpa using hzw)]
  exact Decoder.fill_of_le (by simp) rfl

/-- The chunk ends after the lead surrogate, and the text has fewer units than the input. -/
theorem writeAll_splitPair [Codecs] {z w v : UInt8} {r : List UInt8} (he : e.length % 2 = 0)
    (hy : isHighByte y) (hzw : isHighByte z ∨ isHighByte w) (hr : r.length % 2 = 1) : ∃ s,
      (Decoder.fresh .utf16le).writeAll [e ++ [x, y], z :: w :: v :: r] none = .ok s ∧
        unitLength s < (e.length + 5 + r.length) / 2 := by
  have hnil : r ≠ [] := fun h => by simp [h] at hr
  have hhold := holdTail_even he x y
  rw [if_pos hy] at hhold
  have h1 : (Decoder.fresh .utf16le).decodeData (e ++ [x, y]) =
      (.ok (utf16Text e), ⟨.utf16le, [x, y], 2, 2⟩) :=
    utf16Scheme.decodeRest (s := []) rfl rfl (by simp) hhold
  obtain ⟨pre, buf, m, rfl, htail, -⟩ := holdTail_utf16 hnil
  have h2 := utf16Scheme.decodeRest rfl (finishCharacter_splitPair (x := x) (y := y) (v := v) hzw)
    hnil htail
  obtain ⟨t, ht, htl⟩ : ∃ t, (⟨.utf16le, buf, buf.length, m⟩ : Decoder).flush.1 = .ok t ∧
      unitLength t ≤ buf.length / 2 := by
    rcases flush_utf16 buf m with h | ⟨-, h⟩
    · exact ⟨_, h, Nat.le_of_eq (unitLength_text buf)⟩
    · exact ⟨_, h, Nat.zero_le _⟩
  refine ⟨utf16Text e ++ (utf16Text [x, y, z, w, v] ++ utf16Text pre ++ t), ?_, ?_⟩
  · simp [Decoder.writeAll, Decoder.write, Decoder.end, h1, h2, ht, Except.map]
  · simp only [Utf16.unitLength_append, unitLength_text, length_append, length_cons,
      length_nil] at hr ⊢
    omega

theorem isLead_eq (u : UInt16) : isLead u = isHighByte (UInt8.ofNat (u.toNat / 256)) := by
  rw [← isLead_u16 (UInt8.ofNat (u.toNat % 256)), u16_leBytes]

theorem exists_chunks_of_splitPair [Codecs] {us : List UInt16} (h : SplitPair us) :
    ∃ chunks : List (List UInt8), chunks.flatten = leBytes us ∧
      (Decoder.fresh .utf16le).writeAll chunks none ≠ .ok (fromUtf16Lossy us) := by
  obtain ⟨a, b, c, ha, hb, pre, post, rfl⟩ := h
  rw [isLead_eq] at ha hb
  have hpre := length_leBytes pre
  have hpost := length_leBytes post
  obtain ⟨s, hs, hlt⟩ := writeAll_splitPair (x := UInt8.ofNat (a.toNat % 256))
    (v := UInt8.ofNat (c.toNat % 256)) (e := leBytes pre)
    (r := UInt8.ofNat (c.toNat / 256) :: leBytes post) (by omega) ha hb.symm
    (by rw [length_cons]; omega)
  have hne : s ≠ fromUtf16Lossy (pre ++ [a, b, c] ++ post) := fun heq => by
    simp only [heq, Utf16.unitLength_lossy, length_append, length_cons, length_nil] at hlt
    omega
  refine ⟨_, ?_, fun heq => hne (Except.ok.inj (hs.symm.trans heq))⟩
  unfold leBytes
  simp only [List.flatMap_append, List.flatten_cons, List.flatten_nil, append_assoc, append_nil]
  rfl

/-- **UTF-16LE**: for a sequence of code units, what `write` gives for the chunks and `end` at last
is the lossy decoding of the whole, for every way to cut its bytes into chunks, if and only if no
lead surrogate is followed by a lead surrogate or a unit with a low byte in `0xD8..0xDB`, and then
by another unit. -/
theorem writeAll_utf16 [Codecs] (us : List UInt16) :
    (∀ chunks : List (List UInt8), chunks.flatten = leBytes us →
      (Decoder.fresh .utf16le).writeAll chunks none = .ok (fromUtf16Lossy us)) ↔
      ¬ SplitPair us := by
  constructor
  · intro hall hs
    obtain ⟨chunks, hchunks, hne⟩ := exists_chunks_of_splitPair hs
    exact hne (hall chunks hchunks)
  · intro hs chunks hchunks
    have hlen := length_leBytes us
    have hbytes : chunks.flatten ++ none.getD [] = leBytes us := by rw [hchunks]; exact append_nil _
    have h := utf16Scheme.writeAll none chunks (.fresh .utf16le)
      ⟨rfl, rfl, by rw [hbytes]; exact (by omega : (leBytes us).length % 2 = 0), by
        rw [hbytes]; exact (units_leBytes us).symm ▸ hs⟩
    rw [hbytes] at h
    rw [h]
    exact congrArg Except.ok (congrArg fromUtf16Lossy (units_leBytes us))

/-- A pair cut in the middle, whose trail surrogate has a low byte in `0xD8..0xDB`, and a letter:
the letter is lost. -/
theorem writeAll_utf16_differ :
    letI := standardCodecs
    (Decoder.fresh .utf16le).writeAll [[0x3D, 0xD8], [0xD8, 0xDC, 0x41, 0x00]] none =
        .ok [Char.ofNat 0x1F4D8] ∧
      fromUtf16Lossy [0xD83D, 0xDCD8, 0x0041] = [Char.ofNat 0x1F4D8, 'A'] ∧
      leBytes [0xD83D, 0xDCD8, 0x0041] = [0x3D, 0xD8, 0xD8, 0xDC, 0x41, 0x00] := by
  refine ⟨?_, ?_, ?_⟩ <;> decide

end RasterRuntime.StringDecoder
