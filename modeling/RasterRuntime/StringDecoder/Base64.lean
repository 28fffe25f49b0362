import RasterRuntime.StringDecoder.Decoder

/-! # `StringDecoder` for base64 is the padded encoding of the whole

Three bytes make four digits, so the encoding may be cut after every third byte. The decoder holds
one or two bytes, and what it lacks up to three. -/

namespace RasterRuntime.StringDecoder

open Encoding
open List (append_assoc append_nil length_append)

/-- The decoder holds nothing, or one or two bytes of three. -/
def Held64 (d : Decoder) : Prop :=
  d = .fresh .base64 ∨
    (d = ⟨.base64, d.buffer, d.buffer.length, d.missingBytes⟩ ∧ d.buffer ≠ [] ∧
      0 < d.missingBytes ∧ d.buffer.length + d.missingBytes = 3)

variable {d : Decoder}

theorem holdTail_base64 (data : List UInt8) : ∃ pre buf m, data = pre ++ buf ∧
    (Decoder.fresh .base64).holdTail data = ⟨.base64, [], buf.length, m⟩ ∧
    Held64 ⟨.base64, buf, buf.length, m⟩ ∧ pre.length % 3 = 0 := by
  have hlen : (data.drop (data.length - data.length % 3)).length = data.length % 3 := by
    rw [List.length_drop]; omega
  refine ⟨data.take (data.length - data.length % 3), data.drop (data.length - data.length % 3),
    if 0 < data.length % 3 then 3 - data.length % 3 else 0,
    (List.take_append_drop _ _).symm, ?_, ?_,
    by rw [List.length_take]; omega⟩
  · rw [hlen]
    unfold Decoder.holdTail Decoder.fresh
    dsimp only
    split_ifs <;> rfl
  · split_ifs with hpos
    · refine .inr ⟨rfl, List.ne_nil_of_length_pos (by rw [hlen]; exact hpos), ?_, ?_⟩
      · show 0 < 3 - data.length % 3
        omega
      · show (data.drop _).length + (3 - data.length % 3) = 3
        omega
    · rw [List.length_eq_zero_iff.mp (hlen.trans (by omega))]
      exact .inl rfl

variable [Codecs]

theorem bytesToB64String_append {a : List UInt8} (x : List UInt8) (ha : a.length % 3 = 0) :
    bytesToB64String (a ++ x) = bytesToB64String a ++ bytesToB64String x :=
  Codecs.base64Encode_append a x ha

theorem bytesToB64String_nil : bytesToB64String [] = [] := by
  have h := bytesToB64String_append (a := []) [] rfl
  rwa [List.append_nil, List.self_eq_append_left] at h

theorem finishCharacter_base64 (h : Held64 d) (data x : List UInt8) : ∃ s data' d',
    d.finishCharacter data = (.ok s, data', d') ∧ Held64 d' ∧ (data' ≠ [] → d' = .fresh .base64) ∧
      bytesToB64String (d.buffer ++ (data ++ x)) =
        s ++ bytesToB64String (d'.buffer ++ (data' ++ x)) := by
  rcases h with rfl | ⟨hd, hne, hpos, hthree⟩
  · exact ⟨[], data, .fresh .base64, rfl, .inl rfl, fun _ => rfl, rfl⟩
  have he : d.encoder = .base64 := by rw [hd]
  unfold Decoder.finishCharacter Decoder.align
  rw [if_neg (by omega), he]
  dsimp only
  by_cases hle : d.missingBytes ≤ data.length
  · refine ⟨_, _, _, Decoder.fill_of_le hle (by rw [he]; rfl), .inl (by rw [he]),
      fun _ => by rw [he], ?_⟩
    rw [append_take_drop, bytesToB64String_append]
    · rfl
    · rw [length_append, List.length_take]; omega
  · refine ⟨_, _, _, Decoder.fill_of_lt (by omega), .inr ⟨?_, by simp [hne], ?_, ?_⟩,
      fun h => absurd rfl h, by simp⟩
    · rw [hd, length_append]
    · show 0 < d.missingBytes - data.length
      omega
    · simp only [length_append]; omega

theorem flush_base64 (h : Held64 d) :
    d.flush = (.ok (bytesToB64String d.buffer), .fresh .base64) := by
  rcases h with rfl | ⟨hd, hne, -⟩
  · exact congrArg (fun s => (Except.ok s, _)) bytesToB64String_nil.symm
  · obtain ⟨b, c, hbuf⟩ := List.exists_cons_of_ne_nil hne
    rw [hd, hbuf]
    rfl

theorem base64Scheme : Scheme .base64 bytesToB64String fun _ => Held64 where
  cutting := .inr (.inr rfl)
  make := fun _ => rfl
  nil := bytesToB64String_nil
  encoder := fun h => by
    rcases h with rfl | ⟨hd, -⟩
    · rfl
    · rw [hd]
  finish := fun h => finishCharacter_base64 h _ _
  tail := fun {data rest} _ _ => by
    obtain ⟨pre, buf, m, hdata, htail, hheld, hpre⟩ := holdTail_base64 data
    exact ⟨pre, buf, m, hdata, htail, hheld, bytesToB64String_append _ hpre⟩
  flush := fun h => by rw [flush_base64 h]

/-- **Base64**: for every byte string and every way to cut it into chunks, what `write` gives for
the chunks and `end` at last is the padded encoding of the whole, so that padding is at the end
only. -/
theorem writeAll_base64 (chunks : List (List UInt8)) (last : Option (List UInt8)) :
    ∃ digits k, k ≤ 2 ∧ '=' ∉ digits ∧
      bytesToB64String (chunks.flatten ++ last.getD []) = digits ++ List.replicate k '=' ∧
      (Decoder.fresh .base64).writeAll chunks last = .ok (digits ++ List.replicate k '=') := by
  obtain ⟨digits, k, hk, hdigits, heq⟩ :=
    Codecs.base64Encode_padded (chunks.flatten ++ last.getD [])
  exact ⟨digits, k, hk, hdigits, heq, heq ▸ base64Scheme.writeAll last chunks _ (.inl rfl)⟩

end RasterRuntime.StringDecoder
