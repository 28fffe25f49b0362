import Mathlib.Data.List.Induction
import RasterRuntime.StringDecoder.Utf8

/-! # What `end` leaves

`flush` returns early when no byte is held. For UTF-16 it first drops an odd byte from the counters,
so when that was the only one it returns early too, and the byte stays in the buffer: it is put
before the bytes of the next character that is held.

* `Sound`: the counters agree with the buffer, and something is missing if something is held.
* `end_resets_iff`: every `end` of a history leaves a new decoder **if and only if** none is reached
  by a UTF-16 decoder with one byte held. -/

namespace RasterRuntime.StringDecoder

open Encoding
open List (length_append)

/-- A call of the program. -/
inductive Call where
  | write (buffer : Option (List UInt8))
  | «end» (buffer : Option (List UInt8))

namespace Decoder

def call [Codecs] (d : Decoder) : Call → Except String (List Char) × Decoder
  | .write buffer => d.write buffer
  | .end buffer => d.end buffer

/-- The decoder after a history of calls. -/
def after [Codecs] (d : Decoder) (calls : List Call) : Decoder :=
  calls.foldl (fun d c => (d.call c).2) d

/-- The decoder when `end` comes to `flush`. -/
def beforeFlush [Codecs] (d : Decoder) : Option (List UInt8) → Decoder
  | none => d
  | some data => (d.decodeData data).2

end Decoder

/-- **Nothing is held, or the counters agree with the buffer** and something is missing. -/
def Sound (e : Encoder) (d : Decoder) : Prop :=
  d = .fresh e ∨ (d.encoder = e ∧ d.buffer.length = d.bufferedBytes ∧ 0 < d.bufferedBytes ∧
    0 < d.missingBytes)

variable {e : Encoder} {d : Decoder}

theorem makeString_lossy [Codecs] (e : Encoder) (data : List UInt8) :
    ∃ s, makeString e data = .ok s := by
  cases e <;> exact ⟨_, rfl⟩

theorem Sound.encoder (h : Sound e d) : d.encoder = e := by
  rcases h with rfl | ⟨he, -⟩
  · rfl
  · exact he

/-- What is appended for bytes that are decoded, if there are any. -/
theorem exists_text [Codecs] (e : Encoder) (pre : List UInt8) :
    ∃ text, (pre ≠ [] → makeString e pre = .ok text) ∧ (pre = [] → text = []) := by
  obtain ⟨text, htext⟩ := makeString_lossy e pre
  by_cases hpre : pre = []
  · exact ⟨[], fun h => absurd hpre h, fun _ => rfl⟩
  · exact ⟨text, fun _ => htext, fun h => absurd h hpre⟩

theorem fill_sound [Codecs] (he : d.encoder = e) (hlen : d.buffer.length = d.bufferedBytes)
    (hpos : 0 < d.bufferedBytes) (data : List UInt8) : ∃ s data' d',
      d.fill data = (.ok s, data', d') ∧ Sound e d' ∧ (data' ≠ [] → d' = .fresh e) := by
  subst he
  by_cases hle : d.missingBytes ≤ data.length
  · obtain ⟨s, hs⟩ := makeString_lossy d.encoder (d.buffer ++ data.take d.missingBytes)
    exact ⟨s, _, _, Decoder.fill_of_le hle hs, .inl rfl, fun _ => rfl⟩
  · refine ⟨[], _, _, Decoder.fill_of_lt (by omega), .inr ⟨rfl, ?_, ?_, ?_⟩, fun h => absurd rfl h⟩
    all_goals simp only [length_append]
    all_goals omega

theorem finishCharacter_sound [Codecs] (h : Sound e d) (data : List UInt8) : ∃ s data' d',
    d.finishCharacter data = (.ok s, data', d') ∧ Sound e d' ∧ (data' ≠ [] → d' = .fresh e) := by
  rcases h with rfl | ⟨rfl, hlen, hpos, hmissing⟩
  · exact ⟨[], data, _, rfl, .inl rfl, fun _ => rfl⟩
  obtain ⟨encoder, buffer, bufferedBytes, missingBytes⟩ := d
  dsimp only at hlen hpos hmissing
  suffices h : ∀ d data', Decoder.align ⟨encoder, buffer, bufferedBytes, missingBytes⟩ data =
      (d, data') →
      d.encoder = encoder ∧ d.buffer.length = d.bufferedBytes ∧ 0 < d.bufferedBytes by
    obtain ⟨he, hlen, hpos⟩ := h _ _ rfl
    unfold Decoder.finishCharacter
    rw [if_neg (by dsimp only; omega)]
    exact fill_sound he hlen hpos _
  unfold Decoder.align
  rintro d data' heq
  cases encoder with
  | utf8 =>
    rcases hi : (data.take missingBytes).findIdx? fun b => !isTrailing b with _ | i
    · simp only [hi] at heq
      cases heq
      exact ⟨rfl, hlen, hpos⟩
    · obtain ⟨hlt, -⟩ := List.findIdx?_eq_some_iff_getElem.mp hi
      rw [List.length_take] at hlt
      simp only [hi] at heq
      cases heq
      refine ⟨rfl, ?_, Nat.add_pos_left hpos i⟩
      change (buffer ++ data.take i).length = bufferedBytes + i
      rw [length_append, List.length_take]
      omega
  | utf16le =>
    dsimp only at heq
    split_ifs at heq <;> cases heq <;> exact ⟨rfl, hlen, hpos⟩
  | hex | base64 | windows1252 | utf16be =>
    cases heq
    exact ⟨rfl, hlen, hpos⟩

theorem holdTail_sound {data : List UInt8} (hd : data ≠ []) : ∃ k m, k ≤ data.length ∧
    (Decoder.fresh e).holdTail data = ⟨e, [], k, m⟩ ∧ (k = 0 ∧ m = 0 ∨ 0 < k ∧ 0 < m) := by
  have hpos := List.length_pos_of_ne_nil hd
  cases e with
  | utf8 =>
    rcases holdTail_eq hd with ⟨htail, -⟩ | ⟨pre, buf, m, rfl, ⟨⟨b, c, n, hbuf, -⟩, hm⟩, htail⟩
    · exact ⟨0, 0, by omega, htail, .inl ⟨rfl, rfl⟩⟩
    · exact ⟨buf.length, m, by rw [length_append]; omega, htail, .inr ⟨by rw [hbuf]; simp, hm⟩⟩
  | utf16le =>
    unfold Decoder.holdTail Decoder.fresh
    dsimp only
    split_ifs with hodd hlead
    · exact ⟨3, 1, hlead.1, rfl, by omega⟩
    · exact ⟨1, 1, by omega, rfl, by omega⟩
    · exact ⟨2, 2, by omega, rfl, by omega⟩
    · exact ⟨0, 0, by omega, rfl, by omega⟩
  | base64 =>
    unfold Decoder.holdTail Decoder.fresh
    dsimp only
    split_ifs with hrest
    · exact ⟨_, _, by omega, rfl, by omega⟩
    · exact ⟨_, _, by omega, rfl, by omega⟩
  | hex | windows1252 | utf16be => exact ⟨0, 0, by omega, rfl, by omega⟩

section

variable (h : Sound e d) (buffer : Option (List UInt8))

include h

/-- **One chunk keeps the counters.** -/
theorem decodeData_sound [Codecs] (data : List UInt8) :
    ∃ s d', d.decodeData data = (.ok s, d') ∧ Sound e d' := by
  unfold Decoder.decodeData
  split_ifs
  · obtain ⟨s, data', d', hfin, hd', hfresh⟩ := finishCharacter_sound h data
    rw [hfin]
    by_cases hnil : data' = []
    · exact ⟨s, d', if_pos (by simpa using hnil), hd'⟩
    · obtain rfl := hfresh hnil
      obtain ⟨k, m, hk, htail, hkm⟩ := holdTail_sound (e := e) hnil
      have hlen : (data'.drop (data'.length - k)).length = k := by rw [List.length_drop]; omega
      obtain ⟨text, htext, hnilText⟩ := exists_text e (data'.take (data'.length - k))
      have hrest := Decoder.decodeRest_append ⟨e, [], k, m⟩ _ _ hlen htext hnilText s
      rw [List.take_append_drop] at hrest
      refine ⟨_, _, by dsimp only; rw [if_neg (by simpa using hnil), htail, hrest], ?_⟩
      rcases hkm with ⟨rfl, rfl⟩ | ⟨hk, hm⟩
      · rw [List.length_eq_zero_iff.mp hlen]
        exact .inl rfl
      · exact .inr ⟨rfl, hlen, hk, hm⟩
  · obtain ⟨s, hs⟩ := makeString_lossy d.encoder data
    exact ⟨s, d, by rw [hs], h⟩

theorem flush_fresh_iff [Codecs] : d.flush.2 = .fresh e ↔ (e = .utf16le → d.bufferedBytes ≠ 1) := by
  rcases h with rfl | ⟨rfl, hlen, hpos, -⟩
  · exact iff_of_true (by cases e <;> rfl) fun _ => Nat.zero_ne_one
  unfold Decoder.flush
  by_cases hodd : d.encoder = .utf16le ∧ d.bufferedBytes % 2 = 1
  · rw [if_pos hodd]
    dsimp only
    by_cases hone : d.bufferedBytes = 1
    · refine iff_of_false (fun heq => ?_) (fun h => h hodd.1 hone)
      rw [hone, if_pos rfl] at heq
      have hnil : d.buffer = [] := congrArg Decoder.buffer heq
      rw [hnil, hone] at hlen
      cases hlen
    · rw [if_neg (by omega)]
      exact iff_of_true rfl fun _ => hone
  · rw [if_neg hodd, if_neg (by omega)]
    exact iff_of_true rfl fun he hone => hodd ⟨he, by omega⟩

theorem end_snd [Codecs] :
    Sound e (d.beforeFlush buffer) ∧ (d.end buffer).2 = (d.beforeFlush buffer).flush.2 := by
  cases buffer with
  | none => exact ⟨h, rfl⟩
  | some data =>
    obtain ⟨s, d', hdec, hd'⟩ := decodeData_sound h data
    unfold Decoder.beforeFlush Decoder.end
    dsimp only
    rw [hdec]
    exact ⟨hd', rfl⟩

theorem end_fresh_iff [Codecs] : (d.end buffer).2 = .fresh e ↔
    (e = .utf16le → (d.beforeFlush buffer).bufferedBytes ≠ 1) := by
  obtain ⟨hsound, heq⟩ := end_snd h buffer
  rw [heq]
  exact flush_fresh_iff hsound

theorem write_sound [Codecs] : Sound e (d.write buffer).2 := by
  cases buffer with
  | none => exact h
  | some data =>
    obtain ⟨s, d', hdec, hd'⟩ := decodeData_sound h data
    unfold Decoder.write
    dsimp only
    rw [hdec]
    exact hd'

end

theorem after_concat [Codecs] (d : Decoder) (calls : List Call) (c : Call) :
    d.after (calls ++ [c]) = ((d.after calls).call c).2 := by
  unfold Decoder.after
  rw [List.foldl_append]
  rfl

/-- The counters stay in order as long as every `end` leaves a new decoder, or is not reached with
one byte of UTF-16. -/
theorem after_sound [Codecs] (e : Encoder) (calls : List Call)
    (h : ∀ before buffer, before ++ [.end buffer] <+: calls →
      (Decoder.fresh e).after (before ++ [.end buffer]) = .fresh e ∨
        (e = .utf16le → (((Decoder.fresh e).after before).beforeFlush buffer).bufferedBytes ≠ 1)) :
    Sound e ((Decoder.fresh e).after calls) := by
  induction calls using List.reverseRecOn with
  | nil => exact .inl rfl
  | append_singleton calls c ih =>
    have hcalls := ih fun before buffer hp => h before buffer (hp.trans (List.prefix_append _ _))
    cases c with
    | write buffer =>
      rw [after_concat]
      exact write_sound hcalls buffer
    | «end» buffer =>
      rcases h calls buffer List.prefix_rfl with hfresh | hheld
      · exact .inl hfresh
      · rw [after_concat]
        exact .inl ((end_fresh_iff hcalls buffer).mpr hheld)

/-- **What `end` leaves**: for every encoding and every history of calls, after each `end` the
decoder is a new one, if and only if no `end` finds a UTF-16 decoder with exactly one byte held. -/
theorem end_resets_iff [Codecs] (e : Encoder) (calls : List Call) :
    (∀ before buffer, before ++ [.end buffer] <+: calls →
      (Decoder.fresh e).after (before ++ [.end buffer]) = .fresh e) ↔
    ∀ before buffer, before ++ [.end buffer] <+: calls → e = .utf16le →
      (((Decoder.fresh e).after before).beforeFlush buffer).bufferedBytes ≠ 1 := by
  have hiff (before buffer) (h : Sound e ((Decoder.fresh e).after before)) :=
    end_fresh_iff h buffer
  have hbefore {before calls : List Call} {c : Call} (h : before ++ [c] <+: calls) :
      before <+: calls :=
    (List.prefix_append _ _).trans h
  constructor
  · intro h before buffer hp
    have hfresh := h before buffer hp
    rw [after_concat] at hfresh
    refine (hiff before buffer (after_sound e before fun b c hb => ?_)).mp hfresh
    exact .inl (h b c (hb.trans (hbefore hp)))
  · intro h before buffer hp
    rw [after_concat]
    refine (hiff before buffer (after_sound e before fun b c hb => ?_)).mpr (h before buffer hp)
    exact .inr (h b c (hb.trans (hbefore hp)))

/-- A byte is written and `end` called; the byte is then decoded with the next character. -/
theorem end_keeps_byte :
    letI := standardCodecs
    ∃ d, d = (Decoder.fresh .utf16le).after [.write (some [0x61]), .end none] ∧
      d ≠ .fresh .utf16le ∧
      d.writeAll [[0x62], [0x00]] none = .ok [Char.ofNat 0x6261] ∧
      (Decoder.fresh .utf16le).writeAll [[0x62], [0x00]] none = .ok ['b'] :=
  ⟨_, rfl, by decide, by decide, by decide⟩

end RasterRuntime.StringDecoder
