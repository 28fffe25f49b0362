import RasterRuntime.Fallible
import RasterRuntime.QueryString.Escapes
import RasterRuntime.QueryString.Model

/-! # The scanner in encoded texts

What the loop of `parse` does in a key or a value that was encoded: such a text has no separator and
no plus in it, so only what is known about escapes changes. -/

namespace RasterRuntime.QueryString

open Encoding (Codecs)
open Text.Utf16 (encode)

/-! ### Encoded texts -/

/-- A string and what it is encoded to. -/
def Encodes (s t : Str) : Prop := ∃ cs, s = encode cs ∧ t = cs.flatMap encodePiece

/-- No half of a surrogate pair is in the string. -/
def WellFormed (s : Str) : Prop := (Text.Utf16.fromUtf16 s).isSome = true

instance : DecidablePred WellFormed := fun _ => inferInstanceAs (Decidable (_ = true))

theorem WellFormed.encodes {s : Str} (h : WellFormed s) : ∃ t, Encodes s t := by
  obtain ⟨cs, hcs⟩ := Option.isSome_iff_exists.mp h
  exact ⟨_, cs, (Text.Utf16.encode_of_fromUtf16 hcs).symm, rfl⟩

section Encodes

variable {s t : Str} (h : Encodes s t)
include h

theorem Encodes.encodeStringified : encodeStringified (.string s) qsEscape = some t := by
  obtain ⟨cs, rfl, rfl⟩ := h
  rw [QueryString.encodeStringified]
  split_ifs with hs
  · cases cs with
    | nil => rfl
    | cons c cs =>
      have := congrArg List.length hs
      rw [Text.Utf16.encode_cons, Text.Utf16.encodeChar] at this
      split_ifs at this <;> simp at this
  · exact encodeStr_encode cs

theorem Encodes.escaped : Escaped t := by
  obtain ⟨cs, rfl, rfl⟩ := h
  exact escaped_pieces cs

/-- A part that is decoded if an escape was noticed in it. -/
theorem Encodes.decodePart [Codecs] {encoded : Bool} (he : encoded ∨ 37 ∉ t) :
    decodePart t encoded (fun s => qsUnescape s none) = some s := by
  obtain ⟨cs, rfl, rfl⟩ := h
  unfold QueryString.decodePart
  split_ifs with hc
  · rw [decodeStr, qsUnescape, decodeURIComponent_encode]
  · rw [Bool.and_eq_true, not_and_or] at hc
    rcases hc with hc | hc
    · cases cs with
      | nil => rfl
      | cons c cs =>
        have := length_le_pieces (c :: cs)
        rw [List.length_cons] at this
        exact absurd (decide_eq_true (by omega)) hc
    · rw [pieces_eq_of_no_percent (he.resolve_left hc)]

end Encodes

/-! ### The scanner -/

section Scanner

variable (p : Parsing)

theorem loop_append [Codecs] (a b : Str) (i : ℕ) (s : Scan) :
    p.loop i (a ++ b) s = p.loop i a s >>= p.loop (i + a.length) b := by
  induction a generalizing i s with
  | nil => rfl
  | cons c a ih =>
    rw [List.cons_append, Parsing.loop, Parsing.loop, List.length_cons]
    cases p.step i c s with
    | error r => rfl
    | ok s' =>
      refine (ih (i + 1) s').trans ?_
      rw [show i + 1 + a.length = i + (a.length + 1) by omega]
      rfl

/-- A code unit that is no separator and no plus. -/
structure Inner (c : UInt16) : Prop where
  ne_sep : c ≠ 38
  ne_eq : c ≠ 61
  ne_plus : c ≠ 43

variable {c : UInt16}

theorem inner_of_table {f : UInt16 → Bool} (hf : [38, 61, 43, 37].any f = false) (h : f c) :
    Inner c ∧ c ≠ 37 := by
  have hne : ∀ d ∈ [38, 61, 43, 37], c ≠ d := by
    rintro d hd rfl
    exact List.any_eq_false.mp hf c hd h
  simp only [List.forall_mem_cons] at hne
  exact ⟨⟨hne.1, hne.2.1, hne.2.2.1⟩, hne.2.2.2.1⟩

theorem inner_of_noEscape (h : noEscape c) : Inner c ∧ c ≠ 37 := inner_of_table rfl h

theorem inner_of_isHexTable (h : isHexTable c) : Inner c ∧ c ≠ 37 := inner_of_table rfl h

/-- The state but for what was noticed about escapes. -/
def Scan.noticed (s : Scan) (keyEncoded valEncoded : Bool) (encodeCheck : ℕ) : Scan :=
  { s with keyEncoded := keyEncoded, valEncoded := valEncoded, encodeCheck := encodeCheck }

/-- In a key (0) or in a value (1), outside of the separators. -/
def Scan.At (e : ℕ) (s : Scan) : Prop := s.sepIdx = 0 ∧ s.eqIdx = e

/-- Only what was noticed changes; what is known about the key, and the flag, are not forgotten. -/
structure Kept (flag : Scan → Bool) (s s' : Scan) : Prop where
  rest : ∃ ke ve ec, s' = s.noticed ke ve ec
  key : s.keyEncoded → s'.keyEncoded
  flag : flag s → flag s'

/-- What the loop does in a key or a value: it calls `scan` for each unit, and `flag` says that an
escape was noticed. -/
structure Scans [Codecs] (e : ℕ) (scan : ℕ → UInt16 → Scan → Scan) (flag : Scan → Bool) : Prop where
  cons : ∀ {c s}, Scan.At e s → Inner c → ∀ i rest,
    p.loop i (c :: rest) s = p.loop (i + 1) rest (scan i c s)
  kept : ∀ {c}, Inner c → ∀ i s, Kept flag s (scan i c s)
  percent : ∀ i s, ¬ flag s → (scan i 37 s).encodeCheck = 1
  hex : ∀ {c}, isHexTable c → ∀ i s, ¬ flag s → 0 < s.encodeCheck →
    (scan i c s).encodeCheck = s.encodeCheck + 1 ∧ (s.encodeCheck = 2 → flag (scan i c s))

theorem percent_inner : Inner 37 := ⟨by decide, by decide, by decide⟩

variable {e : ℕ} {flag : Scan → Bool} {s s' : Scan}

theorem Kept.at (h : Kept flag s s') (hs : s.At e) : s'.At e := by
  obtain ⟨_, _, _, rfl⟩ := h.rest
  exact hs

theorem Kept.trans {s'' : Scan} (h : Kept flag s s') (h' : Kept flag s' s'') : Kept flag s s'' := by
  refine ⟨?_, h'.key ∘ h.key, h'.flag ∘ h.flag⟩
  obtain ⟨_, _, _, rfl⟩ := h.rest
  exact h'.rest

/-- An encoded text is gone through, and an escape in it is noticed. -/
theorem Scans.loop [Codecs] {scan : ℕ → UInt16 → Scan → Scan} (h : Scans p e scan flag) {t : Str}
    (ht : Escaped t)
    (i : ℕ) (hs : s.At e) : ∃ s', p.loop i t s = .ok s' ∧ Kept flag s s' ∧ (flag s' ∨ 37 ∉ t) := by
  induction ht generalizing i s with
  | nil => exact ⟨s, rfl, ⟨⟨_, _, _, rfl⟩, id, id⟩, .inr List.not_mem_nil⟩
  | @plain c rest hc _ ih =>
    obtain ⟨hinner, hp⟩ := inner_of_noEscape hc
    have hk := h.kept hinner i s
    obtain ⟨s', hloop, hk', hf⟩ := ih (i + 1) (hk.at hs)
    rw [h.cons hs hinner]
    exact ⟨s', hloop, hk.trans hk', hf.imp_right (List.not_mem_cons_of_ne_of_not_mem hp.symm)⟩
  | @hex high low rest hh hl _ ih =>
    have hhigh := (inner_of_isHexTable hh).1
    have hlow := (inner_of_isHexTable hl).1
    have hk := h.kept percent_inner i s
    have hk2 := hk.trans (h.kept hhigh (i + 1) _)
    have hk3 := hk2.trans (h.kept hlow (i + 2) _)
    have hflag : flag (scan (i + 2) low (scan (i + 1) high (scan i 37 s))) := by
      by_contra hn
      have hn2 := mt (h.kept hlow _ _).flag hn
      have hn1 := mt (h.kept hhigh _ _).flag hn2
      have h1 := h.percent i s (mt hk.flag hn1)
      have h2 := (h.hex hh (i + 1) _ hn1 (by omega)).1
      exact hn ((h.hex hl (i + 2) _ hn2 (by omega)).2 (by omega))
    obtain ⟨s', hloop, hk', -⟩ := ih (i + 3) (hk3.at hs)
    rw [h.cons hs percent_inner, h.cons (hk.at hs) hhigh, h.cons (hk2.at hs) hlow]
    exact ⟨s', hloop, hk3.trans hk', .inl (hk'.flag hflag)⟩

section

variable (hsep : p.sepCodes = [38]) (heq : p.eqCodes = [61])
include hsep heq

theorem scans_value [Codecs] : Scans p 1 p.scanValue Scan.valEncoded where
  cons := by
    rintro c ⟨⟩ ⟨⟨⟩, ⟨⟩⟩ hc i rest
    rw [Parsing.loop, Parsing.step, hsep, heq, if_neg (by simpa using hc.ne_sep.symm),
      if_neg (by simp)]
    rfl
  kept := by
    intro c hc i s
    unfold Parsing.scanValue
    rw [if_neg hc.ne_plus]
    split_ifs with hv
    all_goals exact ⟨⟨_, _, _, rfl⟩, id, fun h => by first | exact h | exact absurd h hv⟩
  percent := fun i s hv => by simp [Parsing.scanValue, hv]
  hex := fun hc i s hv hn => by
    obtain ⟨hinner, hp⟩ := inner_of_isHexTable hc
    simp [Parsing.scanValue, hinner.ne_plus, hp, hc, hv, hn]

theorem scans_key [Codecs] : Scans p 0 p.scanKey Scan.keyEncoded where
  cons := by
    rintro c ⟨⟩ ⟨⟨⟩, ⟨⟩⟩ hc i rest
    rw [Parsing.loop, Parsing.step, hsep, heq, if_neg (by simpa using hc.ne_sep.symm),
      if_pos (by simp), if_neg (by simpa using hc.ne_eq.symm)]
    rfl
  kept := by
    intro c hc i s
    have hrest (s : Scan) : Kept Scan.keyEncoded s (p.scanValue i c s) :=
      have h := (scans_value p hsep heq).kept hc i s
      ⟨h.rest, h.key, h.key⟩
    unfold Parsing.scanKey Parsing.scanKeyRest
    rw [if_neg hc.ne_plus, if_neg hc.ne_plus]
    split_ifs with hk
    · exact hrest s
    · exact ⟨⟨_, _, _, rfl⟩, id, id⟩
    · exact ⟨⟨_, _, _, rfl⟩, fun h => absurd h hk, fun h => absurd h hk⟩
    · have h := hrest { s with encodeCheck := 0 }
      exact ⟨h.rest, h.key, h.key⟩
    · exact hrest s
  percent := fun i s hk => by simp [Parsing.scanKey, hk]
  hex := fun hc i s hk hn => by simp [Parsing.scanKey, (inner_of_isHexTable hc).2, hc, hk, hn]

end

end Scanner

end RasterRuntime.QueryString
