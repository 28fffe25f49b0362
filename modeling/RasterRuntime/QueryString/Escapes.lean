import RasterRuntime.QueryString.Codec

/-! # Escapes are read back

* `encodeStr_encode`: a text is encoded character by character.
* `decodeURIComponent_encode`: `decodeURIComponent` gives back what was encoded.
* `Escaped`: what was encoded is made of escapes and of code units that need none. -/

namespace RasterRuntime.QueryString

open Text.Utf16 (encode encodeChar)
open List (append_assoc append_nil cons_append flatMap_cons flatMap_nil length_cons
  singleton_append)
open Text.Utf8 (tokens width)

/-- How a character is encoded. -/
def encodePiece (c : Char) : Str :=
  if c.toNat < 0x80 ∧ noEscape (UInt16.ofNat c.toNat) then [UInt16.ofNat c.toNat]
  else (String.utf8EncodeChar c).flatMap fun b => hexTable b.toNat

variable (c : Char)

theorem char_valid : c.toNat < 0xD800 ∨ (0xDFFF < c.toNat ∧ c.toNat < 0x110000) := c.valid

theorem toNat_unit {n : ℕ} (h : n < 65536) : (UInt16.ofNat n).toNat = n :=
  UInt16.toNat_ofNat_of_lt' h

theorem toNat_byte {n : ℕ} (h : n < 256) : (UInt8.ofNat n).toNat = n :=
  Text.Utf8.toNat_ofNat_of_lt h

theorem utf8EncodeChar_cases : (c.toNat < 0x80 ∧ String.utf8EncodeChar c = [UInt8.ofNat c.toNat]) ∨
    (0x80 ≤ c.toNat ∧ c.toNat < 0x800 ∧ String.utf8EncodeChar c =
      [UInt8.ofNat (0xC0 + c.toNat / 64), UInt8.ofNat (0x80 + c.toNat % 64)]) ∨
    (0x800 ≤ c.toNat ∧ c.toNat < 0x10000 ∧ String.utf8EncodeChar c =
      [UInt8.ofNat (0xE0 + c.toNat / 4096), UInt8.ofNat (0x80 + c.toNat / 64 % 64),
        UInt8.ofNat (0x80 + c.toNat % 64)]) ∨
    (0x10000 ≤ c.toNat ∧ String.utf8EncodeChar c =
      [UInt8.ofNat (0xF0 + c.toNat / 262144), UInt8.ofNat (0x80 + c.toNat / 4096 % 64),
        UInt8.ofNat (0x80 + c.toNat / 64 % 64), UInt8.ofNat (0x80 + c.toNat % 64)]) := by
  have hv := char_valid c
  have hc : c.val.toNat = c.toNat := rfl
  unfold String.utf8EncodeChar
  dsimp only
  rw [hc]
  generalize c.toNat = v at hv
  split_ifs with h1 h2 h3
  · exact .inl ⟨by omega, rfl⟩
  · refine .inr (.inl ⟨by omega, by omega, ?_⟩)
    rw [show v / 64 % 32 + 192 = 0xC0 + v / 64 by omega, show v % 64 + 128 = 0x80 + v % 64 by omega]
  · refine .inr (.inr (.inl ⟨by omega, by omega, ?_⟩))
    rw [show v / 4096 % 16 + 224 = 0xE0 + v / 4096 by omega,
      show v / 64 % 64 + 128 = 0x80 + v / 64 % 64 by omega,
      show v % 64 + 128 = 0x80 + v % 64 by omega]
  · refine .inr (.inr (.inr ⟨by omega, ?_⟩))
    rw [show v / 262144 % 8 + 240 = 0xF0 + v / 262144 by omega,
      show v / 4096 % 64 + 128 = 0x80 + v / 4096 % 64 by omega,
      show v / 64 % 64 + 128 = 0x80 + v / 64 % 64 by omega,
      show v % 64 + 128 = 0x80 + v % 64 by omega]

/-! ### Encoding -/

theorem encodeLoop_char (rest pending out : Str) :
    ∃ pending' out', out' ++ pending' = out ++ pending ++ encodePiece c ∧
      encodeLoop (encodeChar c ++ rest) pending out = encodeLoop rest pending' out' := by
  have hv := char_valid c
  have hunit (h : c.toNat < 0x10000) : encodeChar c = [UInt16.ofNat c.toNat] ∧
      (UInt16.ofNat c.toNat).toNat = c.toNat := ⟨if_pos h, toNat_unit h⟩
  unfold encodePiece
  rcases utf8EncodeChar_cases c with ⟨h, hu⟩ | ⟨h, h', hu⟩ | ⟨h, h', hu⟩ | ⟨h, hu⟩
  · obtain ⟨hc, hn⟩ := hunit (by omega)
    rw [hc, hu, singleton_append, encodeLoop.eq_def]
    dsimp only
    rw [hn, if_pos h]
    by_cases hne : noEscape (UInt16.ofNat c.toNat)
    · rw [if_pos hne, if_pos ⟨h, hne⟩]
      exact ⟨_, _, (append_assoc _ _ _).symm, rfl⟩
    · rw [if_neg hne, if_neg fun h => hne h.2]
      refine ⟨[], _, ?_, rfl⟩
      simp (disch := omega) only [append_nil, flatMap_cons, flatMap_nil, append_assoc, toNat_byte]
  · obtain ⟨hc, hn⟩ := hunit (by omega)
    rw [hc, hu, singleton_append, encodeLoop.eq_def, if_neg fun h => absurd h.1 (by omega)]
    dsimp only
    rw [hn, if_neg (by omega), if_pos h']
    refine ⟨[], _, ?_, rfl⟩
    simp (disch := omega) only [append_nil, flatMap_cons, flatMap_nil, append_assoc, toNat_byte]
  · obtain ⟨hc, hn⟩ := hunit (by omega)
    rw [hc, hu, singleton_append, encodeLoop.eq_def, if_neg fun h => absurd h.1 (by omega)]
    dsimp only
    rw [hn, if_neg (by omega), if_neg (by omega), if_pos (by simp; omega)]
    refine ⟨[], _, ?_, rfl⟩
    simp (disch := omega) only [append_nil, flatMap_cons, flatMap_nil, append_assoc, toNat_byte]
  · have hl : (UInt16.ofNat (0xD800 + (c.toNat - 0x10000) / 0x400)).toNat =
        0xD800 + (c.toNat - 0x10000) / 0x400 := toNat_unit (by omega)
    have ht : (UInt16.ofNat (0xDC00 + (c.toNat - 0x10000) % 0x400)).toNat =
        0xDC00 + (c.toNat - 0x10000) % 0x400 := toNat_unit (by omega)
    have hcode : 0x10000 + (0xD800 + (c.toNat - 0x10000) / 0x400) % 1024 * 1024 +
        (0xDC00 + (c.toNat - 0x10000) % 0x400) % 1024 = c.toNat := by omega
    rw [encodeChar, if_neg (by omega : ¬ c.toNat < 0x10000), cons_append, singleton_append, hu,
      encodeLoop.eq_def, if_neg fun h => absurd h.1 (by omega)]
    dsimp only
    rw [hl, ht, hcode, if_neg (by omega), if_neg (by omega), if_neg (by simp; omega)]
    refine ⟨[], _, ?_, rfl⟩
    simp (disch := omega) only [append_nil, flatMap_cons, flatMap_nil, append_assoc, toNat_byte]

variable (cs : List Char)

theorem encodeLoop_encode (pending out : Str) :
    encodeLoop (encode cs) pending out = some (out ++ pending ++ cs.flatMap encodePiece) := by
  induction cs generalizing pending out with
  | nil => rw [flatMap_nil, append_nil]; rfl
  | cons c cs ih =>
    obtain ⟨pending', out', hout, hloop⟩ := encodeLoop_char c (encode cs) pending out
    rw [Text.Utf16.encode_cons, hloop, ih, hout, flatMap_cons, append_assoc]

theorem encodeStr_encode : encodeStr (encode cs) = some (cs.flatMap encodePiece) :=
  encodeLoop_encode cs [] []

/-! ### Decoding -/

theorem unhexTable_hexDigit {d : ℕ} (h : d < 16) : unhexTable (hexDigit d) = some d := by
  have : ∀ d < 16, unhexTable (hexDigit d) = some d := by decide
  exact this d h

theorem hexByte_hexTable (b : UInt8) (rest : Str) :
    hexByte (hexTable b.toNat ++ rest) = some (b, rest) := by
  have hb := b.toNat_lt
  rw [hexTable, cons_append, cons_append, singleton_append, hexByte, if_pos rfl,
    unhexTable_hexDigit (by omega), unhexTable_hexDigit (by omega), Option.bind_some,
    Option.map_some,
    show 16 * (b.toNat / 16) + b.toNat % 16 = b.toNat by omega, UInt8.ofNat_toNat]

theorem hexBytes_hexTable (bs : List UInt8) (rest : Str) :
    hexBytes bs.length (bs.flatMap (fun b => hexTable b.toNat) ++ rest) = some (bs, rest) := by
  induction bs with
  | nil => rfl
  | cons b bs ih =>
    rw [length_cons, hexBytes, flatMap_cons, append_assoc, hexByte_hexTable,
      Option.bind_some, ih]
    rfl

theorem octetsUnits_utf8EncodeChar :
    octetsUnits (String.utf8EncodeChar c) = some (encodeChar c) := by
  have h := Text.Utf8.tokens_encode [c]
  rw [Text.Utf8.encode, List.flatMap_singleton] at h
  rw [octetsUnits, h]
  rfl

theorem decodeLoop_piece (fuel : ℕ) (rest : Str) : decodeLoop (fuel + 1) (encodePiece c ++ rest) =
      (decodeLoop fuel rest).map fun s => encodeChar c ++ s := by
  unfold encodePiece
  split_ifs with h
  · have hne : UInt16.ofNat c.toNat ≠ 37 := fun he => by
      rw [he] at h
      cases h.2
    rw [singleton_append, decodeLoop, if_neg hne, encodeChar, if_pos (by omega)]
    rfl
  · obtain ⟨b, bs, hu, hw, -⟩ := Text.Utf8.utf8EncodeChar_spec c
    have hloop : ∀ s : Str, decodeLoop (fuel + 1) (hexTable b.toNat ++ s) =
        (hexByte (hexTable b.toNat ++ s)).bind fun p =>
          (hexBytes (width p.1 - 1) p.2).bind fun q =>
            (octetsUnits (p.1 :: q.1)).bind fun u => (decodeLoop fuel q.2).map fun s => u ++ s :=
      fun s => by
        rw [hexTable, cons_append, decodeLoop, if_pos rfl]
    rw [hu, flatMap_cons, append_assoc, hloop, hexByte_hexTable, Option.bind_some,
      hw, Nat.add_sub_cancel, hexBytes_hexTable, Option.bind_some, ← hu,
      octetsUnits_utf8EncodeChar, Option.bind_some]

theorem decodeLoop_encode {fuel : ℕ} (h : cs.length ≤ fuel) :
    decodeLoop fuel (cs.flatMap encodePiece) = some (encode cs) := by
  induction cs generalizing fuel with
  | nil => cases fuel <;> rfl
  | cons c cs ih =>
    rw [length_cons] at h
    obtain ⟨fuel, rfl⟩ := Nat.exists_eq_succ_of_ne_zero (n := fuel) (by omega)
    rw [flatMap_cons, decodeLoop_piece, ih (by omega)]
    rfl

theorem encodePiece_ne_nil : encodePiece c ≠ [] := by
  unfold encodePiece
  split_ifs
  · exact List.cons_ne_nil _ _
  · obtain ⟨b, bs, hu⟩ := List.exists_cons_of_ne_nil (String.utf8EncodeChar_ne_nil (c := c))
    rw [hu]
    exact List.cons_ne_nil _ _

theorem length_le_pieces : cs.length ≤ (cs.flatMap encodePiece).length := by
  induction cs with
  | nil => exact Nat.le_refl 0
  | cons c cs ih =>
    rw [flatMap_cons, List.length_append, length_cons]
    have := List.length_pos_iff.mpr (encodePiece_ne_nil c)
    omega

/-- **Round trip**: what was encoded is decoded. -/
theorem decodeURIComponent_encode :
    decodeURIComponent (cs.flatMap encodePiece) = some (encode cs) :=
  decodeLoop_encode cs (length_le_pieces cs)

/-! ### The form of what was encoded -/

/-- Escapes and code units that need none. -/
inductive Escaped : Str → Prop
  | nil : Escaped []
  | plain {c : UInt16} {rest : Str} (hc : noEscape c = true) (h : Escaped rest) :
      Escaped (c :: rest)
  | hex {high low : UInt16} {rest : Str} (hh : isHexTable high = true) (hl : isHexTable low = true)
      (h : Escaped rest) : Escaped (37 :: high :: low :: rest)

theorem Escaped.hexTables {rest : Str} (h : Escaped rest) (bs : List UInt8) :
    Escaped (bs.flatMap (fun b => hexTable b.toNat) ++ rest) := by
  induction bs with
  | nil => exact h
  | cons b bs ih =>
    have hb := b.toNat_lt
    rw [flatMap_cons, append_assoc]
    refine .hex ?_ ?_ ih
    all_goals
      rw [isHexTable, unhexTable_hexDigit (by omega)]
      rfl

theorem escaped_pieces : Escaped (cs.flatMap encodePiece) := by
  induction cs with
  | nil => exact .nil
  | cons c cs ih =>
    rw [flatMap_cons, encodePiece]
    split_ifs with h
    · exact .plain h.2 ih
    · exact ih.hexTables _

theorem pieces_eq_of_no_percent {cs : List Char} (h : 37 ∉ cs.flatMap encodePiece) :
    cs.flatMap encodePiece = encode cs := by
  induction cs with
  | nil => rfl
  | cons c cs ih =>
    rw [flatMap_cons, List.mem_append, not_or] at h
    rw [flatMap_cons, ih h.2, Text.Utf16.encode_cons]
    congr 1
    have hp := h.1
    unfold encodePiece at hp ⊢
    split_ifs at hp ⊢ with hn
    · rw [encodeChar, if_pos (by omega)]
    · rcases utf8EncodeChar_cases c with ⟨-, hu⟩ | ⟨-, -, hu⟩ | ⟨-, -, hu⟩ | ⟨-, hu⟩
      all_goals
        rw [hu, flatMap_cons] at hp
        exact absurd (List.mem_append_left _ (.head _)) hp

end RasterRuntime.QueryString
