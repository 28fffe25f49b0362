import RasterRuntime.StringDecoder.Decoder

/-! # `StringDecoder` for UTF-8 is the lossy decoding of the whole

Every cut the decoder makes is one where the lossy decoder can be run on the two parts separately:
before a byte that is no continuation byte, or where the bytes before do not end in the middle of a
character (`Utf8.pending` is empty). -/

namespace RasterRuntime.StringDecoder

open Text Encoding
open List (append_assoc append_nil cons length_append length_cons)
open Text.Utf8 (forall_byte isCont width pending fromUtf8Lossy IsStart)

/-! ### The tests on bytes -/

theorem isTrailing_eq (b : UInt8) : isTrailing b = isCont b := by
  revert b
  exact forall_byte (by decide +kernel)

theorem width_of_leadLength (b : UInt8) :
    (∀ n, leadLength b = some n → isCont b = false ∧ width b ≤ n ∧ n ≤ 4) ∧
      (leadLength b = none → width b ≤ 1) := by
  have h : ∀ b : UInt8, ((leadLength b).all fun n =>
      !isCont b && decide (width b ≤ n) && decide (n ≤ 4)) ∧
      ((leadLength b).isNone → width b ≤ 1) :=
    forall_byte (by decide +kernel)
  obtain ⟨h1, h2⟩ := h b
  refine ⟨fun n hn => ?_, fun hn => h2 (by rw [hn]; rfl)⟩
  rw [hn] at h1
  simp only [Option.all_some, Bool.and_eq_true, Bool.not_eq_true', decide_eq_true_eq] at h1
  exact ⟨h1.1.1, h1.1.2, h1.2⟩

theorem width_of_ascii {b : UInt8} (h : (b &&& 0x80 != 0) = false) :
    isCont b = false ∧ width b ≤ 1 := by
  have hall : ∀ b : UInt8, (b &&& 0x80 != 0) = false → isCont b = false ∧ width b ≤ 1 :=
    forall_byte (by decide +kernel)
  exact hall b h

theorem width_le (b : UInt8) : width b ≤ 4 := by
  unfold width
  split_ifs <;> omega

/-! ### Where nothing is cut -/

theorem isStart_cases {p : List UInt8} (h : IsStart p) :
    ∃ b c, p = b :: c ∧ isCont b = false ∧ (∀ x ∈ c, isCont x) ∧
      (b :: c).length < width b := by
  obtain ⟨hne, hcont, hshort⟩ := h
  rcases p with _ | ⟨b, c⟩
  · exact absurd rfl hne
  · have hl := hshort b rfl
    refine ⟨b, c, rfl, ?_, hcont, hl⟩
    by_contra hb
    rw [Utf8.width_of_isCont (by simpa using hb)] at hl
    omega

/-- The last byte that is no continuation byte is where an unfinished character starts. -/
theorem pending_eq_nil (pre : List UInt8) {c : List UInt8} {b : UInt8} (hb : isCont b = false)
    (hc : ∀ x ∈ c, isCont x) (hw : width b ≤ (b :: c).length) :
    pending (pre ++ b :: c) = [] := by
  rcases Utf8.isStart_pending (pre ++ b :: c) with h | h
  · exact h
  · exfalso
    have hsuf := Utf8.pending_suffix (pre ++ b :: c)
    obtain ⟨b', c', hp, hb', hc', hl⟩ := isStart_cases h
    rw [hp] at hsuf
    rcases List.suffix_or_suffix_of_suffix hsuf (List.suffix_append pre (b :: c)) with hs | hs
    · -- the start lies in `b :: c`, so it is all of it
      rcases List.suffix_cons_iff.mp hs with heq | hs'
      · rw [cons.injEq] at heq
        rw [heq.1, heq.2] at hl
        omega
      · have := hc b' (hs'.subset (by simp))
        rw [hb'] at this
        simp at this
    · rcases List.suffix_cons_iff.mp hs with heq | hs'
      · rw [cons.injEq] at heq
        rw [← heq.1, ← heq.2] at hl
        omega
      · have := hc' b (hs'.subset (by simp))
        rw [hb] at this
        simp at this

/-- Four continuation bytes end no unfinished character, nor do continuation bytes only. -/
theorem pending_eq_nil_of_trailing {pre c : List UInt8} (hc : ∀ x ∈ c, isCont x)
    (hl : 4 ≤ c.length ∨ pre = []) : pending (pre ++ c) = [] := by
  rcases Utf8.isStart_pending (pre ++ c) with h | h
  · exact h
  · exfalso
    have hsuf := Utf8.pending_suffix (pre ++ c)
    obtain ⟨b', c', hp, hb', -, hlt⟩ := isStart_cases h
    have hw := width_le b'
    rw [hp] at hsuf
    have hs : b' :: c' <:+ c := by
      rcases hl with hl | rfl
      · exact List.suffix_of_suffix_length_le hsuf (List.suffix_append pre c) (by omega)
      · exact hsuf
    have := hc b' (hs.subset (by simp))
    rw [hb'] at this
    simp at this

/-! ### What is held -/

/-- A lead byte and continuation bytes, fewer than it announces. -/
structure Unfinished (buffer : List UInt8) (missing : ℕ) : Prop where
  lead : ∃ b c n, buffer = b :: c ∧ isCont b = false ∧ (∀ x ∈ c, isCont x = true) ∧
    leadLength b = some n ∧ buffer.length + missing = n
  pos : 0 < missing

/-- **The decoder holds nothing, or the start of a character.** -/
def Held (d : Decoder) : Prop :=
  d = .fresh .utf8 ∨ (d = ⟨.utf8, d.buffer, d.buffer.length, d.missingBytes⟩ ∧
    Unfinished d.buffer d.missingBytes)

theorem makeString_utf8 [Codecs] (data : List UInt8) :
    makeString .utf8 data = .ok (fromUtf8Lossy data) := rfl

/-- The loop over the last bytes: `c` have been seen, and are continuation bytes. -/
theorem findLead_eq : ∀ (rev c : List UInt8), rev ≠ [] → (∀ x ∈ c, isCont x) →
    c.length < 4 →
    (Decoder.findLead rev ⟨.utf8, [], c.length, 0⟩ = .fresh .utf8 ∧
        pending (rev.reverse ++ c) = []) ∨
      ∃ pre buf m, rev.reverse ++ c = pre ++ buf ∧ Unfinished buf m ∧
        Decoder.findLead rev ⟨.utf8, [], c.length, 0⟩ = ⟨.utf8, [], buf.length, m⟩
  | [], _, h, _, _ => absurd rfl h
  | b :: rest, c, _, hc, hl => by
    have happ : (b :: rest).reverse ++ c = rest.reverse ++ b :: c := by simp
    unfold Decoder.findLead
    dsimp only
    rw [happ, isTrailing_eq]
    by_cases hb : isCont b
    · have hbc : ∀ x ∈ b :: c, isCont x := List.forall_mem_cons.mpr ⟨hb, hc⟩
      rw [if_pos hb]
      by_cases hend : (decide (4 ≤ c.length + 1) || rest.isEmpty)
      · rw [if_pos hend]
        refine .inl ⟨rfl, pending_eq_nil_of_trailing hbc ?_⟩
        simp only [Bool.or_eq_true, decide_eq_true_eq, List.isEmpty_iff] at hend
        rcases hend with h4 | h0
        · exact .inl h4
        · exact .inr (by rw [h0]; rfl)
      · rw [if_neg hend]
        simp only [Bool.or_eq_true, decide_eq_true_eq, List.isEmpty_iff, not_or] at hend
        exact findLead_eq rest (b :: c) hend.2 hbc (by simp only [length_cons]; omega)
    · have hb' : isCont b = false := by simpa using hb
      rw [if_neg hb]
      rcases hn : leadLength b with _ | n
      · have hw := (width_of_leadLength b).2 hn
        exact .inl ⟨rfl, pending_eq_nil _ hb' hc (by simp only [length_cons]; omega)⟩
      · obtain ⟨-, hw, -⟩ := (width_of_leadLength b).1 n hn
        dsimp only
        by_cases hlen : n ≤ c.length + 1
        · rw [if_pos hlen]
          exact .inl ⟨rfl, pending_eq_nil _ hb' hc (by simp only [length_cons]; omega)⟩
        · rw [if_neg hlen]
          refine .inr ⟨rest.reverse, b :: c, n - (c.length + 1), rfl,
            ⟨⟨b, c, n, rfl, hb', hc, hn, ?_⟩,
            by omega⟩, rfl⟩
          simp only [length_cons]
          omega

variable {data : List UInt8} {d : Decoder}

/-- **The end of a chunk**: nothing is cut off where nothing is unfinished, or a start is. -/
theorem holdTail_eq (hd : data ≠ []) :
    ((Decoder.fresh .utf8).holdTail data = .fresh .utf8 ∧ pending data = []) ∨
      ∃ pre buf m, data = pre ++ buf ∧ Unfinished buf m ∧
        (Decoder.fresh .utf8).holdTail data = ⟨.utf8, [], buf.length, m⟩ := by
  have hfind := findLead_eq data.reverse [] (by simpa using hd) (by simp) (by simp)
  rw [List.reverse_reverse, append_nil] at hfind
  have htail : (Decoder.fresh .utf8).holdTail data =
      if data.getLast?.any fun b => b &&& 0x80 != 0 then
        Decoder.findLead data.reverse (.fresh .utf8) else .fresh .utf8 := rfl
  rw [htail]
  by_cases hlast : (data.getLast?.any fun b => b &&& 0x80 != 0)
  · rw [if_pos hlast]
    exact hfind
  · -- the last byte is an ASCII character
    rw [if_neg hlast]
    obtain ⟨pre, b, rfl⟩ : ∃ pre b, data = pre ++ [b] :=
      ⟨data.dropLast, data.getLast hd, (List.dropLast_append_getLast hd).symm⟩
    rw [List.getLast?_concat] at hlast
    obtain ⟨hb, hw⟩ := width_of_ascii (b := b) (by simpa using hlast)
    exact .inl ⟨rfl, pending_eq_nil _ hb (by simp) (by simpa using hw)⟩

/-! ### One chunk -/

/-- The held character: it is finished, or given up before a byte that does not belong to it, or all
bytes of the chunk go to it. -/
theorem finishCharacter_utf8 [Codecs] (h : Held d) (data x : List UInt8) : ∃ s data' d',
    d.finishCharacter data = (.ok s, data', d') ∧ Held d' ∧ (data' ≠ [] → d' = .fresh .utf8) ∧
      fromUtf8Lossy (d.buffer ++ (data ++ x)) =
        s ++ fromUtf8Lossy (d'.buffer ++ (data' ++ x)) := by
  rcases h with rfl | ⟨hd, ⟨b, c, n, hbuf, hb, hc, hn, hlen⟩, hpos⟩
  · exact ⟨[], data, .fresh .utf8, rfl, .inl rfl, fun _ => rfl, rfl⟩
  have he : d.encoder = .utf8 := by rw [hd]
  have hw := ((width_of_leadLength b).1 n hn).2.1
  unfold Decoder.finishCharacter Decoder.align
  rw [if_neg (by omega), he]
  dsimp only
  rcases hi : (data.take d.missingBytes).findIdx? fun b => !isTrailing b with _ | i
  · -- continuation bytes only
    have hall : ∀ c ∈ data.take d.missingBytes, isCont c := by
      intro c hc
      have := List.findIdx?_eq_none_iff.mp hi c hc
      rw [isTrailing_eq] at this
      simpa using this
    by_cases hle : d.missingBytes ≤ data.length
    · have hp : pending (d.buffer ++ data.take d.missingBytes) = [] := by
        rw [hbuf] at hlen ⊢
        refine pending_eq_nil [] hb (List.forall_mem_append.mpr ⟨hc, hall⟩) ?_
        change width b ≤ (b :: (c ++ data.take d.missingBytes)).length
        simp only [length_cons, length_append, List.length_take] at hlen ⊢
        omega
      refine ⟨_, _, _, Decoder.fill_of_le hle (by rw [he]; rfl), .inl (by rw [he]),
        fun _ => by rw [he], ?_⟩
      rw [append_take_drop, Utf8.lossy_append_of_pending hp]
      rfl
    · have hlt : data.length < d.missingBytes := by omega
      rw [List.take_of_length_le (by omega)] at hall
      refine ⟨_, _, _, Decoder.fill_of_lt hlt, .inr ⟨?_, ⟨b, c ++ data, n, ?_, hb,
        List.forall_mem_append.mpr ⟨hc, hall⟩, hn, ?_⟩, ?_⟩, fun h => absurd rfl h, ?_⟩
      · rw [hd, length_append]
      · rw [hbuf]; rfl
      · simp only [length_append]; omega
      · show 0 < d.missingBytes - data.length
        omega
      · simp
  · -- a byte that does not belong to the character
    obtain ⟨hlt, hnot, -⟩ := List.findIdx?_eq_some_iff_getElem.mp hi
    have hidata : i < data.length := by
      rw [List.length_take] at hlt; omega
    have hcont : isCont data[i] = false := by
      rw [List.getElem_take, isTrailing_eq] at hnot
      simpa using hnot
    have hfill := Decoder.fill_of_le (d := ⟨.utf8, d.buffer ++ data.take i, d.bufferedBytes + i, 0⟩)
      (Nat.zero_le (data.drop i).length) rfl
    simp only [List.take_zero, append_nil, List.drop_zero] at hfill
    refine ⟨_, _, _, hfill, .inl rfl, fun _ => rfl, ?_⟩
    rw [append_take_drop _ _ _ i, List.drop_eq_getElem_cons hidata, List.cons_append,
      Utf8.lossy_append_of_isCont hcont]
    rfl

theorem flush_utf8 [Codecs] (h : Held d) :
    d.flush = (.ok (fromUtf8Lossy d.buffer), .fresh .utf8) := by
  rcases h with rfl | ⟨hd, ⟨b, c, n, hbuf, -⟩, -⟩
  · rfl
  · rw [hd, hbuf]
    rfl

theorem utf8Scheme [Codecs] : Scheme .utf8 fromUtf8Lossy fun _ => Held where
  cutting := .inl rfl
  make := makeString_utf8
  nil := rfl
  encoder := fun h => by
    rcases h with rfl | ⟨hd, -⟩
    · rfl
    · rw [hd]
  finish := fun h => finishCharacter_utf8 h _ _
  tail := fun {data rest} hd _ => by
    rcases holdTail_eq hd with ⟨htail, hp⟩ | ⟨pre, buf, m, rfl, hu, htail⟩
    · exact ⟨data, [], 0, (append_nil _).symm, htail, .inl rfl,
        Utf8.lossy_append_of_pending hp rest⟩
    · refine ⟨pre, buf, m, rfl, htail, .inr ⟨rfl, hu⟩, ?_⟩
      obtain ⟨⟨b, c, n, hbuf, hb, -⟩, -⟩ := hu
      rw [hbuf, List.cons_append, Utf8.lossy_append_of_isCont hb]
  flush := fun h => by rw [flush_utf8 h]

/-- **UTF-8**: for every byte string and every way to cut it into chunks, what `write` gives for the
chunks and `end` at last is the lossy decoding of the whole. -/
theorem writeAll_utf8 [Codecs] (chunks : List (List UInt8)) (last : Option (List UInt8)) :
    (Decoder.fresh .utf8).writeAll chunks last =
      .ok (fromUtf8Lossy (chunks.flatten ++ last.getD [])) :=
  utf8Scheme.writeAll last chunks _ (.inl rfl)

example : Decoder.new (some "utf8") = .ok (.fresh .utf8) := by decide

end RasterRuntime.StringDecoder
