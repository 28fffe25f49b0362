import RasterRuntime.Json.EscapeText

/-! # Escaping lone surrogates

After a lone surrogate the place is two bytes ahead of the byte that is looked at: the surrogate's
own two continuation bytes are counted again. What needs no escape comes out right all the same,
since it is copied from where the last copy ended.

* `Begins`: what has been written and is to be copied stays at the beginning of the result.
* `late_iff`: two bytes ahead, the rest of a text comes out right exactly if nothing is written in
  it.
* `escape_items_iff`: the texts that are escaped right. -/

namespace RasterRuntime.Json

open Text.Utf8

/-! ### Texts with lone surrogates -/

/-- A character, or half of a surrogate pair that stands alone. -/
inductive CodePoint where
  | char (c : Char)
  | lone (u : Fin 2048)

/-- Generalized UTF-8. -/
def CodePoint.encoded : CodePoint → Bytes
  | .char c => String.utf8EncodeChar c
  | .lone u => [0xED, UInt8.ofNat (0xA0 + u.val / 64), UInt8.ofNat (0x80 + u.val % 64)]

/-- What is to be written for it. -/
def CodePoint.escaped : CodePoint → Bytes
  | .char c => (String.utf8EncodeChar c).flatMap escapeByte
  | .lone u => ascii "\\u" ++ [0xD800 / 4096, (0xD800 + u.val) / 256 % 16,
      (0xD800 + u.val) / 16 % 16, (0xD800 + u.val) % 16].map hexDigit

def encoded (text : List CodePoint) : Bytes := text.flatMap CodePoint.encoded

def escaped (text : List CodePoint) : Bytes := text.flatMap CodePoint.escaped

/-- No byte after a lone surrogate makes something be written: there is no other one and nothing to
escape, and a character from U+D000 on, whose first byte is that of a surrogate, is not looked at or
has none outside ASCII after it. -/
def Undisturbed (bytes : Bytes) : ℕ → List CodePoint → Prop
  | _, [] => True
  | _, .lone _ :: _ => False
  | q, .char c :: post =>
    (String.utf8EncodeChar c).any needsEscape = false ∧
      ((String.utf8EncodeChar c).head? = some 0xED → looked bytes q →
        ∀ b ∈ (encoded post).head?, b.toNat < 0x80) ∧
      Undisturbed bytes (q + (String.utf8EncodeChar c).length) post

/-! ### What stays written -/

variable {bytes X Y l rest : Bytes} {look : ℕ → Bool} {e e' : Escaping} {k q : ℕ} {b : UInt8}

/-- The result is going to begin with `Y`: it has been written, or is up to the byte `k`. -/
def Begins (bytes Y : Bytes) (k : ℕ) (e : Escaping) : Prop :=
  Y <+: e.result ∨ e.start ≤ k ∧ k ≤ e.i ∧ Y = e.result ++ (bytes.take k).drop e.start

theorem Begins.pushRead (h : Begins bytes Y k e) {r : Bytes} (hr : e.pushRead bytes = some r) :
    Y <+: r := by
  unfold Escaping.pushRead slice at hr
  split_ifs at hr with hlt hle
  · obtain rfl := Option.some_inj.mp hr
    rcases h with h | ⟨-, hk, rfl⟩
    · exact h.trans (List.prefix_append _ _)
    · rw [List.prefix_append_right_inj, List.drop_take, List.drop_take]
      exact List.take_prefix_take_left (Nat.sub_le_sub_right hk _)
  · cases hr
  · obtain rfl := Option.some_inj.mp hr
    rcases h with h | ⟨hs, hk, rfl⟩
    · exact h
    · have hnone : (bytes.take k).drop e.start = [] := by
        rw [List.drop_take, Nat.sub_eq_zero_of_le (by omega), List.take_zero]
      simp only [hnone, List.append_nil, List.prefix_rfl]

theorem Begins.goOver (h : Begins bytes Y k e) (hgo : goOver bytes look q e b = some e') :
    Begins bytes Y k e' := by
  have hcount : Begins bytes Y k { e with i := e.i + 1 } := by
    rcases h with h | ⟨hs, hk, hY⟩
    · exact .inl h
    · exact .inr ⟨hs, Nat.le_succ_of_le hk, hY⟩
  have hwritten {r w : Bytes} (hr : e.pushRead bytes = some r) : Y <+: r ++ w :=
    (h.pushRead hr).trans (List.prefix_append _ _)
  unfold Json.goOver processByte at hgo
  split_ifs at hgo
  · obtain ⟨r, hr, rfl⟩ := Option.map_eq_some_iff.mp hgo
    exact .inl (hwritten hr)
  · obtain ⟨r, hr, rfl⟩ := Option.map_eq_some_iff.mp hgo
    exact .inl (hwritten hr)
  · exact Option.some_inj.mp hgo ▸ hcount
  · exact Option.some_inj.mp hgo ▸ hcount

/-- The result of going over the rest of the bytes. -/
def resultFrom (bytes : Bytes) (look : ℕ → Bool) (q : ℕ) (rest : Bytes) (e : Escaping) :
    Option Bytes :=
  (go bytes look q rest e).bind (Escaping.finish bytes)

theorem Begins.resultFrom (h : Begins bytes Y k e) (hk : k ≤ bytes.length) {rest out : Bytes}
    (hout : resultFrom bytes look q rest e = some out) : Y <+: out := by
  unfold Json.resultFrom at hout
  induction rest generalizing q e with
  | nil =>
    -- the last copy is one up to the end
    have hend : Begins bytes Y k { e with i := bytes.length } := by
      rcases h with h | ⟨hs, -, hY⟩
      · exact .inl h
      · exact .inr ⟨hs, hk, hY⟩
    exact hend.pushRead hout
  | cons b rest ih =>
    rw [go, Option.bind_assoc] at hout
    obtain ⟨e', hgo, hout⟩ := Option.bind_eq_some_iff.mp hout
    exact ih (h.goOver hgo) hout

/-! ### Bytes that are only counted -/

theorem goOver_count (hs : look q → isSurrogate bytes e.i b = false) (hn : needsEscape b = false) :
    goOver bytes look q e b = some { e with i := e.i + 1 } := by
  unfold goOver
  split_ifs with hl
  · rw [processByte, hs hl, if_neg Bool.false_ne_true, if_neg]
    exact fun hc => Bool.false_ne_true (hn.symm.trans (needsEscape_iff.mpr hc))
  · rfl

theorem isSurrogate_of_ne (hb : b ≠ 0xED) (i : ℕ) : isSurrogate bytes i b = false := by
  simp [isSurrogate, hb]

theorem go_count (h : ∀ b ∈ l, b ≠ 0xED ∧ needsEscape b = false) :
    go bytes look q l e = some { e with i := e.i + l.length } := by
  induction l generalizing q e with
  | nil => rfl
  | cons b l ih =>
    obtain ⟨⟨hb, hn⟩, hl⟩ := List.forall_mem_cons.mp h
    rw [go, goOver_count (fun _ => isSurrogate_of_ne hb _) hn, Option.bind_some, ih hl,
      List.length_cons, Nat.add_assoc, Nat.add_comm 1]

theorem needsEscape_of_le (h : 0x80 ≤ b.toNat) : needsEscape b = false := by
  unfold needsEscape
  simp only [Bool.or_eq_false_iff, decide_eq_false_iff_not]
  refine ⟨⟨by omega, ?_⟩, ?_⟩ <;> rintro rfl <;> exact absurd h (by decide)

theorem count_of_isCont (h : isCont b) : b ≠ 0xED ∧ needsEscape b = false :=
  ⟨ne_lead h, needsEscape_of_le (isCont_iff.mp h).1⟩

theorem go_count_cons (hs : look q → isSurrogate bytes e.i b = false)
    (hn : needsEscape b = false) (hl : ∀ y ∈ l, isCont y) :
    go bytes look q (b :: l) e = some { e with i := e.i + (b :: l).length } := by
  rw [go, goOver_count hs hn, Option.bind_some, go_count fun y hy => count_of_isCont (hl y hy),
    List.length_cons, Nat.add_assoc, Nat.add_comm 1]

/-- Of the bytes of a character only the first can ask for an escape. -/
theorem any_needsEscape_cons (hl : ∀ y ∈ l, isCont y) :
    (b :: l).any needsEscape = needsEscape b := by
  have hrest : l.any needsEscape = false :=
    List.any_eq_false.mpr fun y hy => Bool.eq_false_iff.mp (count_of_isCont (hl y hy)).2
  rw [List.any_cons, hrest, Bool.or_false]

theorem flatMap_escapeByte (h : l.any needsEscape = false) : l.flatMap escapeByte = l := by
  rw [List.any_eq_false] at h
  have hone : ∀ b ∈ l, escapeByte b = [b] :=
    fun b hb => escapeByte_of_needsEscape (Bool.eq_false_iff.mpr (h b hb))
  rw [List.flatMap_congr hone, List.flatMap_singleton']

theorem escapeByte_head : ∀ b : UInt8, needsEscape b →
    (escapeByte b).head? = some 92 ∧ ((escapeByte b)[1]? = some 92 → b = 92) ∧
      2 ≤ (escapeByte b).length :=
  forall_byte (by decide +kernel)

/-! ### Backslashes -/

theorem resultFrom_cons (q : ℕ) (b : UInt8) (rest : Bytes) (e : Escaping) :
    resultFrom bytes look q (b :: rest) e =
      (goOver bytes look q e b).bind (resultFrom bytes look (q + 1) rest) := by
  rw [resultFrom, go, Option.bind_assoc]
  rfl

theorem looked_of_needsEscape (hb : bytes[q]? = some b) (hn : needsEscape b) :
    looked bytes q = true := by
  by_contra h
  rw [needsEscape_of_looked hb (Bool.eq_false_iff.mpr h)] at hn
  cases hn

theorem goOver_escape (hb : bytes[q]? = some b) (hn : needsEscape b) :
    goOver bytes (looked bytes) q e b =
      (e.pushRead bytes).map fun r => ⟨r ++ escapeByte b, e.i + 1, e.i + 1⟩ := by
  have hc := needsEscape_iff.mp hn
  have hs : isSurrogate bytes e.i b = false := by
    refine isSurrogate_of_ne ?_ _
    rintro rfl
    cases hn
  rw [goOver, looked_of_needsEscape hb hn, if_pos rfl, processByte, hs, if_neg Bool.false_ne_true,
    if_pos hc, escapeByte, if_pos hc]

/-- Only a backslash is written as two. -/
theorem encoded_of_backslashes {x : CodePoint} {r : Bytes} (h : [92, 92] <+: x.escaped ++ r) :
    x.encoded = [92] ∧ x.escaped = [92, 92] := by
  cases x with
  | lone u =>
    obtain ⟨-, h⟩ := List.cons_prefix_cons.mp h
    cases (List.cons_prefix_cons.mp h).1
  | char c =>
    have h : [92, 92] <+: (String.utf8EncodeChar c).flatMap escapeByte ++ r := h
    change String.utf8EncodeChar c = [92] ∧ (String.utf8EncodeChar c).flatMap escapeByte = [92, 92]
    rcases utf8EncodeChar_cases c with ⟨b, hc, -⟩ | ⟨b, x, l, hc, hb, -⟩
    · rw [hc, List.flatMap_singleton] at h ⊢
      cases hn : needsEscape b with
      | true =>
        obtain ⟨-, hsecond, hlen⟩ := escapeByte_head b hn
        match hb : escapeByte b, hlen with
        | y :: z :: w, _ =>
          rw [hb] at h hsecond
          obtain ⟨-, h⟩ := List.cons_prefix_cons.mp h
          obtain ⟨rfl, -⟩ := List.cons_prefix_cons.mp h
          obtain rfl := hsecond rfl
          exact ⟨rfl, hb.symm⟩
      | false =>
        rw [escapeByte_of_needsEscape hn] at h
        obtain ⟨rfl, -⟩ := List.cons_prefix_cons.mp h
        cases hn
    · rw [hc, List.flatMap_cons, escapeByte_of_needsEscape (needsEscape_of_le (by omega))] at h
      obtain ⟨rfl, -⟩ := List.cons_prefix_cons.mp h
      exact absurd hb (by decide)

/-- Two backslashes too many, and nothing to be copied: there is no way back. -/
theorem ahead {post : List CodePoint} (hd : bytes.drop q = encoded post) (hstart : e.start = e.i)
    (hres : e.result = X ++ [92, 92]) :
    resultFrom bytes (looked bytes) q (encoded post) e ≠ some (X ++ escaped post) := by
  intro hout
  induction post generalizing q e X with
  | nil =>
    have hpre :=
      Begins.resultFrom (Y := e.result) (k := 0) (.inl List.prefix_rfl) (Nat.zero_le _) hout
    rw [hres, List.prefix_append_right_inj] at hpre
    cases List.prefix_nil.mp hpre
  | cons x post ih =>
    have hpre :=
      Begins.resultFrom (Y := e.result) (k := 0) (.inl List.prefix_rfl) (Nat.zero_le _) hout
    rw [hres, List.prefix_append_right_inj] at hpre
    obtain ⟨henc, hesc⟩ := encoded_of_backslashes hpre
    have hcons : encoded (x :: post) = 92 :: encoded post := by
      rw [encoded, List.flatMap_cons, henc]
      rfl
    rw [hcons] at hd hout
    obtain ⟨hb, hrest⟩ := getElem?_of_drop hd
    have hpush : e.pushRead bytes = some e.result := if_neg (by omega)
    rw [resultFrom_cons, goOver_escape hb rfl, hpush] at hout
    refine ih hrest rfl (X := X ++ [92, 92]) ?_ ?_ (e := ⟨e.result ++ [92, 92], e.i + 1, e.i + 1⟩)
    · rw [← hres]
    · rw [escaped, List.flatMap_cons, hesc, ← List.append_assoc] at hout
      exact hout

/-! ### Two bytes ahead -/

/-- The first byte of a code point is in ASCII, or there are more. -/
theorem CodePoint.encoded_head (x : CodePoint) :
    ∃ b r, x.encoded = b :: r ∧ (b.toNat < 0x80 ∨ 0xC2 ≤ b.toNat ∧ r ≠ []) := by
  cases x with
  | lone u => exact ⟨_, _, rfl, .inr ⟨by decide, List.cons_ne_nil _ _⟩⟩
  | char c =>
    rcases utf8EncodeChar_cases c with ⟨b, hc, hb⟩ | ⟨b, x, l, hc, hb, -⟩
    · exact ⟨b, [], hc, .inl hb⟩
    · exact ⟨b, _, hc, .inr ⟨hb, List.cons_ne_nil _ _⟩⟩

/-- The byte that is tested for a surrogate is the first one after the character. -/
theorem isSurrogate_iff {post : List CodePoint} (hd : bytes.drop (q + 1) = encoded post) :
    isSurrogate bytes q 0xED ↔ ∃ b ∈ (encoded post).head?, 0x80 ≤ b.toNat := by
  have hlen := congrArg List.length hd
  rw [List.length_drop] at hlen
  have hget : bytes.getD (q + 1) 0 = (encoded post).head?.getD 0 := by
    rw [List.getD_eq_getElem?_getD, ← List.head?_drop, hd]
  unfold isSurrogate
  rw [hget]
  cases post with
  | nil => simp [encoded]
  | cons x post =>
    obtain ⟨b, r, hx, hb⟩ := x.encoded_head
    have hcons : encoded (x :: post) = b :: (r ++ encoded post) := by
      rw [encoded, List.flatMap_cons, hx]
      rfl
    rw [hcons] at hlen ⊢
    simp only [List.length_cons, List.length_append] at hlen
    simp only [List.head?_cons, Option.getD_some, Option.mem_some_iff, exists_eq_left', decide_true,
      Bool.and_true, Bool.and_eq_true, decide_eq_true_eq]
    constructor
    · rintro ⟨-, h⟩
      have h := of_decide_eq_true h
      omega
    · intro h
      obtain ⟨hb, hr⟩ := hb.resolve_left (by omega)
      have hpos := List.length_pos_iff.mpr hr
      exact ⟨by omega, decide_eq_true (by omega)⟩

theorem drop_take_succ (hb : bytes[q]? = some b) (hstart : e.start ≤ q) :
    e.result ++ (bytes.take (q + 1)).drop e.start =
      e.result ++ (bytes.take q).drop e.start ++ [b] := by
  have hlt := (List.getElem?_eq_some_iff.mp hb).1
  rw [take_succ_of_getElem? hb, List.drop_append_of_le_length, List.append_assoc]
  rw [List.length_take]
  omega

/-- The place is two bytes ahead, and what is written and to be copied is right. -/
structure Late (bytes X : Bytes) (q : ℕ) (e : Escaping) : Prop where
  ahead : e.i = q + 2
  start : e.start ≤ q
  written : e.result ++ (bytes.take q).drop e.start = X

namespace Late

variable (h : Late bytes X q e)

include h

theorem count (hb : bytes[q]? = some b) :
    Late bytes (X ++ [b]) (q + 1) { e with i := e.i + 1 } where
  ahead := by rw [h.ahead]
  start := Nat.le_succ_of_le h.start
  written := (drop_take_succ hb h.start).trans (by rw [h.written])

theorem begins (hb : bytes[q]? = some b) : Begins bytes (X ++ [b]) (q + 1) e := by
  refine .inr ⟨Nat.le_succ_of_le h.start, by rw [h.ahead]; omega, ?_⟩
  rw [drop_take_succ hb h.start, h.written]

theorem pushRead {c : UInt8} (hb : bytes[q]? = some b) (hc : bytes[q + 1]? = some c) :
    e.pushRead bytes = some (X ++ [b, c]) := by
  have hstart := h.start
  have hlt : q + 2 ≤ bytes.length := (List.getElem?_eq_some_iff.mp hc).1
  rw [Escaping.pushRead, h.ahead, if_pos (by omega), slice, if_pos hlt, Option.map_some,
    drop_take_succ hc (by omega), drop_take_succ hb hstart, h.written, List.append_assoc]
  rfl

theorem counts (hd : bytes.drop q = l ++ rest) :
    Late bytes (X ++ l) (q + l.length) { e with i := e.i + l.length } := by
  induction l generalizing q e X with
  | nil =>
    rw [List.append_nil]
    exact h
  | cons b l ih =>
    obtain ⟨hb, hrest⟩ := getElem?_of_drop hd
    have hnext := ih (h.count hb) hrest
    rw [List.append_assoc, List.singleton_append] at hnext
    rw [List.length_cons, Nat.add_comm l.length, ← Nat.add_assoc, ← Nat.add_assoc]
    exact hnext

theorem finish (hd : bytes.drop q = []) : e.finish bytes = some X := by
  have hq : bytes.length ≤ q := List.drop_eq_nil_iff.mp hd
  have hwritten := h.written
  rw [List.take_of_length_le hq] at hwritten
  unfold Escaping.finish slice
  rw [if_pos (Nat.le_refl _), List.take_length, Option.map_some, hwritten]
  split_ifs with hs
  · rfl
  · rw [List.drop_eq_nil_of_le (Nat.not_lt.mp hs), List.append_nil] at hwritten
    rw [hwritten]

/-- A byte to escape disturbs: it is copied, and then escaped. -/
theorem not_escape {post : List CodePoint} (hd : bytes.drop q = b :: encoded post)
    (hn : needsEscape b) :
    resultFrom bytes (looked bytes) q (b :: encoded post) e ≠
      some (X ++ (escapeByte b ++ escaped post)) := by
  intro hout
  obtain ⟨hb, hrest⟩ := getElem?_of_drop hd
  have hlt : q < bytes.length := (List.getElem?_eq_some_iff.mp hb).1
  have hpre := (h.begins hb).resultFrom hlt hout
  rw [List.prefix_append_right_inj] at hpre
  -- only a backslash is copied and right at first
  obtain rfl : b = 92 := by
    obtain ⟨hhead, -, hlen⟩ := escapeByte_head b hn
    match hb : escapeByte b, hlen with
    | y :: z :: w, _ =>
      rw [hb] at hhead hpre
      obtain ⟨rfl, -⟩ := List.cons_prefix_cons.mp hpre
      exact Option.some_inj.mp hhead
  have hstart := h.start
  have hi := h.ahead
  rw [resultFrom_cons, goOver_escape hb hn] at hout
  obtain ⟨e', hstep, hrun⟩ := Option.bind_eq_some_iff.mp hout
  obtain ⟨r, hr, rfl⟩ := Option.map_eq_some_iff.mp hstep
  have hlen : q + 2 ≤ bytes.length := by
    by_contra hlen
    rw [Escaping.pushRead, if_pos (by omega), slice, if_neg (by omega)] at hr
    cases hr
  obtain ⟨c, hc⟩ : ∃ c, bytes[q + 1]? = some c := ⟨_, List.getElem?_eq_getElem hlen⟩
  obtain rfl : X ++ [92, c] = r := Option.some_inj.mp ((h.pushRead hb hc).symm.trans hr)
  have hpre : X ++ [92, c] <+: X ++ ([92, 92] ++ escaped post) := by
    exact Begins.resultFrom (k := 0) (.inl (List.prefix_append _ _)) (Nat.zero_le _) hrun
  rw [List.prefix_append_right_inj] at hpre
  obtain ⟨-, hpre⟩ := List.cons_prefix_cons.mp hpre
  obtain ⟨rfl, -⟩ := List.cons_prefix_cons.mp hpre
  refine Json.ahead (X := X ++ [92, 92]) hrest rfl rfl (hrun.trans ?_)
  rw [List.append_assoc]
  rfl

theorem not_lone {u : Fin 2048} (hd : bytes.drop q = (CodePoint.lone u).encoded ++ rest)
    (w : Bytes) :
    resultFrom bytes (looked bytes) q ((CodePoint.lone u).encoded ++ rest) e ≠
      some (X ++ ((CodePoint.lone u).escaped ++ w)) := by
  intro hout
  obtain ⟨hb, -⟩ := getElem?_of_drop hd
  have hpre := (h.begins hb).resultFrom (List.getElem?_eq_some_iff.mp hb).1 hout
  rw [List.prefix_append_right_inj] at hpre
  cases (List.cons_prefix_cons.mp hpre).1

/-- A character whose first byte is taken for a surrogate disturbs. -/
theorem not_surrogate {x y : UInt8} (hd : bytes.drop q = 0xED :: x :: y :: rest)
    (hs : isSurrogate bytes e.i 0xED) (hl : looked bytes q) (hy : isCont y) (w : Bytes) :
    resultFrom bytes (looked bytes) q (0xED :: x :: y :: rest) e ≠
      some (X ++ ([0xED, x, y] ++ w)) := by
  intro hout
  obtain ⟨hb, hd⟩ := getElem?_of_drop hd
  obtain ⟨hx, -⟩ := getElem?_of_drop hd
  rw [resultFrom_cons, goOver, if_pos hl, processByte, if_pos hs, h.pushRead hb hx] at hout
  have hpre : X ++ [0xED, x] ++ [92] <+: X ++ ([0xED, x, y] ++ w) := by
    refine Begins.resultFrom (k := 0) (.inl ?_) (Nat.zero_le _) hout
    exact (List.prefix_append_right_inj _).mpr (List.prefix_append [92] _)
  rw [List.append_assoc, List.prefix_append_right_inj] at hpre
  obtain ⟨-, hpre⟩ := List.cons_prefix_cons.mp hpre
  obtain ⟨-, hpre⟩ := List.cons_prefix_cons.mp hpre
  obtain ⟨rfl, -⟩ := List.cons_prefix_cons.mp hpre
  cases hy

end Late

/-- The bytes of a character after the first one are only counted. -/
theorem utf8EncodeChar_cons (c : Char) : ∃ b l, String.utf8EncodeChar c = b :: l ∧
    (∀ y ∈ l, isCont y) ∧ (needsEscape b → l = []) ∧ (b = 0xED → l.length = 2) := by
  rcases utf8EncodeChar_cases c with ⟨b, hc, hb⟩ | ⟨b, x, l, hc, hb, hcont, hlead⟩
  · refine ⟨b, [], hc, fun y hy => absurd hy List.not_mem_nil, fun _ => rfl, ?_⟩
    rintro rfl
    exact absurd hb (by decide)
  · refine ⟨b, x :: l, hc, hcont, fun hn => ?_, fun h => congrArg (· + 1) (hlead h).2⟩
    rw [needsEscape_of_le (by omega)] at hn
    cases hn

theorem resultFrom_append (q : ℕ) (l rest : Bytes) (e : Escaping) :
    resultFrom bytes look q (l ++ rest) e =
      (go bytes look q l e).bind (resultFrom bytes look (q + l.length) rest) := by
  rw [resultFrom, go_append, Option.bind_assoc]
  rfl

/-- **Two bytes ahead**, the rest of a text comes out right exactly if nothing is written in it. -/
theorem late_iff {post : List CodePoint} (h : Late bytes X q e)
    (hd : bytes.drop q = encoded post) :
    resultFrom bytes (looked bytes) q (encoded post) e = some (X ++ escaped post) ↔
      Undisturbed bytes q post := by
  induction post generalizing q e X with
  | nil =>
    have hout : resultFrom bytes (looked bytes) q (encoded []) e = some X := h.finish hd
    rw [hout]
    simp [escaped, Undisturbed]
  | cons x post ih =>
    have hcons : encoded (x :: post) = x.encoded ++ encoded post := List.flatMap_cons
    have hescaped : escaped (x :: post) = x.escaped ++ escaped post := List.flatMap_cons
    rw [hcons] at hd ⊢
    rw [hescaped]
    cases x with
    | lone u =>
      exact iff_of_false (h.not_lone hd _) id
    | char c =>
      change resultFrom _ _ q (String.utf8EncodeChar c ++ _) e =
          some (X ++ ((String.utf8EncodeChar c).flatMap escapeByte ++ _)) ↔ _ ∧ _ ∧ _
      have hd : bytes.drop q = String.utf8EncodeChar c ++ encoded post := hd
      obtain ⟨b, l, hc, hcont, hone, hlead⟩ := utf8EncodeChar_cons c
      have hany := any_needsEscape_cons (b := b) hcont
      rw [hc] at hd ⊢
      rw [hany, List.head?_cons, Option.some_inj]
      cases hn : needsEscape b with
      | true =>
        obtain rfl := hone hn
        refine iff_of_false ?_ fun h => Bool.noConfusion h.1
        rw [List.flatMap_singleton]
        exact h.not_escape hd hn
      | false =>
        rw [flatMap_escapeByte (hany.trans hn)]
        have hnext : bytes.drop (q + (b :: l).length) = encoded post := by
          rw [← List.drop_drop, hd, List.drop_left]
        have hsur (hb : b = 0xED) :
            isSurrogate bytes e.i b ↔ ∃ b ∈ (encoded post).head?, 0x80 ≤ b.toNat := by
          rw [List.length_cons, hlead hb] at hnext
          rw [hb, h.ahead]
          exact isSurrogate_iff hnext
        by_cases hs : looked bytes q ∧ isSurrogate bytes e.i b
        · obtain rfl : b = 0xED := by
            by_contra hb
            exact Bool.false_ne_true ((isSurrogate_of_ne hb _).symm.trans hs.2)
          obtain ⟨x, y, rfl⟩ := List.length_eq_two.mp (hlead rfl)
          obtain ⟨b, hb, hle⟩ := (hsur rfl).mp hs.2
          refine iff_of_false ?_ fun h => Nat.not_lt.mpr hle (h.2.1 rfl hs.1 b hb)
          exact h.not_surrogate hd hs.2 hs.1 (hcont y (.tail _ (.head _))) _
        · have hclear (hl : looked bytes q) : isSurrogate bytes e.i b = false :=
            Bool.eq_false_iff.mpr fun h => hs ⟨hl, h⟩
          rw [resultFrom_append, go_count_cons hclear hn hcont, Option.bind_some,
            ← List.append_assoc, ih (h.counts hd) hnext]
          refine (and_iff_right rfl).symm.trans (and_congr_right fun _ => (and_iff_right ?_).symm)
          intro hb hl b' hb'
          by_contra hle
          exact hs ⟨hl, (hsur hb).mpr ⟨b', hb', Nat.not_lt.mp hle⟩⟩

/-! ### Escaping a text with lone surrogates -/

theorem surrogateEscape_lone (u : Fin 2048) :
    surrogateEscape 0xED (UInt8.ofNat (0xA0 + u.val / 64)) (UInt8.ofNat (0x80 + u.val % 64)) =
      (CodePoint.lone u).escaped := by
  have hu := u.isLt
  have hcode :
      (0xED : UInt8).toNat % 16 * 4096 + (UInt8.ofNat (0xA0 + u.val / 64)).toNat % 64 * 64 +
      (UInt8.ofNat (0x80 + u.val % 64)).toNat % 64 = 0xD800 + u.val := by
    rw [toNat_ofNat_of_lt (by omega), toNat_ofNat_of_lt (by omega), show (0xED : UInt8).toNat =
      237 from rfl]
    omega
  rw [surrogateEscape, hcode, CodePoint.escaped]
  have hhigh : (0xD800 + u.val) / 4096 = 0xD800 / 4096 := by omega
  rw [hhigh]
  rfl

section Lone

variable (pre : List Char) (u : Fin 2048) (post : List CodePoint)

theorem encoded_lone : encoded (pre.map .char ++ .lone u :: post) =
    encode pre ++ ((CodePoint.lone u).encoded ++ encoded post) := by
  rw [encoded, List.flatMap_append, List.flatMap_cons, List.flatMap_map]
  rfl

theorem escaped_lone : escaped (pre.map .char ++ .lone u :: post) =
    (encode pre).flatMap escapeByte ++ ((CodePoint.lone u).escaped ++ escaped post) := by
  rw [escaped, List.flatMap_append, List.flatMap_cons, List.flatMap_map, encode, List.flatMap_assoc]
  rfl

end Lone

/-- The bytes of a text before others are escaped one by one. -/
theorem escape_encode_append (pre : List Char) (rest : Bytes) :
    ∃ e, Escaped (encode pre ++ rest) e ∧ e.i = (encode pre).length ∧
      escapeJsonString (encode pre ++ rest) =
        resultFrom (encode pre ++ rest) (looked (encode pre ++ rest))
        (encode pre).length rest e := by
  obtain ⟨e, hgo, he, hi⟩ := (escaped_initial (encode pre ++ rest)).go (l := encode pre) rfl
    (fun k b hk hb => isSurrogate_encode (hk.trans_eq (Nat.zero_add _)) hb)
    (fun k b => needsEscape_of_looked)
  refine ⟨e, he, hi.trans (Nat.zero_add _), ?_⟩
  rw [escapeJsonString, escapeLoop_eq (encode pre ++ rest) _ rfl (Nat.zero_le _) rfl]
  change resultFrom _ _ 0 _ _ = _
  rw [resultFrom_append, hgo, Option.bind_some, Nat.zero_add]

section Lone

variable {u : Fin 2048} {post : List CodePoint} (he : Escaped bytes e)
  (hd : bytes.drop e.i = (CodePoint.lone u).encoded ++ encoded post)

include he hd

/-- A surrogate that is looked at is escaped, and the place is two bytes ahead. -/
theorem lone_looked (hl : looked bytes e.i) :
    ∃ e', Late bytes ((bytes.take e.i).flatMap escapeByte ++ (CodePoint.lone u).escaped)
      (e.i + 3) e' ∧
      resultFrom bytes (looked bytes) e.i ((CodePoint.lone u).encoded ++ encoded post) e =
        resultFrom bytes (looked bytes) (e.i + 3) (encoded post) e' := by
  have hu := u.isLt
  obtain ⟨hb, hd₁⟩ := getElem?_of_drop hd
  obtain ⟨hb₁, hd₂⟩ := getElem?_of_drop hd₁
  obtain ⟨hb₂, -⟩ := getElem?_of_drop hd₂
  have hget {i : ℕ} {b : UInt8} (h : bytes[i]? = some b) : bytes.getD i 0 = b := by
    rw [List.getD_eq_getElem?_getD, h, Option.getD_some]
  have hlen : e.i + 2 < bytes.length := (List.getElem?_eq_some_iff.mp hb₂).1
  have hs : isSurrogate bytes e.i 0xED := by
    rw [isSurrogate, hget hb₁, toNat_ofNat_of_lt (by omega), decide_eq_true hlen,
      decide_eq_true (by omega : 0xA0 ≤ (0xA0 + u.val / 64) / 16 * 16)]
    rfl
  have hcont : ∀ y ∈ [UInt8.ofNat (0xA0 + u.val / 64), UInt8.ofNat (0x80 + u.val % 64)],
      y ≠ 0xED ∧ needsEscape y = false := by
    intro y hy
    refine count_of_isCont (isCont_iff.mpr ?_)
    simp only [List.mem_cons, List.not_mem_nil, or_false] at hy
    rcases hy with rfl | rfl <;> rw [toNat_ofNat_of_lt (by omega)] <;> omega
  refine ⟨⟨(bytes.take e.i).flatMap escapeByte ++ (CodePoint.lone u).escaped, e.i + 3 + 2, e.i + 3⟩,
    ⟨rfl, Nat.le_refl _, ?_⟩, ?_⟩
  · rw [List.drop_take, Nat.sub_self, List.take_zero, List.append_nil]
  · rw [CodePoint.encoded, List.cons_append, resultFrom_cons, goOver, if_pos hl,
      processByte, if_pos hs,
      he.pushRead, Option.map_some, Option.bind_some, resultFrom_append, go_count hcont,
      Option.bind_some, hget hb, hget hb₁, hget hb₂, surrogateEscape_lone]
    rfl

/-- A surrogate that is not looked at is copied. -/
theorem lone_not_looked (hl : ¬ looked bytes e.i) (w : Bytes) :
    resultFrom bytes (looked bytes) e.i ((CodePoint.lone u).encoded ++ encoded post) e ≠
      some ((bytes.take e.i).flatMap escapeByte ++ ((CodePoint.lone u).escaped ++ w)) := by
  intro hout
  obtain ⟨hb, -⟩ := getElem?_of_drop hd
  rw [CodePoint.encoded, List.cons_append, resultFrom_cons, goOver, if_neg hl,
    Option.bind_some] at hout
  have hbegins : Begins bytes ((bytes.take e.i).flatMap escapeByte ++ [0xED]) (e.i + 1)
      { e with i := e.i + 1 } := by
    refine .inr ⟨Nat.le_succ_of_le he.le, Nat.le_refl _, ?_⟩
    rw [drop_take_succ hb he.le, he.written]
  have hpre := hbegins.resultFrom (List.getElem?_eq_some_iff.mp hb).1 hout
  rw [List.prefix_append_right_inj] at hpre
  cases (List.cons_prefix_cons.mp hpre).1

end Lone

/-- A text up to its first lone surrogate, and the rest. -/
theorem escape_lone_iff (pre : List Char) (u : Fin 2048) (post : List CodePoint) :
    escapeJsonString (encoded (pre.map .char ++ .lone u :: post)) =
        some (escaped (pre.map .char ++ .lone u :: post)) ↔
      looked (encoded (pre.map .char ++ .lone u :: post)) (encode pre).length ∧
        Undisturbed (encoded (pre.map .char ++ .lone u :: post))
        ((encode pre).length + 3) post := by
  rw [encoded_lone, escaped_lone]
  obtain ⟨e, he, hi, hrun⟩ := escape_encode_append pre ((CodePoint.lone u).encoded ++ encoded post)
  have hpre : (encode pre).flatMap escapeByte = ((encode pre ++
      ((CodePoint.lone u).encoded ++ encoded post)).take e.i).flatMap escapeByte := by
    rw [hi, List.take_left]
  have hd : (encode pre ++ ((CodePoint.lone u).encoded ++ encoded post)).drop e.i =
      (CodePoint.lone u).encoded ++ encoded post := by
    rw [hi, List.drop_left]
  rw [hrun, hpre, ← hi]
  generalize encode pre ++ ((CodePoint.lone u).encoded ++ encoded post) = bytes at *
  by_cases hl : looked bytes e.i
  · obtain ⟨e', hlate, hrun⟩ := lone_looked he hd hl
    have hnext : bytes.drop (e.i + 3) = encoded post := by
      rw [← List.drop_drop, hd]
      rfl
    rw [hrun, ← List.append_assoc, late_iff hlate hnext]
    exact (and_iff_right hl).symm
  · exact iff_of_false (lone_not_looked he hd hl _) fun h => hl h.1

/-- **Every character and lone surrogate is escaped for itself** exactly if there is no lone
surrogate, or one that is looked at and after which nothing is written. -/
theorem escape_items_iff (text : List CodePoint) :
    escapeJsonString (encoded text) = some (escaped text) ↔
      (∃ cs : List Char, text = cs.map .char) ∨
      ∃ (pre : List Char) (u : Fin 2048) (post : List CodePoint),
        text = pre.map .char ++ .lone u :: post ∧
        looked (encoded text) (encode pre).length ∧
        Undisturbed (encoded text) ((encode pre).length + 3) post := by
  have hsplit : (∃ cs : List Char, text = cs.map .char) ∨
      ∃ (pre : List Char) (u : Fin 2048) (post : List CodePoint),
        text = pre.map .char ++ .lone u :: post := by
    induction text with
    | nil => exact .inl ⟨[], rfl⟩
    | cons x text ih =>
      cases x with
      | lone u => exact .inr ⟨[], u, text, rfl⟩
      | char c =>
        obtain ⟨cs, rfl⟩ | ⟨pre, u, post, rfl⟩ := ih
        · exact .inl ⟨c :: cs, rfl⟩
        · exact .inr ⟨c :: pre, u, post, rfl⟩
  constructor
  · intro h
    refine hsplit.imp id ?_
    rintro ⟨pre, u, post, rfl⟩
    exact ⟨pre, u, post, rfl, (escape_lone_iff pre u post).mp h⟩
  · rintro (⟨cs, rfl⟩ | ⟨pre, u, post, rfl, h⟩)
    · have hencoded : encoded (cs.map .char) = encode cs := List.flatMap_map ..
      have hescaped : escaped (cs.map .char) = (encode cs).flatMap escapeByte := by
        rw [escaped, List.flatMap_map, encode, List.flatMap_assoc]
        rfl
      rw [hencoded, hescaped]
      exact escape_eq (surrogateFree_encode cs)
    · exact (escape_lone_iff pre u post).mpr h

/-- A surrogate beside a quote in the last piece. -/
example : escapeJsonString (encoded [.char '"', .lone 0, .char 'a']) =
    some (ascii "\\\"\\ud800a") := by decide

/-- Before a quote, the place read is two bytes ahead after a lone surrogate, and beyond the end; a
piece of eight bytes without a character to escape is copied with its surrogate; and a character
from U+D000 on is taken for another surrogate. -/
theorem escape_lone_surrogate :
    escapeJsonString (encoded [.lone 0, .char '"']) = none ∧
      escapeJsonString (encoded [.char 'a', .char 'b', .char 'c', .char 'd', .char 'e', .lone 0]) =
        some (ascii "abcde" ++ [0xED, 0xA0, 0x80]) ∧
      escapeJsonString (encoded [.lone 0, .char '\uD000']) =
        some (ascii "\\ud800" ++ [0xED, 0x80, 0x80]) ∧
      escapeJsonString (encoded [.lone 0, .char '\uD000', .char 'é']) ≠
        some (escaped [.lone 0, .char '\uD000', .char 'é']) := by
  decide

end RasterRuntime.Json
