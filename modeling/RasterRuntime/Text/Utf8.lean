import Mathlib.Data.List.Basic

/-! # UTF-8: the segmentation of a byte string into characters and maximal subparts

A byte string is cut from the left into *tokens*: a well-formed character, a maximal subpart of an
ill-formed sequence (`bad`), or, at the very end only, the start of a character whose remaining
bytes are missing (`cut`). The lead byte fixes how many bytes follow and which values they may take
(`follow`); `scan` reads them one at a time.

* `fromUtf8`, `fromUtf8Lossy`: the two decoders of the Rust standard library, read off the tokens. A
  `bad` token of `k` bytes is the error `error_len = Some(k)`, a `cut` token is `error_len = None`,
  and both are one replacement character to the lossy decoder.
* `tokens_append`: a byte string can be cut after any token; what a `cut` token holds is carried
  over to the bytes that come next.
* `fromUtf8_split`: where the strict decoder stops, and with which error.
* `lossy_append_of_pending`, `lossy_append_of_isCont`: the lossy decoder can be run on two parts
  separately when the first part has no `cut` token, or when the second does not start with a
  continuation byte. -/

namespace RasterRuntime.Text.Utf8

open List (all_cons cons_append length_cons mem_cons nil_append)

theorem forall_byte {P : UInt8 → Prop} (h : ∀ n : Fin 256, P (UInt8.ofNat n.val))
    (b : UInt8) : P b := by
  have hb := h ⟨b.toNat, b.toNat_lt⟩
  rwa [UInt8.ofNat_toNat] at hb

/-! ### Lead and continuation bytes -/

/-- U+FFFD, the replacement character. -/
def replacement : Char := '�'

/-- A continuation byte, `0b10xxxxxx`. -/
def isCont (b : UInt8) : Bool := 0x80 ≤ b.toNat && b.toNat ≤ 0xBF

/-- The second byte may be `b` after the lead byte `b0`: no overlong form, no surrogate, nothing
above U+10FFFF. -/
def secondOk (b0 b : UInt8) : Bool :=
  if b0.toNat = 0xE0 then 0xA0 ≤ b.toNat && b.toNat ≤ 0xBF
  else if b0.toNat = 0xED then 0x80 ≤ b.toNat && b.toNat ≤ 0x9F
  else if b0.toNat = 0xF0 then 0x90 ≤ b.toNat && b.toNat ≤ 0xBF
  else if b0.toNat = 0xF4 then 0x80 ≤ b.toNat && b.toNat ≤ 0x8F
  else isCont b

/-- The bytes in a character that starts with `b0`; `0` if no character does. -/
def width (b0 : UInt8) : ℕ :=
  if b0.toNat < 0x80 then 1
  else if 0xC2 ≤ b0.toNat ∧ b0.toNat ≤ 0xDF then 2
  else if 0xE0 ≤ b0.toNat ∧ b0.toNat ≤ 0xEF then 3
  else if 0xF0 ≤ b0.toNat ∧ b0.toNat ≤ 0xF4 then 4
  else 0

/-- What the bytes after the lead byte must satisfy, one test per byte. -/
def follow (b0 : UInt8) : List (UInt8 → Bool) :=
  match width b0 with
  | 2 => [isCont]
  | 3 => [secondOk b0, isCont]
  | 4 => [secondOk b0, isCont, isCont]
  | _ => []

/-- The code point of a well-formed character. -/
def codePoint : List UInt8 → ℕ
  | [a] => a.toNat
  | [a, b] => (a.toNat - 0xC0) * 64 + (b.toNat - 0x80)
  | [a, b, c] => (a.toNat - 0xE0) * 4096 + (b.toNat - 0x80) * 64 + (c.toNat - 0x80)
  | [a, b, c, d] => (a.toNat - 0xF0) * 262144 + (b.toNat - 0x80) * 4096 + (c.toNat - 0x80) * 64 +
      (d.toNat - 0x80)
  | _ => 0

variable {b0 b : UInt8}

theorem isCont_of_secondOk (h : secondOk b0 b) : isCont b := by
  unfold secondOk at h
  unfold isCont at h ⊢
  split_ifs at h <;> simp only [Bool.and_eq_true, decide_eq_true_eq] at h ⊢ <;> omega

theorem isCont_of_follow {p : UInt8 → Bool} (hp : p ∈ follow b0) (h : p b) :
    isCont b := by
  have hp : p = secondOk b0 ∨ p = isCont := by
    unfold follow at hp
    split at hp <;> grind
  rcases hp with rfl | rfl
  · exact isCont_of_secondOk h
  · exact h

theorem length_follow (h : width b0 ≠ 0) : (follow b0).length + 1 = width b0 := by
  unfold follow
  unfold width at h ⊢
  split_ifs at h ⊢ <;> simp_all

theorem width_of_isCont (h : isCont b) : width b = 0 := by
  unfold isCont at h
  simp only [Bool.and_eq_true, decide_eq_true_eq] at h
  unfold width
  rw [if_neg (by omega), if_neg (by omega), if_neg (by omega), if_neg (by omega)]

/-! ### Tokens -/

/-- One piece of a byte string, with its bytes. -/
inductive Token where
  | char (c : Char) (bs : List UInt8)
  | bad (bs : List UInt8)
  | cut (bs : List UInt8)
  deriving DecidableEq, Repr

namespace Token

/-- The bytes of a token. -/
def bytes : Token → List UInt8
  | char _ bs | bad bs | cut bs => bs

/-- The character a lossy decoder writes for a token. -/
def text : Token → Char
  | char c _ => c
  | bad _ | cut _ => replacement

/-- The token is the start of a character that the input ends in. -/
def isCut : Token → Bool
  | cut _ => true
  | _ => false

end Token

/-- Reads the rest of a character: `acc` has been read, `ps` are the tests of the bytes to come. -/
def scan (acc : List UInt8) : List (UInt8 → Bool) → List UInt8 → Token × List UInt8
  | [], r => (.char (Char.ofNat (codePoint acc)) acc, r)
  | _ :: _, [] => (.cut acc, [])
  | p :: ps, b :: r => if p b then scan (acc ++ [b]) ps r else (.bad acc, b :: r)

/-- The first token of `b0 :: r`, and the bytes after it. -/
def next (b0 : UInt8) (r : List UInt8) : Token × List UInt8 :=
  if width b0 = 0 then (.bad [b0], r) else scan [b0] (follow b0) r

/-- The tokens of a byte string, at most `n` of them. -/
def tokensAux : ℕ → List UInt8 → List Token
  | 0, _ => []
  | _ + 1, [] => []
  | n + 1, b :: r => (next b r).1 :: tokensAux n (next b r).2

/-- **The tokens of a byte string.** -/
def tokens (bs : List UInt8) : List Token := tokensAux bs.length bs

theorem scan_bytes (acc : List UInt8) (ps : List (UInt8 → Bool)) (r : List UInt8) :
    (scan acc ps r).1.bytes ++ (scan acc ps r).2 = acc ++ r := by
  fun_induction scan acc ps r with
  | case1 | case4 => rfl
  | case2 => simp [Token.bytes]
  | case3 acc p ps b r _ ih => rw [ih]; simp

theorem next_bytes (b0 : UInt8) (r : List UInt8) :
    (next b0 r).1.bytes ++ (next b0 r).2 = b0 :: r := by
  unfold next
  split_ifs
  · rfl
  · rw [scan_bytes]; rfl

theorem scan_ne_nil {acc : List UInt8} (ps : List (UInt8 → Bool)) (r : List UInt8)
    (h : acc ≠ []) : (scan acc ps r).1.bytes ≠ [] := by
  fun_induction scan acc ps r with
  | case1 | case2 | case4 => exact h
  | case3 acc p ps b r _ ih => exact ih (by simp)

theorem next_length_le (b0 : UInt8) (r : List UInt8) : (next b0 r).2.length ≤ r.length := by
  have hne : (next b0 r).1.bytes ≠ [] := by
    unfold next
    split_ifs
    · simp [Token.bytes]
    · exact scan_ne_nil _ _ (by simp)
  have hl := congrArg List.length (next_bytes b0 r)
  have := List.length_pos_iff.mpr hne
  simp only [List.length_append, length_cons] at hl
  omega

theorem tokensAux_eq : ∀ (n : ℕ) (bs : List UInt8), bs.length ≤ n → tokensAux n bs = tokens bs
  | 0, [], _ | n + 1, [], _ => rfl
  | n + 1, b :: r, h => by
    have hle := next_length_le b r
    simp only [length_cons] at h
    unfold tokens
    simp only [length_cons, tokensAux]
    rw [tokensAux_eq n _ (by omega), tokensAux_eq r.length _ hle]
termination_by _ bs => bs.length
decreasing_by all_goals simp only [length_cons]; omega

@[simp] theorem tokens_nil : tokens [] = [] := rfl

theorem tokens_cons (b : UInt8) (r : List UInt8) :
    tokens (b :: r) = (next b r).1 :: tokens (next b r).2 := by
  unfold tokens
  simp only [length_cons, tokensAux]
  rw [tokensAux_eq _ _ (next_length_le b r)]; rfl

theorem tokens_induction {P : List UInt8 → Prop} (hnil : P [])
    (hcons : ∀ b r, P (next b r).2 → P (b :: r)) : ∀ bs, P bs := by
  intro bs
  induction hn : bs.length using Nat.strongRecOn generalizing bs with
  | _ n ih =>
    match bs with
    | [] => exact hnil
    | b :: r =>
      have hle := next_length_le b r
      exact hcons b r (ih _ (by simp only [length_cons] at hn; omega) _ rfl)

/-! ### Cutting a byte string -/

theorem scan_append (acc : List UInt8) (ps : List (UInt8 → Bool)) (r x : List UInt8)
    (h : (scan acc ps r).1.isCut = false) :
    scan acc ps (r ++ x) = ((scan acc ps r).1, (scan acc ps r).2 ++ x) := by
  fun_induction scan acc ps r with
  | case1 => rw [scan]
  | case2 => cases h
  | case3 acc p ps b r hb ih => rw [cons_append, scan, if_pos hb, ih h]
  | case4 acc p ps b r hb => rw [cons_append, scan, if_neg hb]

theorem next_append (b : UInt8) (r x : List UInt8) (h : (next b r).1.isCut = false) :
    next b (r ++ x) = ((next b r).1, (next b r).2 ++ x) := by
  unfold next at h ⊢
  split_ifs at h ⊢
  · rfl
  · exact scan_append _ _ _ _ h

/-- A cut token takes all the bytes there are: a proper start of what the lead byte asks for. -/
theorem scan_cut (acc : List UInt8) (ps : List (UInt8 → Bool)) (r : List UInt8)
    (h : (scan acc ps r).1.isCut) :
    scan acc ps r = (.cut (acc ++ r), []) ∧ r.length < ps.length ∧
      ∀ i (hi : i < r.length) (hp : i < ps.length), ps[i] r[i] := by
  fun_induction scan acc ps r with
  | case1 | case4 => cases h
  | case2 => simp
  | case3 acc p ps b r hb ih =>
    obtain ⟨h1, h2, h3⟩ := ih h
    refine ⟨by rw [h1]; simp, by simp; omega, fun i hi hp => ?_⟩
    rcases i with _ | i
    · exact hb
    · exact h3 i (by simpa using hi) (by simpa using hp)

/-- The start of a character: a lead byte and continuation bytes, fewer than the lead byte asks
for. -/
structure IsStart (p : List UInt8) : Prop where
  ne_nil : p ≠ []
  cont : ∀ b ∈ p.tail, isCont b = true
  short : ∀ b ∈ p.head?, p.length < width b

variable {c : UInt8} {r bs a l : List UInt8}

theorem next_cut (h : (next b r).1.isCut) :
    next b r = (.cut (b :: r), []) ∧ IsStart (b :: r) := by
  unfold next at h ⊢
  split_ifs at h ⊢ with hw
  · simp [Token.isCut] at h
  · obtain ⟨h1, h2, h3⟩ := scan_cut _ _ _ h
    have hl := length_follow hw
    refine ⟨h1, by simp, fun c hc => ?_, fun c hc => ?_⟩
    · obtain ⟨i, hi, rfl⟩ := List.getElem_of_mem hc
      have hi' : i < r.length := hi
      exact isCont_of_follow (List.getElem_mem (by omega)) (h3 i hi' (by omega))
    · simp only [List.head?_cons, Option.mem_def, Option.some.injEq] at hc
      subst hc
      simp only [length_cons]; omega

/-- The complete tokens of a byte string. -/
def complete (bs : List UInt8) : List Token := (tokens bs).filter (! ·.isCut)

/-- The bytes of a character that the byte string ends in the middle of. -/
def pending (bs : List UInt8) : List UInt8 := ((tokens bs).filter (·.isCut)).flatMap Token.bytes

theorem complete_cons (h : (next b r).1.isCut = false) :
    complete (b :: r) = (next b r).1 :: complete (next b r).2 := by
  unfold complete; rw [tokens_cons]; simp [h]

theorem pending_cons (h : (next b r).1.isCut = false) :
    pending (b :: r) = pending (next b r).2 := by
  unfold pending; rw [tokens_cons]; simp [h]

theorem tokens_of_cut (h : (next b r).1.isCut) :
    tokens (b :: r) = [.cut (b :: r)] := by
  rw [tokens_cons, (next_cut h).1]; rfl

theorem complete_of_cut (h : (next b r).1.isCut) :
    complete (b :: r) = [] := by
  unfold complete; rw [tokens_of_cut h]; rfl

theorem pending_of_cut (h : (next b r).1.isCut) :
    pending (b :: r) = b :: r := by
  unfold pending; rw [tokens_of_cut h]; simp [Token.isCut, Token.bytes]

/-- **Cutting a byte string**: the complete tokens of the first part stay, the bytes it ends in the
middle of a character with go before the second part. -/
theorem tokens_append (a x : List UInt8) :
    tokens (a ++ x) = complete a ++ tokens (pending a ++ x) := by
  induction a using tokens_induction with
  | hnil => rfl
  | hcons b r ih =>
    cases hc : (next b r).1.isCut with
    | true => rw [complete_of_cut hc, pending_of_cut hc]; rfl
    | false =>
      rw [complete_cons hc, pending_cons hc, cons_append, tokens_cons, next_append b r x hc,
        ih]
      rfl

/-- A byte string ends in the middle of a character, or it does not. -/
theorem tokens_eq (a : List UInt8) : tokens a = complete a ++ tokens (pending a) := by
  have := tokens_append a []
  simpa using this

theorem complete_append (a x : List UInt8) :
    complete (a ++ x) = complete a ++ complete (pending a ++ x) := by
  unfold complete
  rw [tokens_append, List.filter_append]
  congr 1
  simp [complete, List.filter_filter]

theorem pending_append (a x : List UInt8) : pending (a ++ x) = pending (pending a ++ x) := by
  have hc : (complete a).filter (·.isCut) = [] := by simp [complete, List.filter_filter]
  conv_lhs => unfold pending
  rw [tokens_append, List.filter_append, hc]
  rfl

theorem isStart_pending (a : List UInt8) : pending a = [] ∨ IsStart (pending a) := by
  induction a using tokens_induction with
  | hnil => exact .inl rfl
  | hcons b r ih =>
    cases hc : (next b r).1.isCut with
    | true => rw [pending_of_cut hc]; exact .inr (next_cut hc).2
    | false => rw [pending_cons hc]; exact ih

theorem pending_suffix (a : List UInt8) : pending a <:+ a := by
  induction a using tokens_induction with
  | hnil => exact List.suffix_rfl
  | hcons b r ih =>
    cases hc : (next b r).1.isCut with
    | true => exact ⟨[], by simp [pending_of_cut hc]⟩
    | false =>
      rw [pending_cons hc]
      exact ih.trans ⟨(next b r).1.bytes, next_bytes b r⟩

theorem tokens_pending (a : List UInt8) :
    tokens (pending a) = if pending a = [] then [] else [.cut (pending a)] := by
  induction a using tokens_induction with
  | hnil => rfl
  | hcons b r ih =>
    cases hc : (next b r).1.isCut with
    | true => rw [pending_of_cut hc, tokens_of_cut hc]; rfl
    | false => rw [pending_cons hc]; exact ih

/-! ### The decoders of the standard library -/

/-- `std::str::Utf8Error`. -/
structure Utf8Error where
  validUpTo : ℕ
  errorLen : Option ℕ
  deriving DecidableEq, Repr

/-- The message of a `Utf8Error`. -/
def Utf8Error.toMessage (e : Utf8Error) : String :=
  match e.errorLen with
  | some n => "invalid utf-8 sequence of " ++ toString n ++ " bytes from index " ++
      toString e.validUpTo
  | none => "incomplete utf-8 byte sequence from index " ++ toString e.validUpTo

/-- The characters of a list of tokens up to the first that is not a character; `pos` bytes come
before it. -/
def readChars (pos : ℕ) : List Token → Except Utf8Error (List Char)
  | [] => .ok []
  | .char c bs :: ts => (readChars (pos + bs.length) ts).map (c :: ·)
  | .bad bs :: _ => .error ⟨pos, some bs.length⟩
  | .cut _ :: _ => .error ⟨pos, none⟩

/-- `std::str::from_utf8` and `String::from_utf8`. -/
def fromUtf8 (bs : List UInt8) : Except Utf8Error (List Char) := readChars 0 (tokens bs)

/-- `String::from_utf8_lossy`. -/
def fromUtf8Lossy (bs : List UInt8) : List Char := (tokens bs).map Token.text

/-- The token is a character. -/
def Token.isChar : Token → Bool
  | .char _ _ => true
  | _ => false

/-- The bytes are well-formed UTF-8. -/
def valid (bs : List UInt8) : Bool := (tokens bs).all Token.isChar

@[simp] theorem fromUtf8Lossy_nil : fromUtf8Lossy [] = [] := rfl

theorem readChars_ok (pos : ℕ) (ts : List Token) (h : ts.all Token.isChar) :
    readChars pos ts = .ok (ts.map Token.text) := by
  fun_induction readChars pos ts with
  | case1 => rfl
  | case2 pos c bs ts ih => rw [ih h]; rfl
  | case3 | case4 => cases h

theorem fromUtf8_ok (h : valid bs) :
    fromUtf8 bs = .ok (fromUtf8Lossy bs) := readChars_ok 0 _ h

theorem pending_of_valid (h : valid a) : pending a = [] := by
  have hc : (tokens a).filter (·.isCut) = [] := by
    refine List.filter_eq_nil_iff.mpr fun t ht => ?_
    have := List.all_eq_true.mp h t ht
    cases t <;> simp_all [Token.isChar, Token.isCut]
  unfold pending
  rw [hc]; rfl

theorem tokens_of_pending_nil (h : pending a = []) : tokens a = complete a := by
  have := tokens_eq a
  rw [h] at this
  simpa using this

/-- The length of the error a token is to the strict decoder. -/
def Token.errorLen : Token → Option ℕ
  | .bad bs => some bs.length
  | _ => none

/-- A character is read from its own bytes, whatever comes after them. -/
theorem scan_char {c : Char} {r' : List UInt8} (acc : List UInt8) (ps : List (UInt8 → Bool))
    (r : List UInt8) (h : scan acc ps r = (.char c l, r')) :
    ∃ m, l = acc ++ m ∧ ∀ x, scan acc ps (m ++ x) = (.char c l, x) := by
  fun_induction scan acc ps r with
  | case1 =>
    cases h
    exact ⟨[], by simp, fun x => by simp [scan]⟩
  | case2 | case4 => cases h
  | case3 acc p ps b r hb ih =>
    obtain ⟨m, hl, hm⟩ := ih h
    exact ⟨b :: m, by rw [hl]; simp, fun x => by simp [scan, hb, hm x]⟩

theorem tokens_char {c : Char} (h : (next b r).1 = .char c l) (x : List UInt8) :
    tokens (l ++ x) = .char c l :: tokens x := by
  unfold next at h
  split_ifs at h with hw
  have hs : scan [b] (follow b) r = (.char c l, (scan [b] (follow b) r).2) := by rw [← h]
  obtain ⟨m, rfl, hm⟩ := scan_char [b] (follow b) r hs
  have hn : next b (m ++ x) = (.char c ([b] ++ m), x) := by
    unfold next; rw [if_neg hw]; exact hm x
  rw [List.append_assoc, List.singleton_append, tokens_cons, hn]

theorem readChars_split (pos : ℕ) (h : valid bs = false) : ∃ a b r, bs = a ++ b :: r ∧
    valid a ∧ (next b r).1.isChar = false ∧
      readChars pos (tokens bs) = .error ⟨pos + a.length, (next b r).1.errorLen⟩ := by
  induction bs using tokens_induction generalizing pos with
  | hnil => cases h
  | hcons b r ih =>
    rw [tokens_cons]
    have hb := next_bytes b r
    cases hn : (next b r).1 with
    | bad l | cut l => exact ⟨[], b, r, rfl, rfl, by rw [hn]; rfl, by rw [hn]; rfl⟩
    | char c l =>
      rw [hn] at hb
      have hv : valid (next b r).2 = false := by
        unfold valid at h ⊢
        rwa [tokens_cons, hn, all_cons, Token.isChar, Bool.true_and] at h
      obtain ⟨a, b', r', he, ha, hc, hr⟩ := ih (pos + l.length) hv
      have hl : b :: r = (l ++ a) ++ b' :: r' := by
        rw [← hb, he, List.append_assoc]; rfl
      refine ⟨l ++ a, b', r', hl, ?_, hc, ?_⟩
      · unfold valid at ha ⊢
        rw [tokens_char hn, all_cons, ha]; rfl
      · rw [readChars, hr, List.length_append, ← Nat.add_assoc]; rfl

/-- **Where the strict decoder stops**: before the first token that is no character. -/
theorem fromUtf8_split (h : valid bs = false) : ∃ a b r, bs = a ++ b :: r ∧
    valid a ∧ (next b r).1.isChar = false ∧
      fromUtf8 bs = .error ⟨a.length, (next b r).1.errorLen⟩ := by
  obtain ⟨a, b, r, he, ha, hc, hr⟩ := readChars_split 0 h
  exact ⟨a, b, r, he, ha, hc, by unfold fromUtf8; rw [hr, Nat.zero_add]⟩

theorem fromUtf8_error (h : valid bs = false) : ∃ e, fromUtf8 bs = .error e := by
  obtain ⟨_, _, _, _, _, _, he⟩ := fromUtf8_split h
  exact ⟨_, he⟩

/-- **The lossy decoder on two parts**, when the first does not end in the middle of a character. -/
theorem lossy_append_of_pending (h : pending a = []) (x : List UInt8) :
    fromUtf8Lossy (a ++ x) = fromUtf8Lossy a ++ fromUtf8Lossy x := by
  unfold fromUtf8Lossy
  rw [tokens_append, h, nil_append, List.map_append, tokens_of_pending_nil h]

theorem scan_cut_append (acc : List UInt8) (ps : List (UInt8 → Bool)) (r x : List UInt8)
    (c : UInt8) (hc : ∀ p ∈ ps, p c = false) (h : (scan acc ps r).1.isCut) :
    scan acc ps (r ++ c :: x) = (.bad (acc ++ r), c :: x) := by
  fun_induction scan acc ps r with
  | case1 | case4 => cases h
  | case2 => simp [scan, hc _ (.head _)]
  | case3 acc p ps b r hb ih =>
    rw [cons_append, scan, if_pos hb, ih (fun q hq => hc q (.tail _ hq)) h]; simp

theorem next_cut_append (h : (next b r).1.isCut) (hc : isCont c = false) (x : List UInt8) :
    next b (r ++ c :: x) = (.bad (b :: r), c :: x) := by
  unfold next at h ⊢
  split_ifs at h ⊢
  · simp [Token.isCut] at h
  · refine scan_cut_append _ _ _ _ _ (fun p hp => ?_) h
    cases hpc : p c with
    | false => rfl
    | true => rw [isCont_of_follow hp hpc] at hc; exact hc

theorem lossy_of_cut (h : (next b r).1.isCut) :
    fromUtf8Lossy (b :: r) = [replacement] := by
  unfold fromUtf8Lossy; rw [tokens_of_cut h]; rfl

theorem lossy_cons :
    fromUtf8Lossy (b :: r) = (next b r).1.text :: fromUtf8Lossy (next b r).2 := by
  unfold fromUtf8Lossy; rw [tokens_cons]; rfl

/-- **The lossy decoder on two parts**, when the second starts with no continuation byte: an
unfinished character is one replacement character with or without what follows. -/
theorem lossy_append_of_isCont (hc : isCont c = false) (a x : List UInt8) :
    fromUtf8Lossy (a ++ c :: x) = fromUtf8Lossy a ++ fromUtf8Lossy (c :: x) := by
  induction a using tokens_induction with
  | hnil => rfl
  | hcons b r ih =>
    cases hcut : (next b r).1.isCut with
    | true =>
      rw [lossy_of_cut hcut, cons_append, lossy_cons, next_cut_append hcut hc]; rfl
    | false =>
      rw [cons_append, lossy_cons, next_append b r _ hcut, lossy_cons, ih]; rfl

theorem lossy_of_pending (h : pending a ≠ []) :
    fromUtf8Lossy a = (complete a).map Token.text ++ [replacement] := by
  unfold fromUtf8Lossy
  rw [tokens_eq, tokens_pending, if_neg h, List.map_append]; rfl

theorem lossy_of_pending_nil (h : pending a = []) :
    fromUtf8Lossy a = (complete a).map Token.text := by
  unfold fromUtf8Lossy
  rw [tokens_of_pending_nil h]

/-! ### Encoding -/

/-- The UTF-8 bytes of a text, `str::as_bytes`. -/
def encode (cs : List Char) : List UInt8 := cs.flatMap String.utf8EncodeChar

/-- Bytes that pass the tests of the lead byte are a character. -/
theorem scan_all {ps : List (UInt8 → Bool)} (h : List.Forall₂ (fun p b => p b = true) ps l)
    (acc r : List UInt8) :
    scan acc ps (l ++ r) = (.char (Char.ofNat (codePoint (acc ++ l))) (acc ++ l), r) := by
  induction h generalizing acc with
  | nil => rw [nil_append, List.append_nil, scan]
  | cons hp _ ih => rw [cons_append, scan, if_pos hp, ih, List.append_assoc]; rfl

theorem toNat_ofNat_of_lt {n : ℕ} (h : n < 256) : (UInt8.ofNat n).toNat = n := by
  rw [UInt8.toNat_ofNat']; omega

theorem toNat_cont (n : ℕ) : (UInt8.ofNat (n % 64 + 128)).toNat = n % 64 + 128 :=
  toNat_ofNat_of_lt (by omega)

theorem isCont_ofNat (n : ℕ) : isCont (UInt8.ofNat (n % 64 + 128)) := by
  unfold isCont
  rw [toNat_cont]
  simp only [Bool.and_eq_true, decide_eq_true_eq]
  omega

/-- The bytes of a character pass the tests of their lead byte. -/
theorem utf8EncodeChar_spec (c : Char) : ∃ b l, String.utf8EncodeChar c = b :: l ∧
    width b = l.length + 1 ∧ List.Forall₂ (fun p b => p b = true) (follow b) l ∧
    Char.ofNat (codePoint (b :: l)) = c := by
  have hv : c.val.toNat < 0xD800 ∨ (0xDFFF < c.val.toNat ∧ c.val.toNat < 0x110000) := c.valid
  have hc : ∀ n, n = c.val.toNat → Char.ofNat n = c := fun n hn => by
    rw [hn]; exact Char.ofNat_toNat c
  unfold String.utf8EncodeChar
  dsimp only
  generalize c.val.toNat = v at *
  -- one case per length of the encoding
  split_ifs with h1 h2 h3
  · have hb := toNat_ofNat_of_lt (n := v) (by omega)
    have hw : width (UInt8.ofNat v) = 1 := by unfold width; rw [hb, if_pos (by omega)]
    refine ⟨_, _, rfl, hw, by rw [follow, hw]; exact .nil, ?_⟩
    exact hc _ hb
  · have hb := toNat_ofNat_of_lt (n := v / 64 % 32 + 192) (by omega)
    have hw : width (UInt8.ofNat (v / 64 % 32 + 192)) = 2 := by
      unfold width; rw [hb, if_neg (by omega), if_pos (by omega)]
    refine ⟨_, _, rfl, hw, ?_, ?_⟩
    · rw [follow, hw]
      exact .cons (isCont_ofNat v) .nil
    · dsimp only [codePoint]
      rw [hb, toNat_cont, hc _ (by omega)]
  · have hb := toNat_ofNat_of_lt (n := v / 4096 % 16 + 224) (by omega)
    have hw : width (UInt8.ofNat (v / 4096 % 16 + 224)) = 3 := by
      unfold width; rw [hb, if_neg (by omega), if_neg (by omega), if_pos (by omega)]
    have h2 : secondOk (UInt8.ofNat (v / 4096 % 16 + 224)) (UInt8.ofNat (v / 64 % 64 + 128)) := by
      unfold secondOk isCont
      rw [hb, toNat_cont]
      split_ifs <;> simp only [Bool.and_eq_true, decide_eq_true_eq] <;> omega
    refine ⟨_, _, rfl, hw, by rw [follow, hw]; exact .cons h2 (.cons (isCont_ofNat v) .nil), ?_⟩
    dsimp only [codePoint]
    rw [hb, toNat_cont, toNat_cont, hc _ (by omega)]
  · have hb := toNat_ofNat_of_lt (n := v / 262144 % 8 + 240) (by omega)
    have hw : width (UInt8.ofNat (v / 262144 % 8 + 240)) = 4 := by
      unfold width
      rw [hb, if_neg (by omega), if_neg (by omega), if_neg (by omega), if_pos (by omega)]
    have h2 : secondOk (UInt8.ofNat (v / 262144 % 8 + 240))
        (UInt8.ofNat (v / 4096 % 64 + 128)) := by
      unfold secondOk isCont
      rw [hb, toNat_cont]
      split_ifs <;> simp only [Bool.and_eq_true, decide_eq_true_eq] <;> omega
    refine ⟨_, _, rfl, hw, ?_, ?_⟩
    · rw [follow, hw]
      exact .cons h2 (.cons (isCont_ofNat _) (.cons (isCont_ofNat v) .nil))
    · dsimp only [codePoint]
      rw [hb, toNat_cont, toNat_cont, toNat_cont, hc _ (by omega)]

theorem tokens_encode (cs : List Char) :
    tokens (encode cs) = cs.map fun c => .char c (String.utf8EncodeChar c) := by
  induction cs with
  | nil => rfl
  | cons c cs ih =>
    obtain ⟨b, l, hb, hw, hf, hc⟩ := utf8EncodeChar_spec c
    have hn : next b (l ++ encode cs) = (.char c (String.utf8EncodeChar c), encode cs) := by
      rw [next, if_neg (by omega), scan_all hf, List.singleton_append, hc, hb]
    have he : encode (c :: cs) = b :: (l ++ encode cs) := by
      unfold encode; rw [List.flatMap_cons, hb]; rfl
    rw [he, tokens_cons, hn, ih]; rfl

/-- **Decoding the bytes of a text gives the text.** -/
theorem fromUtf8_encode (cs : List Char) : fromUtf8 (encode cs) = .ok cs := by
  have hv : valid (encode cs) := by
    unfold valid; rw [tokens_encode]; simp [Token.isChar]
  rw [fromUtf8_ok hv, fromUtf8Lossy, tokens_encode]
  congr 1
  simp [Token.text, Function.comp_def]

/-! ### ASCII -/

theorem isCont_iff : isCont b ↔ 0x80 ≤ b.toNat ∧ b.toNat ≤ 0xBF := by
  simp [isCont]

theorem secondOk_bounds {c : UInt8} (h : secondOk b c) :
    0x80 ≤ c.toNat ∧ c.toNat ≤ 0xBF ∧ (b.toNat = 0xE0 → 0xA0 ≤ c.toNat) ∧
      (b.toNat = 0xED → c.toNat ≤ 0x9F) ∧ (b.toNat = 0xF0 → 0x90 ≤ c.toNat) ∧
      (b.toNat = 0xF4 → c.toNat ≤ 0x8F) := by
  unfold secondOk isCont at h
  split_ifs at h <;> simp only [Bool.and_eq_true, decide_eq_true_eq] at h <;> omega

theorem width_cases (hb : 0x80 ≤ b.toNat) (hw : width b ≠ 0) :
    width b = 2 ∧ 0xC2 ≤ b.toNat ∧ b.toNat ≤ 0xDF ∨
      width b = 3 ∧ 0xE0 ≤ b.toNat ∧ b.toNat ≤ 0xEF ∨
      width b = 4 ∧ 0xF0 ≤ b.toNat ∧ b.toNat ≤ 0xF4 := by
  unfold width at hw ⊢
  split_ifs at hw ⊢ <;> omega

/-- The code point of more than one byte is that of a character, which is not in ASCII. -/
theorem codePoint_bounds {l : List UInt8} (hb : 0x80 ≤ b.toNat) (hw : width b ≠ 0)
    (h : List.Forall₂ (fun p b => p b = true) (follow b) l) :
    0x80 ≤ codePoint (b :: l) ∧ (codePoint (b :: l)).isValidChar := by
  unfold Nat.isValidChar
  rcases width_cases hb hw with ⟨hw, hl⟩ | ⟨hw, hl⟩ | ⟨hw, hl⟩
  · rw [show follow b = [isCont] by simp only [follow, hw]] at h
    obtain _ | ⟨hx, _ | _⟩ := h
    have hx := isCont_iff.mp hx
    dsimp only [codePoint]
    omega
  · rw [show follow b = [secondOk b, isCont] by simp only [follow, hw]] at h
    obtain _ | ⟨hx, _ | ⟨hy, _ | _⟩⟩ := h
    have hx := secondOk_bounds hx
    have hy := isCont_iff.mp hy
    dsimp only [codePoint]
    omega
  · rw [show follow b = [secondOk b, isCont, isCont] by simp only [follow, hw]] at h
    obtain _ | ⟨hx, _ | ⟨hy, _ | ⟨hz, _ | _⟩⟩⟩ := h
    have hx := secondOk_bounds hx
    have hy := isCont_iff.mp hy
    have hz := isCont_iff.mp hz
    dsimp only [codePoint]
    omega

theorem toNat_charOfNat {n : ℕ} (h : n.isValidChar) : (Char.ofNat n).toNat = n := by
  rw [Char.ofNat, dif_pos h]
  rfl

theorem le_text_scan {acc r : List UInt8} {ps : List (UInt8 → Bool)}
    (h : ∀ l, List.Forall₂ (fun p b => p b = true) ps l →
      0x80 ≤ (Char.ofNat (codePoint (acc ++ l))).toNat) :
    0x80 ≤ (scan acc ps r).1.text.toNat := by
  fun_induction scan acc ps r with
  | case1 acc r =>
    have hacc := h [] .nil
    rwa [List.append_nil] at hacc
  | case2 | case4 => exact (by decide : 0x80 ≤ replacement.toNat)
  | case3 acc p ps b r hp ih =>
    refine ih fun l hl => ?_
    rw [List.append_assoc]
    exact h (b :: l) (.cons hp hl)

theorem isCont_of_mem_scan {acc r : List UInt8} {ps : List (UInt8 → Bool)}
    (hps : ∀ p ∈ ps, ∀ x, p x → isCont x) {x : UInt8} (hx : x ∈ (scan acc ps r).1.bytes) :
    x ∈ acc ∨ isCont x := by
  fun_induction scan acc ps r with
  | case1 | case2 | case4 => exact .inl hx
  | case3 acc p ps b r hp ih =>
    rcases ih (fun p hp => hps p (.tail _ hp)) hx with h | h
    · rcases List.mem_append.mp h with h | h
      · exact .inl h
      · exact .inr (List.mem_singleton.mp h ▸ hps p (.head _) b hp)
    · exact .inr h

theorem next_ascii (hb : b.toNat < 0x80) (r : List UInt8) :
    next b r = (.char (Char.ofNat b.toNat) [b], r) := by
  have hw : width b = 1 := if_pos hb
  have hf : follow b = [] := by simp only [follow, hw]
  rw [next, hw, if_neg Nat.one_ne_zero, hf, scan]
  rfl

/-- Outside ASCII neither the character of a token nor a byte of it is in ASCII. -/
theorem next_of_le (hb : 0x80 ≤ b.toNat) (r : List UInt8) :
    0x80 ≤ (next b r).1.text.toNat ∧ ∀ x ∈ (next b r).1.bytes, 0x80 ≤ x.toNat := by
  unfold next
  split_ifs with hw
  · refine ⟨(by decide : 0x80 ≤ replacement.toNat), fun x hx => ?_⟩
    rwa [List.mem_singleton.mp hx]
  · constructor
    · refine le_text_scan fun l hl => ?_
      obtain ⟨hle, hvalid⟩ := codePoint_bounds hb hw hl
      rwa [List.singleton_append, toNat_charOfNat hvalid]
    · intro x hx
      rcases isCont_of_mem_scan (fun p hp x hx => isCont_of_follow hp hx) hx with h | h
      · rwa [List.mem_singleton.mp h]
      · exact (isCont_iff.mp h).1

/-- **The lossy decoder keeps what is in ASCII.** -/
theorem countP_lossy (P : ℕ → Bool) (bs : List UInt8) :
    (fromUtf8Lossy bs).countP (fun c => c.toNat < 0x80 && P c.toNat) =
      bs.countP fun b => b.toNat < 0x80 && P b.toNat := by
  induction bs using tokens_induction with
  | hnil => rfl
  | hcons b r ih =>
    by_cases hb : b.toNat < 0x80
    · have hc : (Char.ofNat b.toNat).toNat = b.toNat := toNat_charOfNat (.inl (by omega))
      rw [lossy_cons]
      rw [next_ascii hb] at ih ⊢
      rw [List.countP_cons, List.countP_cons, ih]
      simp only [Token.text, hc]
    · obtain ⟨htext, hbytes⟩ := next_of_le (Nat.not_lt.mp hb) r
      have hzero : (next b r).1.bytes.countP (fun b => b.toNat < 0x80 && P b.toNat) = 0 := by
        refine List.countP_eq_zero.mpr fun x hx => ?_
        simp [Nat.not_lt.mpr (hbytes x hx)]
      rw [lossy_cons, List.countP_cons, ih, ← next_bytes b r, List.countP_append, hzero,
        Nat.zero_add]
      simp [Nat.not_lt.mpr htext]

end RasterRuntime.Text.Utf8
