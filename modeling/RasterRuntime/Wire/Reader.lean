import Mathlib.Algebra.Group.Nat.Defs
import Mathlib.Data.List.Basic

/-! # Readers of self-delimiting formats

A reader takes bytes from an input and can fail. The input is any type `σ` with the bytes it still
has to give (`Feed.left`) and a relation `Feed.After bs s s'`, that `s'` is `s` after the bytes `bs`
were taken: a byte string with a position, or a stream.

`Reads r bs a` says that `r` reads `a` from the bytes `bs` and takes nothing else, and that it fails
on an input that ends before `bs` does. It is closed under the ways formats are put together:

* `Reads.pure`, `Reads.bind`, `Reads.last`, `Reads.map`: one part after the other;
* `Reads.many`: a list of parts, and `Reads.many_cut`: what is read of it when the input ends early;
* `Reads.u32`, `Reads.u64`, `Reads.len`: big-endian numbers, and what comes after its length, over
  any reader that takes a given number of bytes. -/

namespace RasterRuntime.Wire

/-- An input that gives bytes. -/
class Feed (σ : Type) where
  left : σ → List UInt8
  After : List UInt8 → σ → σ → Prop
  left_of_after : ∀ {bs rest s s'}, left s = bs ++ rest → After bs s s' → left s' = rest
  after_nil : ∀ s, After [] s s
  after_append : ∀ {a b s s' s''}, After a s s' → After b s' s'' → After (a ++ b) s s''

/-- A fallible reader. -/
abbrev Reader (σ ε : Type) := StateT σ (Except ε)

section reads

variable {σ ε α β : Type} [Feed σ]

/-- **`r` reads `a` from `bs`, and fails on less.** -/
structure Reads (r : Reader σ ε α) (bs : List UInt8) (a : α) : Prop where
  whole : ∀ s rest, Feed.left s = bs ++ rest → ∃ s', r s = .ok (a, s') ∧ Feed.After bs s s'
  short : ∀ s, Feed.left s <+: bs → Feed.left s ≠ bs → ∃ e, r s = .error e

theorem Reads.pure (a : α) : Reads (pure a : Reader σ ε α) [] a where
  whole := fun s _ _ => ⟨s, rfl, Feed.after_nil s⟩
  short := fun _ hp hne => absurd (List.prefix_nil.mp hp) hne

variable {r : Reader σ ε α} {bs : List UInt8} {a : α}
  {k : α → Reader σ ε β} {b : β} {enc : α → List UInt8}

theorem Reads.bind {cs : List UInt8} (h : Reads r bs a) (hk : Reads (k a) cs b) :
    Reads (r >>= k) (bs ++ cs) b where
  whole := fun s rest hs => by
    rw [List.append_assoc] at hs
    obtain ⟨s1, hr, h1⟩ := h.whole s _ hs
    obtain ⟨s2, hr2, h2⟩ := hk.whole s1 rest (Feed.left_of_after hs h1)
    refine ⟨s2, ?_, Feed.after_append h1 h2⟩
    show (r s >>= fun p => k p.1 p.2) = _
    rw [hr]
    exact hr2
  short := fun s hp hne => by
    show ∃ e, (r s >>= fun p => k p.1 p.2) = .error e
    have hr : (∃ e, r s = .error e) ∨ ∃ q, Feed.left s = bs ++ q := by
      rcases List.prefix_or_prefix_of_prefix hp (List.prefix_append bs cs) with hp' | ⟨q, hq⟩
      · by_cases he : Feed.left s = bs
        · exact Or.inr ⟨[], by rw [he, List.append_nil]⟩
        · exact Or.inl (h.short s hp' he)
      · exact Or.inr ⟨q, hq.symm⟩
    rcases hr with ⟨e, he⟩ | ⟨q, hq⟩
    · exact ⟨e, by rw [he]; rfl⟩
    · obtain ⟨s1, hr, h1⟩ := h.whole s q hq
      have hl := Feed.left_of_after hq h1
      rw [hq] at hp hne
      obtain ⟨e, he⟩ := hk.short s1 (by rw [hl]; exact (List.prefix_append_right_inj bs).mp hp)
        (by rw [hl]; intro hc; exact hne (by rw [hc]))
      exact ⟨e, by rw [hr]; exact he⟩

theorem Reads.last (h : Reads r bs a) (hk : Reads (k a) [] b) :
    Reads (r >>= k) bs b := by
  have hb := h.bind hk
  rwa [List.append_nil] at hb

theorem Reads.map (h : Reads r bs a) (f : α → β) :
    Reads (f <$> r) bs (f a) :=
  h.last (k := fun x => Pure.pure (f x)) (Reads.pure (f a))

/-- The same reader `n` times. -/
def many (r : Reader σ ε α) : ℕ → Reader σ ε (List α)
  | 0 => pure []
  | n + 1 => do
    let a ← r
    let as ← many r n
    pure (a :: as)

theorem Reads.many : ∀ xs : List α,
    (∀ x ∈ xs, Reads r (enc x) x) → Reads (Wire.many r xs.length) (xs.flatMap enc) xs
  | [], _ => Reads.pure []
  | x :: xs, h => by
    have hx := h x (by simp)
    have hxs := Reads.many xs fun y hy => h y (by simp [hy])
    exact hx.bind (hxs.last (Reads.pure (x :: xs)))

/-- **An input that ends early**: the parts before the cut are read, and the next one fails. -/
theorem Reads.many_cut : ∀ (xs : List α) (s : σ),
    (∀ x ∈ xs, Reads r (enc x) x) → Feed.left s <+: xs.flatMap enc → Feed.left s ≠ xs.flatMap enc →
    ∃ before x after q s', xs = before ++ x :: after ∧
      Feed.left s = before.flatMap enc ++ q ∧ q <+: enc x ∧ q ≠ enc x ∧
      Wire.many r before.length s = .ok (before, s') ∧ ∃ e, r s' = .error e
  | [], s, _, hp, hne => absurd (List.prefix_nil.mp hp) hne
  | x :: xs, s, h, hp, hne => by
    have hx := h x (by simp)
    rw [List.flatMap_cons] at hp hne
    by_cases hpx : enc x <+: Feed.left s
    · -- the first part is whole, and the cut is further on
      obtain ⟨q, hq⟩ := hpx
      obtain ⟨s1, hr, h1⟩ := hx.whole s q hq.symm
      have hl := Feed.left_of_after hq.symm h1
      rw [← hq] at hp hne
      have hp1 : Feed.left s1 <+: xs.flatMap enc := by
        rw [hl]
        exact (List.prefix_append_right_inj _).mp hp
      obtain ⟨before, y, after, q', s2, hxs, hq', hpy, hney, hm, he⟩ := Reads.many_cut xs s1
        (fun y hy => h y (by simp [hy])) hp1 (by rw [hl]; exact fun hc => hne (by rw [hc]))
      refine ⟨x :: before, y, after, q', s2, by rw [hxs]; rfl, ?_, hpy, hney, ?_, he⟩
      · rw [← hq, ← hl, hq', List.flatMap_cons, List.append_assoc]
      · show (r s >>= fun p => (Wire.many r before.length >>= _) p.2) = _
        rw [hr]
        show (Wire.many r before.length s1 >>= _) = _
        rw [hm]
        rfl
    · rcases List.prefix_or_prefix_of_prefix hp (List.prefix_append (enc x) _) with hp' | hp'
      · have hne' : Feed.left s ≠ enc x := fun hc => hpx (hc ▸ List.prefix_rfl)
        exact ⟨[], x, xs, _, s, rfl, rfl, hp', hne', rfl, hx.short s hp' hne'⟩
      · exact absurd hp' hpx

end reads

/-! ### Big-endian numbers and counted bytes -/

/-- The last `w` bytes of a number, the highest first. -/
def beBytes : ℕ → ℕ → List UInt8
  | 0, _ => []
  | w + 1, v => beBytes w (v / 256) ++ [UInt8.ofNat (v % 256)]

/-- The number of big-endian bytes. -/
def ofBe (bs : List UInt8) : ℕ := bs.foldl (fun v b => v * 256 + b.toNat) 0

theorem length_beBytes : ∀ w v : ℕ, (beBytes w v).length = w
  | 0, _ => rfl
  | w + 1, v => by rw [beBytes, List.length_append, length_beBytes w]; rfl

theorem ofBe_beBytes : ∀ w v : ℕ, ofBe (beBytes w v) = v % 256 ^ w
  | 0, v => by simp [beBytes, ofBe, Nat.mod_one]
  | w + 1, v => by
    have ih := ofBe_beBytes w (v / 256)
    have hb : (UInt8.ofNat (v % 256)).toNat = v % 256 := by
      rw [UInt8.toNat_ofNat']; omega
    unfold ofBe at ih ⊢
    rw [beBytes, List.foldl_append, ih, List.foldl_cons, List.foldl_nil, hb, Nat.pow_succ',
      Nat.mod_mul]
    omega

/-- The four bytes of a 32-bit number. -/
def u32Bytes (v : UInt32) : List UInt8 := beBytes 4 v.toNat

/-- The eight bytes of a 64-bit number. -/
def u64Bytes (v : UInt64) : List UInt8 := beBytes 8 v.toNat

section numbers

variable {σ ε : Type} [Feed σ] (take : ℕ → Reader σ ε (List UInt8))

/-- `take n` takes `n` bytes, and fails on less. -/
def Takes : Prop := ∀ bs : List UInt8, Reads (take bs.length) bs bs

def u32 : Reader σ ε UInt32 := (fun bs => UInt32.ofNat (ofBe bs)) <$> take 4

def u64 : Reader σ ε UInt64 := (fun bs => UInt64.ofNat (ofBe bs)) <$> take 8

variable {take} (h : Takes take)
include h

theorem Reads.u32 (v : UInt32) : Reads (Wire.u32 take) (u32Bytes v) v := by
  have hr := (h (beBytes 4 v.toNat)).map fun bs => UInt32.ofNat (ofBe bs)
  rwa [length_beBytes, ofBe_beBytes, Nat.mod_eq_of_lt (show v.toNat < 256 ^ 4 from v.toNat_lt),
    UInt32.ofNat_toNat] at hr

theorem Reads.u64 (v : UInt64) : Reads (Wire.u64 take) (u64Bytes v) v := by
  have hr := (h (beBytes 8 v.toNat)).map fun bs => UInt64.ofNat (ofBe bs)
  rwa [length_beBytes, ofBe_beBytes, Nat.mod_eq_of_lt (show v.toNat < 256 ^ 8 from v.toNat_lt),
    UInt64.ofNat_toNat] at hr

theorem Reads.len {α : Type} {n : ℕ} (hn : n < 2 ^ 32) {k : ℕ → Reader σ ε α} {bs : List UInt8}
    {a : α} (hk : Reads (k n) bs a) :
    Reads (Wire.u32 take >>= fun v => k v.toNat) (u32Bytes (UInt32.ofNat n) ++ bs) a :=
  (Reads.u32 h (UInt32.ofNat n)).bind (by rwa [UInt32.toNat_ofNat_of_lt' hn])

end numbers

end RasterRuntime.Wire
