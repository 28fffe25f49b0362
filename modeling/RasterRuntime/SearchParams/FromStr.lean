import RasterRuntime.Text.Utf8
import RasterRuntime.Text.Split
import Mathlib.Data.List.DropRight

/-! # The parameters of a string

`from_str` makes the string the query of a URL with `Url::join`, and the pairs are read from that
query. The crate of the URLs is a parameter, which is to do what the URL standard says
(`UrlCrate.Standard`): the parser of URLs drops the controls and spaces at the end, drops tabs and
line ends, and cuts the query at the first `#`; what it percent-encodes is decoded again. Texts are
their UTF-8 bytes.

* `parse_flatMap`: the pairs do not depend on what is percent-encoded.
* `visible_parse`: the pairs show the characters in ASCII of the decoded query, separators apart.
* `fromStr_eq_iff`: every byte that is dropped shows, so the pairs are those of the string exactly
  if none is. -/

namespace RasterRuntime.SearchParams

open Text
open Text.Utf8 (countP_lossy forall_byte fromUtf8Lossy)

abbrev Bytes := List UInt8

/-! ### `application/x-www-form-urlencoded` -/

def hexValue (b : UInt8) : Option UInt8 :=
  if 48 ≤ b ∧ b ≤ 57 then some (b - 48)
  else if 65 ≤ b ∧ b ≤ 70 then some (b - 55)
  else if 97 ≤ b ∧ b ≤ 102 then some (b - 87)
  else none

def unplus (b : UInt8) : UInt8 := if b = 43 then 32 else b

/-- A `+` is a space, and an escape is its byte; broken escapes stay. -/
def percentDecode : Bytes → Bytes
  | [] => []
  | [b] => [unplus b]
  | [b, c] => [unplus b, unplus c]
  | b :: h :: l :: rest =>
    match decide (b = 37), hexValue h, hexValue l with
    | true, some x, some y => (16 * x + y) :: percentDecode rest
    | _, _, _ => unplus b :: percentDecode (h :: l :: rest)

/-- The pair of a sequence between two `&`. -/
def pair (f : Bytes) : List Char × List Char :=
  let (name, value) := cut 61 f
  (fromUtf8Lossy (percentDecode name), fromUtf8Lossy (percentDecode value))

/-- **The parser of the URL standard.** -/
def parse (q : Bytes) : List (List Char × List Char) := ((split 38 q).filter (· ≠ [])).map pair

/-! ### The queries of URLs -/

/-- A C0 control or a space. -/
def isBlank (b : UInt8) : Bool := b ≤ 32

def isTabOrNewline (b : UInt8) : Bool := b = 9 || b = 10 || b = 13

/-- The special-query percent-encode set. -/
def inQuerySet (b : UInt8) : Bool :=
  b ≤ 32 || 126 < b || b = 34 || b = 35 || b = 39 || b = 60 || b = 62

def hexDigit (n : UInt8) : UInt8 := if n < 10 then 48 + n else 55 + n

def percentEncode (b : UInt8) : Bytes :=
  if inQuerySet b then [37, hexDigit (b / 16), hexDigit (b % 16)] else [b]

/-- What the parser of URLs leaves of a reference after its `?`. -/
def urlQuery (q : Bytes) : Bytes :=
  ((q.rdropWhile isBlank).filter (! isTabOrNewline ·)).takeWhile (· ≠ 35)

/-! ### `from_str` -/

/-- What is used of the crate of the URLs. -/
structure UrlCrate where
  /-- The query of `http://example.com`, joined with a reference. -/
  joinQuery : Bytes → Bytes
  /-- `query_pairs` of a query. -/
  queryPairs : Bytes → List (List Char × List Char)

/-- **The crate follows the URL standard.** -/
structure UrlCrate.Standard (U : UrlCrate) : Prop where
  joinQuery_eq : ∀ q, U.joinQuery (63 :: q) = (urlQuery q).flatMap percentEncode
  queryPairs_eq : ∀ q, U.queryPairs q = parse q

/-- `from_str`, with the pairs of the new object. -/
def fromStr (U : UrlCrate) (query : Bytes) : List (List Char × List Char) :=
  let query := if query.head? ≠ some 63 then 63 :: query else query
  U.queryPairs (U.joinQuery query)

/-- The string without one leading `?`. -/
def dropMark (s : Bytes) : Bytes := if s.head? = some 63 then s.tail else s

/-! ### Decoding -/

/-- A `%` and two digits. -/
def Escapes (b : UInt8) (r : Bytes) : Prop :=
  b = 37 ∧ ∃ h l t, r = h :: l :: t ∧ (hexValue h).isSome ∧ (hexValue l).isSome

section

variable {b h l x y : UInt8} {r : Bytes}

theorem percentDecode_escape (hx : hexValue h = some x) (hy : hexValue l = some y) :
    percentDecode (37 :: h :: l :: r) = (16 * x + y) :: percentDecode r := by
  simp [percentDecode, hx, hy]

theorem percentDecode_plain (hb : ¬ Escapes b r) :
    percentDecode (b :: r) = unplus b :: percentDecode r := by
  match r with
  | [] => rfl
  | [c] => rfl
  | h :: l :: t =>
    rw [percentDecode]
    split
    · rename_i hd hx hy
      exact absurd ⟨of_decide_eq_true hd, h, l, t, rfl, by simp [hx], by simp [hy]⟩ hb
    · rfl

theorem decode_induction {P : Bytes → Prop} (hnil : P [])
    (hescape : ∀ h l r x y, hexValue h = some x → hexValue l = some y → P r → P (37 :: h :: l :: r))
    (hplain : ∀ b r, ¬ Escapes b r → P r → P (b :: r)) (q : Bytes) : P q := by
  induction hn : q.length using Nat.strongRecOn generalizing q with
  | _ n ih =>
    subst hn
    match q with
    | [] => exact hnil
    | b :: r =>
      by_cases hb : Escapes b r
      · obtain ⟨rfl, h, l, t, rfl, hh, hl⟩ := hb
        obtain ⟨x, hx⟩ := Option.isSome_iff_exists.mp hh
        obtain ⟨y, hy⟩ := Option.isSome_iff_exists.mp hl
        exact hescape h l t x y hx hy (ih _ (by simp only [List.length_cons]; omega) t rfl)
      · exact hplain b r hb (ih _ (by simp) r rfl)

end

/-! ### The encoding is not seen -/

theorem hexValue_hexDigit : ∀ b : UInt8, hexValue (hexDigit (b / 16)) = some (b / 16) ∧
    hexValue (hexDigit (b % 16)) = some (b % 16) ∧ 16 * (b / 16) + b % 16 = b :=
  forall_byte (by decide +kernel)

theorem percentEncode_of_isSome {h : UInt8} (hh : (hexValue h).isSome) : percentEncode h = [h] := by
  unfold hexValue at hh
  unfold percentEncode inQuerySet
  grind

theorem flatMap_eq_cons {h : UInt8} {r t : Bytes} (he : r.flatMap percentEncode = h :: t)
    (hh : (hexValue h).isSome) : ∃ r', r = h :: r' ∧ t = r'.flatMap percentEncode := by
  cases r with
  | nil => cases he
  | cons c r =>
    rw [List.flatMap_cons, percentEncode] at he
    split_ifs at he
    · cases he
      cases hh
    · cases he
      exact ⟨r, rfl, rfl⟩

theorem percentDecode_flatMap (q : Bytes) :
    percentDecode (q.flatMap percentEncode) = percentDecode q := by
  induction q using decode_induction with
  | hnil => rfl
  | hescape h l r x y hx hy ih =>
    have he : (37 :: h :: l :: r).flatMap percentEncode =
        37 :: h :: l :: r.flatMap percentEncode := by
      simp only [List.flatMap_cons, percentEncode_of_isSome (h := h) (by rw [hx]; rfl),
        percentEncode_of_isSome (h := l) (by rw [hy]; rfl)]
      rfl
    rw [he, percentDecode_escape hx hy, percentDecode_escape hx hy, ih]
  | hplain b r hb ih =>
    rw [List.flatMap_cons, percentDecode_plain hb, ← ih]
    cases hq : inQuerySet b with
    | true =>
      obtain ⟨hx, hy, hbyte⟩ := hexValue_hexDigit b
      have hu : unplus b = b := if_neg fun h => by subst h; cases hq
      rw [percentEncode, if_pos hq, hu, List.cons_append, List.cons_append, List.cons_append,
        List.nil_append, percentDecode_escape hx hy, hbyte]
    | false =>
      rw [percentEncode, if_neg (by simp [hq]), List.singleton_append]
      refine percentDecode_plain ?_
      rintro ⟨rfl, h, l, t, he, hh, hl⟩
      obtain ⟨r₁, rfl, he₁⟩ := flatMap_eq_cons he hh
      obtain ⟨r₂, rfl, -⟩ := flatMap_eq_cons he₁.symm hl
      exact hb ⟨rfl, h, l, r₂, rfl, hh, hl⟩

theorem notMem_percentEncode (b : UInt8) : (b ≠ 38 → 38 ∉ percentEncode b) ∧
    (b ≠ 61 → 61 ∉ percentEncode b) := by
  unfold percentEncode hexDigit
  grind

theorem percentEncode_ne_nil (b : UInt8) : percentEncode b ≠ [] := by
  unfold percentEncode
  split_ifs <;> simp

theorem parse_flatMap (q : Bytes) : parse (q.flatMap percentEncode) = parse q := by
  have hpair : ∀ f : Bytes, pair (f.flatMap percentEncode) = pair f := by
    intro f
    unfold pair
    rw [cut_flatMap (rfl : percentEncode 61 = [61]) fun b hb => (notMem_percentEncode b).2 hb]
    simp only [percentDecode_flatMap]
  have hnil : ∀ f : Bytes, decide (f.flatMap percentEncode ≠ []) = decide (f ≠ []) := by
    intro f
    cases f with
    | nil => rfl
    | cons b f => simp [percentEncode_ne_nil]
  unfold parse
  rw [split_flatMap (rfl : percentEncode 38 = [38]) fun b hb => (notMem_percentEncode b).1 hb,
    List.filter_map, List.map_map]
  simp only [Function.comp_def, hpair, hnil]

/-! ### What the pairs show -/

/-- A byte in ASCII that is not a separator. -/
def isShown (n : ℕ) : Bool := n ≠ 38 && n ≠ 61

/-- The characters in ASCII of the pairs, separators apart. -/
def visible (pairs : List (List Char × List Char)) : ℕ :=
  (pairs.flatMap fun p => p.1 ++ p.2).countP fun c => c.toNat < 0x80 && isShown c.toNat

/-- The same of a query, when it is decoded. -/
def weight (q : Bytes) : ℕ :=
  (percentDecode q).countP fun b => b.toNat < 0x80 && isShown b.toNat

/-- Escapes end before a byte that is neither a digit nor a `%`. -/
theorem percentDecode_break {b : UInt8} (hhex : hexValue b = none) (hb : b ≠ 37) (u v : Bytes) :
    percentDecode (u ++ b :: v) = percentDecode u ++ unplus b :: percentDecode v := by
  induction u using decode_induction with
  | hnil => exact percentDecode_plain fun h => hb h.1
  | hescape h l r x y hx hy ih =>
    rw [percentDecode_escape hx hy, List.cons_append, List.cons_append, List.cons_append,
      percentDecode_escape hx hy, ih, List.cons_append]
  | hplain c r hc ih =>
    have hplain : ¬ Escapes c (r ++ b :: v) := by
      rintro ⟨rfl, h, l, t, he, hh, hl⟩
      match r with
      | [] =>
        cases he
        rw [hhex] at hh
        cases hh
      | [h] =>
        cases he
        rw [hhex] at hl
        cases hl
      | h :: l :: r =>
        cases he
        exact hc ⟨rfl, h, l, r, rfl, hh, hl⟩
    rw [percentDecode_plain hc, List.cons_append, percentDecode_plain hplain, ih, List.cons_append]

theorem weight_break {b : UInt8} (hhex : hexValue b = none) (hb : b ≠ 37) (u v : Bytes) :
    weight (u ++ b :: v) = weight u + weight [b] + weight v := by
  unfold weight
  rw [percentDecode_break hhex hb, List.countP_append, ← List.singleton_append, List.countP_append,
    Nat.add_assoc]
  rfl

theorem countP_pair (f : Bytes) :
    ((pair f).1 ++ (pair f).2).countP (fun c => c.toNat < 0x80 && isShown c.toNat) = weight f := by
  rw [List.countP_append, pair]
  dsimp only
  rw [countP_lossy, countP_lossy]
  by_cases h : 61 ∈ f
  · obtain ⟨name, value, rfl, hname⟩ := List.eq_append_cons_of_mem h
    rw [cut_append hname, weight_break rfl (by decide)]
    rfl
  · rw [cut_of_notMem h]
    rfl

/-- The pairs show what the query is decoded to. -/
theorem visible_parse (q : Bytes) : visible (parse q) = weight q := by
  have hone (f : Bytes) (rest : List Bytes) :
      visible (((f :: rest).filter (· ≠ [])).map pair) =
        weight f + visible ((rest.filter (· ≠ [])).map pair) := by
    by_cases hf : f = []
    · rw [hf]
      exact (Nat.zero_add _).symm
    · rw [List.filter_cons_of_pos (by simpa using hf), ← countP_pair, List.map_cons, visible,
        List.flatMap_cons, List.countP_append]
      rfl
  induction q using split_induction (38 : UInt8) with
  | hlast a ha =>
    rw [parse, split_of_notMem ha, hone]
    rfl
  | hcons a l ha ih =>
    rw [parse, split_append ha, hone, weight_break rfl (by decide)]
    exact congrArg (weight a + ·) ih

/-! ### What is dropped -/

theorem dropped_spec : ∀ b : UInt8, isBlank b ∨ b = 35 →
    hexValue b = none ∧ b ≠ 37 ∧ weight [b] = 1 :=
  forall_byte (by decide +kernel)

theorem weight_plain {b : UInt8} {r : Bytes} (h : ¬ Escapes b r) :
    weight (b :: r) = weight [b] + weight r := by
  unfold weight
  rw [percentDecode_plain h, ← List.singleton_append, List.countP_append]
  rfl

theorem weight_escape_le {h l : UInt8} {r : Bytes} (hh : (hexValue h).isSome)
    (hl : (hexValue l).isSome) : weight (37 :: h :: l :: r) ≤ 1 + weight r := by
  obtain ⟨x, hx⟩ := Option.isSome_iff_exists.mp hh
  obtain ⟨y, hy⟩ := Option.isSome_iff_exists.mp hl
  unfold weight
  rw [percentDecode_escape hx hy, List.countP_cons, Nat.add_comm]
  refine Nat.add_le_add_right ?_ _
  split_ifs <;> omega

theorem weight_digit {h : UInt8} {r : Bytes} (hh : (hexValue h).isSome) :
    weight r ≤ weight (h :: r) := by
  have hplain : ¬ Escapes h r := by
    rintro ⟨rfl, -⟩
    cases hh
  rw [weight_plain hplain]
  exact Nat.le_add_left _ _

/-- Two parts can be one escape together, which shows less than the parts. -/
theorem weight_append_le (u v : Bytes) : weight (u ++ v) ≤ weight u + weight v := by
  induction u using decode_induction with
  | hnil => exact Nat.le_add_left _ _
  | hescape h l r x y hx hy ih =>
    unfold weight at ih ⊢
    rw [List.cons_append, List.cons_append, List.cons_append, percentDecode_escape hx hy,
      percentDecode_escape hx hy, List.countP_cons, List.countP_cons]
    omega
  | hplain c r hc ih =>
    by_cases hesc : Escapes c (r ++ v)
    · obtain ⟨rfl, h, l, t, he, hh, hl⟩ := hesc
      have hle := weight_escape_le (r := t) hh hl
      rw [List.cons_append, he]
      match r with
      | [] =>
        have hv : v = h :: l :: t := he
        have hdigits := (weight_digit (r := t) hl).trans (weight_digit hh)
        rw [hv]
        exact hle.trans (Nat.add_le_add_left hdigits 1)
      | [c] =>
        obtain ⟨rfl, hv⟩ : c = h ∧ v = l :: t := List.cons.inj he
        have hdigit := weight_digit (r := t) hl
        have htwo : 1 ≤ weight [37, c] := by
          rw [weight_plain hc]
          exact Nat.le_add_right 1 _
        rw [hv]
        omega
      | c :: d :: r =>
        cases he
        exact absurd ⟨rfl, h, l, r, rfl, hh, hl⟩ hc
    · rw [List.cons_append, weight_plain hesc, weight_plain hc]
      omega

section Drops

variable {b : UInt8} (hb : isBlank b ∨ b = 35) (u v : Bytes)

include hb

theorem weight_lt : weight u < weight (u ++ b :: v) := by
  obtain ⟨hhex, hne, hone⟩ := dropped_spec b hb
  rw [weight_break hhex hne, hone]
  omega

theorem weight_append_lt : weight (u ++ v) < weight (u ++ b :: v) := by
  obtain ⟨hhex, hne, hone⟩ := dropped_spec b hb
  have hle := weight_append_le u v
  rw [weight_break hhex hne, hone]
  omega

end Drops

theorem filter_or_lt {p : UInt8 → Bool} (hp : ∀ b, p b = false → isBlank b ∨ b = 35) (q : Bytes) :
    q.filter p = q ∨ weight (q.filter p) < weight q := by
  induction hn : q.length using Nat.strongRecOn generalizing q with
  | _ n ih =>
    by_cases h : ∀ b ∈ q, p b
    · exact .inl (List.filter_eq_self.mpr h)
    · push Not at h
      obtain ⟨b, hmem, hb⟩ := h
      have hb : p b = false := Bool.eq_false_iff.mpr hb
      obtain ⟨u, v, rfl⟩ := List.append_of_mem hmem
      have hlt := weight_append_lt (hp b hb) u v
      have hfilter : (u ++ b :: v).filter p = (u ++ v).filter p := by simp [hb]
      rw [hfilter]
      simp only [List.length_append, List.length_cons] at hn
      rcases ih (u ++ v).length (by rw [List.length_append]; omega) (u ++ v) rfl with h | h
      · exact .inr (h.symm ▸ hlt)
      · exact .inr (h.trans hlt)

theorem takeWhile_or_lt (q : Bytes) :
    q.takeWhile (· ≠ 35) = q ∨ weight (q.takeWhile (· ≠ 35)) < weight q := by
  cases hrest : q.dropWhile (· ≠ 35) with
  | nil =>
    refine .inl (List.takeWhile_eq_self_iff.mpr ?_)
    exact List.dropWhile_eq_nil_iff.mp hrest
  | cons b v =>
    have hb : b = 35 := by
      have hhead := List.head?_dropWhile_not (p := fun b : UInt8 => decide (b ≠ 35)) q
      rw [hrest] at hhead
      simpa using hhead
    have hq : q.takeWhile (· ≠ 35) ++ b :: v = q := hrest ▸ List.takeWhile_append_dropWhile
    refine .inr ?_
    nth_rewrite 2 [← hq]
    exact weight_lt (.inr hb) _ v

theorem rdropWhile_or_lt (q : Bytes) :
    q.rdropWhile isBlank = q ∨ weight (q.rdropWhile isBlank) < weight q := by
  induction q using List.reverseRecOn with
  | nil => exact .inl rfl
  | append_singleton q b ih =>
    cases hb : isBlank b with
    | false => exact .inl (List.rdropWhile_concat_neg _ _ _ (by simp [hb]))
    | true =>
      have hlt := weight_lt (.inl hb) q []
      rw [List.rdropWhile_concat_pos _ _ _ hb]
      rcases ih with h | h
      · exact .inr (h.symm ▸ hlt)
      · exact .inr (h.trans hlt)

/-! ### What `from_str` reads -/

/-- The string has no tab, line end or `#`, and no control or space at its end. -/
def Whole (q : Bytes) : Prop :=
  (∀ b ∈ q, isTabOrNewline b = false ∧ b ≠ 35) ∧ ∀ b ∈ q.getLast?, isBlank b = false

theorem urlQuery_of_whole {q : Bytes} (h : Whole q) : urlQuery q = q := by
  have hlast : q.rdropWhile isBlank = q := by
    refine List.rdropWhile_eq_self_iff.mpr fun hl => ?_
    simpa using h.2 _ (List.getLast?_eq_some_getLast hl)
  have hfilter : q.filter (! isTabOrNewline ·) = q :=
    List.filter_eq_self.mpr fun b hb => by simp [(h.1 b hb).1]
  rw [urlQuery, hlast, hfilter]
  exact List.takeWhile_eq_self_iff.mpr fun b hb => by simp [(h.1 b hb).2]

/-- Where the parser of URLs drops something, less is shown. -/
theorem whole_or_lt (q : Bytes) : Whole q ∨ weight (urlQuery q) < weight q := by
  have htab (b : UInt8) (h : (! isTabOrNewline b) = false) : isBlank b ∨ b = 35 := by
    simp only [isTabOrNewline, Bool.not_eq_false', Bool.or_eq_true, decide_eq_true_eq] at h
    rcases h with (rfl | rfl) | rfl <;> exact .inl rfl
  have hle {a b : Bytes} (h : a = b ∨ weight a < weight b) : weight a ≤ weight b := by
    rcases h with rfl | h
    exacts [Nat.le_refl _, Nat.le_of_lt h]
  have hdrop := rdropWhile_or_lt q
  have hfilter := filter_or_lt htab (q.rdropWhile isBlank)
  have htake := takeWhile_or_lt ((q.rdropWhile isBlank).filter (! isTabOrNewline ·))
  have hdrop' := hle hdrop
  have hfilter' := hle hfilter
  have htake' := hle htake
  refine or_iff_not_imp_right.mpr fun hnot => ?_
  unfold urlQuery at hnot
  -- none of the three steps drops a byte
  have hdrop := hdrop.resolve_right (by omega)
  have hfilter := hfilter.resolve_right (by omega)
  have htake := htake.resolve_right (by omega)
  rw [hdrop] at hfilter htake
  rw [hfilter] at htake
  refine ⟨fun b hb => ⟨?_, ?_⟩, fun b hb => ?_⟩
  · simpa using List.filter_eq_self.mp hfilter b hb
  · simpa using List.takeWhile_eq_self_iff.mp htake b hb
  · obtain ⟨u, rfl⟩ := List.getLast?_eq_some_iff.mp hb
    simpa using List.rdropWhile_eq_self_iff.mp hdrop (by simp)

theorem fromStr_eq {U : UrlCrate} (hU : U.Standard) (s : Bytes) :
    fromStr U s = parse (urlQuery (dropMark s)) := by
  have hmark : (if s.head? ≠ some 63 then 63 :: s else s) = 63 :: dropMark s := by
    by_cases h : s.head? = some 63
    · obtain ⟨t, rfl⟩ := List.head?_eq_some_iff.mp h
      rfl
    · rw [if_pos h, dropMark, if_neg h]
  unfold fromStr
  dsimp only
  rw [hmark, hU.joinQuery_eq, hU.queryPairs_eq, parse_flatMap]

/-- **The pairs of a string are the parse of it** exactly if the parser of URLs drops nothing. -/
theorem fromStr_eq_iff (U : UrlCrate) (hU : U.Standard) (s : Bytes) :
    fromStr U s = parse (dropMark s) ↔ Whole (dropMark s) := by
  rw [fromStr_eq hU]
  constructor
  · intro h
    refine (whole_or_lt (dropMark s)).resolve_right fun hlt => ?_
    rw [← visible_parse, ← visible_parse, h] at hlt
    exact Nat.lt_irrefl _ hlt
  · intro h
    rw [urlQuery_of_whole h]

/-- A crate that follows the standard. -/
def standardCrate : UrlCrate where
  joinQuery reference := (urlQuery reference.tail).flatMap percentEncode
  queryPairs := parse

theorem standardCrate_standard : standardCrate.Standard := ⟨fun _ => rfl, fun _ => rfl⟩

/-- `?a=1+%26` is read as it is. -/
theorem fromStr_whole :
    fromStr standardCrate [63, 97, 61, 49, 43, 37, 50, 54] = [(['a'], ['1', ' ', '&'])] := by
  rw [(fromStr_eq_iff _ standardCrate_standard _).mpr (by unfold Whole; decide +kernel)]
  decide

/-- Of `a=1#b` the fragment is not read, and of `a=\tb ` neither the tab nor the space. -/
theorem fromStr_cuts :
    fromStr standardCrate [97, 61, 49, 35, 98] ≠ parse (dropMark [97, 61, 49, 35, 98]) ∧
      fromStr standardCrate [97, 61, 9, 98, 32] ≠ parse (dropMark [97, 61, 9, 98, 32]) := by
  decide

end RasterRuntime.SearchParams
