import RasterRuntime.Encoding.Utf16Stream

/-! # When a UTF-16 stream differs from its bytes in one piece

`Utf16Stream` shows that a byte string decodes alike in chunks and in one piece when it has no two
lead surrogates before a trail surrogate and does not end in a lead surrogate and an odd byte. Here
is the converse: each of the two has chunks for which the texts differ. -/

namespace RasterRuntime.Encoding

open Text
open List (append_assoc append_nil cons cons_append drop_left isPrefixOf_iff_prefix length_append
  nil_append)
open Except (map ok)
open Text.Utf8 (replacement)
open Text.Utf16 (isLead isTrail fromUtf16Lossy single pair unitLength)

/-! ### Cutting bytes between units -/

variable {endian : Endian} {u : UInt16} {ignoreBom : Bool} {bs seen : List UInt8}
  {us done : List UInt16} {e : List UInt8} {out : List Char} {d : IncrementalDecoder}
    {a b b' c c' : UInt8}

theorem units_eq_cons {q : List UInt8} (h : units endian q = u :: us) :
    ∃ x y r, q = x :: y :: r ∧ u16FromBytes endian x y = u ∧ units endian r = us := by
  match q with
  | [] | [_] => simp [units] at h
  | x :: y :: r =>
    rw [units, cons.injEq] at h
    exact ⟨x, y, r, rfl, h.1, h.2⟩

theorem units_eq_append : ∀ (pre rest : List UInt16) (w : List UInt8),
    units endian w = pre ++ rest →
      ∃ e q, w = e ++ q ∧ e.length = 2 * pre.length ∧ units endian q = rest
  | [], rest, w, h => ⟨[], w, rfl, rfl, h⟩
  | u :: pre, rest, w, h => by
    obtain ⟨x, y, r, rfl, -, hr⟩ := units_eq_cons h
    obtain ⟨e, q, rfl, hl, hq⟩ := units_eq_append pre rest r hr
    exact ⟨x :: y :: e, q, rfl, by simp only [List.length_cons]; omega, hq⟩

theorem oddByte_of_even (h : e.length % 2 = 0) : oddByte e = none := by
  have hs := oddByte_isSome e
  rw [decide_eq_false (by omega)] at hs
  simpa using hs

theorem bomHeld_of_length (endian : Endian) (h : 2 ≤ seen.length) (ignoreBom : Bool) :
    bomHeld (utf16Encoder endian) ignoreBom seen = false := by
  unfold bomHeld
  rw [length_bomPrefix_utf16, decide_eq_false (by omega), Bool.and_false]

/-- A cut of the bytes after the byte order mark is a cut of all the bytes. -/
theorem bomRest_cut {x y : List UInt8} (h : bomWhole (utf16Encoder endian) ignoreBom bs = x ++ y) :

    ∃ p, bs = p ++ y ∧ ∀ y1 y2, y = y1 ++ y2 → (x ++ y1).length ≠ 1 →
      bomRest (utf16Encoder endian) ignoreBom (p ++ y1) = x ++ y1 := by
  by_cases hpre : ignoreBom = false ∧ (bomPrefix (utf16Encoder endian)).isPrefixOf bs
  · obtain ⟨rfl, hpre⟩ := hpre
    obtain ⟨w, rfl⟩ := isPrefixOf_iff_prefix.mp hpre
    have hw : w = x ++ y := by
      rw [← h]
      unfold bomWhole stripBom
      rw [if_neg (by simp), if_pos hpre, drop_left]
    refine ⟨bomPrefix (utf16Encoder endian) ++ x, by rw [hw, append_assoc], fun y1 y2 _ _ => ?_⟩
    have hpre' : (bomPrefix (utf16Encoder endian)).isPrefixOf
        (bomPrefix (utf16Encoder endian) ++ (x ++ y1)) :=
      isPrefixOf_iff_prefix.mpr (List.prefix_append _ _)
    unfold bomRest bomWhole stripBom
    rw [append_assoc, bomHeld_of_length endian (by simp [length_bomPrefix_utf16]),
      if_neg (by simp), if_neg (by simp), if_pos hpre', drop_left]
  · have hwhole : ∀ l, l <+: bs → bomWhole (utf16Encoder endian) ignoreBom l = l := by
      intro l hl
      unfold bomWhole stripBom
      split_ifs with h1 h2
      · rfl
      · have hmark := isPrefixOf_iff_prefix.mp h2
        have hbs := isPrefixOf_iff_prefix.mpr (hmark.trans hl)
        exact absurd ⟨by simpa using h1, hbs⟩ hpre
      · rfl
    have hbs : bs = x ++ y := by rw [← h, hwhole bs List.prefix_rfl]
    refine ⟨x, hbs, fun y1 y2 hy hne => ?_⟩
    have hp : x ++ y1 <+: bs := ⟨y2, by rw [hbs, hy, append_assoc]⟩
    unfold bomRest
    rw [hwhole _ hp]
    by_cases hnil : x ++ y1 = []
    · rw [hnil]; split_ifs <;> rfl
    · have h2 : 2 ≤ (x ++ y1).length := by
        have := List.length_pos_iff.mpr hnil
        omega
      rw [bomHeld_of_length endian h2]
      rfl

theorem decodeChunk_fresh_cut [Codecs] {p : List UInt8}
    (he : bomRest (utf16Encoder endian) ignoreBom p = e) (hl : e.length % 2 = 0) :
    ∃ done out d, IncrementalDecoder.new.decodeChunk (utf16Encoder endian) p true true ignoreBom =
        (.ok out, d) ∧ Utf16Inv endian ignoreBom p done out d ∧ d.utf16OddByte = none := by
  obtain ⟨x, done, us, d, -, -, hchunk, hd⟩ := decodeChunk_utf16 (utf16Inv_new endian ignoreBom) p
  rw [nil_append, nil_append, nil_append] at hd
  refine ⟨done, _, d, hchunk, hd, ?_⟩
  rw [hd.fed.odd_eq, he, oddByte_of_even hl]

theorem decodeChunk_cut [Codecs] (h : Utf16Inv endian ignoreBom seen done out d)
    (chunk : List UInt8)
    (hc : bomRest (utf16Encoder endian) ignoreBom (seen ++ chunk) =
      bomRest (utf16Encoder endian) ignoreBom seen ++ chunk) {odd : Option UInt8}
    {lead : Option UInt16}
    (hl : utf16Loop endian true true (d.utf16OddByte.toList ++ chunk) d.utf16LeadSurrogate [] =
      ⟨.ok us, odd, lead⟩) :
    ∃ done' d', d.decodeChunk (utf16Encoder endian) chunk true true ignoreBom =
        (.ok (fromUtf16Lossy us), d') ∧
      Utf16Inv endian ignoreBom (seen ++ chunk) done' (out ++ fromUtf16Lossy us) d' ∧
      d'.utf16OddByte = odd ∧ d'.utf16LeadSurrogate = lead := by
  obtain ⟨x, done', us', d', hrest, hl', hchunk, hd⟩ := decodeChunk_utf16 h chunk
  have hx : x = chunk := List.append_cancel_left (hrest.symm.trans hc)
  rw [hx, hl, Utf16State.mk.injEq, ok.injEq] at hl'
  obtain ⟨rfl, rfl, rfl⟩ := hl'
  exact ⟨_, d', hchunk, hd, rfl, rfl⟩

theorem decodeChunks_end [Codecs] (h : Utf16Inv endian ignoreBom seen done out d)
    (hs : 2 ≤ seen.length) :
    (openUtf16 endian ignoreBom d).decodeChunks [] [] =
      .ok (utf16End d.utf16OddByte d.utf16LeadSurrogate) := by
  have hheld := bomHeld_of_length endian hs ignoreBom
  obtain ⟨done', d', hchunk, hd, ho, hl⟩ := decodeChunk_cut h [] (by simp)
    (utf16Loop_held endian d.utf16OddByte d.utf16LeadSurrogate)
  rw [append_nil] at hd
  rw [decodeChunks_nil hchunk, flush_utf16 hd hheld, ho, hl]
  rfl

/-! ### A lead surrogate and an odd byte at the end -/

theorem utf16Loop_one_lead (hu : u16FromBytes endian a b = u) (h : isLead u) (odd : Option UInt8)
    (lead : Option UInt16) :
    utf16Loop endian true true (a :: b :: odd.toList) lead [] =
      ⟨.ok (lead.toList.map fun _ => replacementUnit), odd, some u⟩ := by
  subst hu
  rcases lead with _ | l
  · cases odd <;> simp [utf16Loop, h]
  · rw [loop_abandon _ _ _ _ _ _ (Utf16.isTrail_of_isLead h)]
    cases odd <;> simp [utf16Loop, h]

theorem unitLength_utf16Whole (endian : Endian) {w : List UInt8} {z : UInt8}
    (h : oddByte w = some z) : ∃ text, utf16Whole endian w = .ok text ∧
      (units endian w).length < unitLength text := by
  obtain ⟨done, us, lead, hp, -, htext⟩ := utf16Whole_eq endian w
  refine ⟨_, htext, ?_⟩
  have hlen := hp.length_eq
  rw [Utf16.unitLength_lossy, h, hp.units_eq, length_append, length_append]
  rcases lead with _ | l <;> simp [endUnits] <;> omega

theorem exists_chunks_of_endsInLeadOdd [Codecs]
    (h : EndsInLeadOdd endian (bomWhole (utf16Encoder endian) ignoreBom bs)) :
    ∃ chunks : List (List UInt8), chunks.flatten = bs ∧
      (TextDecoder.fresh (utf16Encoder endian) false ignoreBom).decodeChunks chunks [] ≠
        utf16Whole endian (bomWhole (utf16Encoder endian) ignoreBom bs) := by
  obtain ⟨hodd, l, hlast, hlead⟩ := h
  obtain ⟨us, hus⟩ := List.getLast?_eq_some_iff.mp hlast
  obtain ⟨e, q, hw, hel, hq⟩ := units_eq_append us [l] _ hus
  obtain ⟨a, b, r, rfl, hu, hr⟩ := units_eq_cons hq
  have hrl : r.length = 1 := by
    have h1 := length_units endian r
    rw [hr] at h1
    rw [hw] at hodd
    simp only [length_append, List.length_cons, List.length_nil] at hodd h1
    omega
  obtain ⟨z, rfl⟩ := List.length_eq_one_iff.mp hrl
  obtain ⟨p, hbs, hcut⟩ := bomRest_cut hw
  have h0 := hcut [] [a, b, z] rfl (by simp; omega)
  have h1 := hcut [a, b, z] [] rfl (by simp)
  rw [append_nil, append_nil] at h0
  -- the bytes before the surrogate, and the surrogate with the odd byte
  obtain ⟨done, out, d, hchunk, hd, hdo⟩ := decodeChunk_fresh_cut h0 (by omega)
  obtain ⟨done1, d1, hchunk1, hd1, hdo1, hdl1⟩ := decodeChunk_cut hd [a, b, z] (by rw [h0, h1])
    (by rw [hdo]; exact utf16Loop_one_lead hu hlead (some z) d.utf16LeadSurrogate)
  refine ⟨[p, [a, b, z]], by rw [hbs]; simp, fun heq => ?_⟩
  have hfresh : (TextDecoder.fresh (utf16Encoder endian) false ignoreBom).decodeChunks
      [p, [a, b, z]] [] =
      (openUtf16 endian ignoreBom .new).decodeChunks [p, [a, b, z]] [] := rfl
  rw [hfresh, decodeChunks_cons hchunk, decodeChunks_cons hchunk1, decodeChunks_end hd1 (by simp),
    hdo1, hdl1] at heq
  -- the stream has one unit per unit, the text in one piece has more
  have hfed := hd1.fed
  rw [h1, ← hw] at hfed
  have hoddz : oddByte (bomWhole (utf16Encoder endian) ignoreBom bs) = some z := by
    rw [← hfed.odd_eq, hdo1]
  obtain ⟨text, htext, hlt⟩ := unitLength_utf16Whole endian hoddz
  have hone := hfed.unitLength_eq
  have hunits := congrArg List.length hfed.units_eq
  rw [hdl1] at hunits
  rw [htext] at heq
  simp only [map, ok.injEq] at heq
  rw [← heq] at hlt
  simp only [Utf16.unitLength_append, length_append, Option.toList_some, List.length_singleton]
    at hone hunits hlt
  have hend : unitLength (utf16End (some z) (some l)) = 1 := rfl
  rw [hend] at hlt
  omega

/-! ### Two lead surrogates and a trail surrogate -/

variable {v w : UInt16} (hv : u16FromBytes endian b b' = v) (hw : u16FromBytes endian c c' = w)
  (hb : isLead v) (hc : isTrail w) (rest : List UInt8)
include hv hw hb hc

/-- Both lead surrogates in one chunk: the second is not completed. -/
theorem utf16Loop_lead_lead_trail {a' : UInt8} (ha : isLead (u16FromBytes endian a a'))
    (lead : Option UInt16) :
    ∃ us odd lead', utf16Loop endian true true (a :: a' :: b :: b' :: c :: c' :: rest) lead [] =
      ⟨.ok ((lead.toList.map fun _ => replacementUnit) ++
        [replacementUnit, v, replacementUnit] ++ us), odd, lead'⟩ := by
  subst hv hw
  have hcl : isLead (u16FromBytes endian c c') = false := by
    by_contra hcl
    rw [Utf16.isTrail_of_isLead (by simpa using hcl)] at hc
    simp at hc
  have hnone : ∀ acc, utf16Loop endian true true (a :: a' :: b :: b' :: c :: c' :: rest) none acc =
      utf16Loop endian true true rest none
        (acc ++ [replacementUnit, u16FromBytes endian b b', replacementUnit]) := by
    intro acc
    rw [loop_lead _ _ _ _ _ _ _ _ ha (Utf16.isTrail_of_isLead hb), loop_single _ _ _ _ _ _ hcl,
      unitOut, if_pos hc]
    simp
  have hsome : utf16Loop endian true true (a :: a' :: b :: b' :: c :: c' :: rest) lead [] =
      utf16Loop endian true true (a :: a' :: b :: b' :: c :: c' :: rest) none
        (lead.toList.map fun _ => replacementUnit) := by
    rcases lead with _ | l
    · rfl
    · rw [loop_abandon _ _ _ _ _ _ (Utf16.isTrail_of_isLead ha)]
      rfl
  obtain ⟨-, us, lead', hl, -⟩ := utf16Loop_post_none endian rest
    ((lead.toList.map fun _ => replacementUnit) ++
      [replacementUnit, u16FromBytes endian b b', replacementUnit])
  exact ⟨us, _, lead', by rw [hsome, hnone, hl]⟩

/-- The first lead surrogate in a chunk before: the second is completed. -/
theorem utf16Loop_lead_trail (l : UInt16) :
    ∃ us odd lead', utf16Loop endian true true (b :: b' :: c :: c' :: rest) (some l) [] =
      ⟨.ok ([replacementUnit, v, w] ++ us), odd, lead'⟩ := by
  subst hv hw
  obtain ⟨-, us, lead', hl, -⟩ := utf16Loop_post_none endian rest
    [replacementUnit, u16FromBytes endian b b', u16FromBytes endian c c']
  refine ⟨us, oddByte rest, lead', ?_⟩
  rw [loop_abandon _ _ _ _ _ _ (Utf16.isTrail_of_isLead hb), loop_pair _ _ _ _ _ _ _ _ hb hc]
  exact hl

omit hv hw hb hc

theorem pair_ne_replacement (hu : isLead u) (hv : isTrail v) : pair u v ≠ replacement := by
  intro h
  have hn := congrArg Char.toNat h
  rw [Utf16.toNat_pair hu hv] at hn
  have hr : replacement.toNat = 0xFFFD := rfl
  omega

theorem exists_chunks_of_leadLeadTrail [Codecs]
    (h : LeadLeadTrail (units endian (bomWhole (utf16Encoder endian) ignoreBom bs))) :
    ∃ chunks : List (List UInt8), chunks.flatten = bs ∧
      (TextDecoder.fresh (utf16Encoder endian) false ignoreBom).decodeChunks chunks [] ≠
        utf16Whole endian (bomWhole (utf16Encoder endian) ignoreBom bs) := by
  obtain ⟨u, v, w, hu, hv, hw, pre, post, hunits⟩ := h
  rw [append_assoc] at hunits
  obtain ⟨e, q, hwhole, hel, hq⟩ := units_eq_append pre ([u, v, w] ++ post) _ hunits.symm
  obtain ⟨a, a', q1, rfl, rfl, hq1⟩ := units_eq_cons hq
  obtain ⟨b, b', q2, rfl, hvb, hq2⟩ := units_eq_cons hq1
  obtain ⟨c, c', rest, rfl, hwc, -⟩ := units_eq_cons hq2
  obtain ⟨p, hbs, hcut⟩ := bomRest_cut hwhole
  have h0 := hcut [] _ rfl (by simp; omega)
  have h1 := hcut [a, a'] _ rfl (by simp)
  have h2 := hcut _ [] (append_nil _).symm (by simp; omega)
  rw [append_nil, append_nil] at h0
  obtain ⟨done, out, d, hchunk, hd, hdo⟩ := decodeChunk_fresh_cut h0 (by omega)
  -- one cut before the first surrogate
  obtain ⟨us, odd, lead, hl⟩ :=
    utf16Loop_lead_lead_trail hvb hwc hv hw rest hu d.utf16LeadSurrogate
  obtain ⟨done1, d1, hchunk1, hd1, -, -⟩ := decodeChunk_cut hd
    (a :: a' :: b :: b' :: c :: c' :: rest) (by rw [h0, h2]) (by rw [hdo]; exact hl)
  -- and one more after it
  obtain ⟨done2, d2, hchunk2, hd2, hdo2, hdl2⟩ := decodeChunk_cut hd [a, a'] (by rw [h0, h1])
    (by rw [hdo]; exact utf16Loop_one_lead rfl hu none d.utf16LeadSurrogate)
  obtain ⟨us', odd', lead', hl'⟩ := utf16Loop_lead_trail hvb hwc hv hw rest _
  obtain ⟨done3, d3, hchunk3, hd3, -, -⟩ := decodeChunk_cut hd2 (b :: b' :: c :: c' :: rest)
    (by rw [append_assoc, h1]; exact h2.trans (by simp)) (by rw [hdo2, hdl2]; exact hl')
  by_contra hall
  have hsame : ∀ chunks : List (List UInt8), (p :: chunks).flatten = bs →
      (openUtf16 endian ignoreBom .new).decodeChunks (p :: chunks) [] =
        utf16Whole endian (bomWhole (utf16Encoder endian) ignoreBom bs) := by
    intro chunks hchunks
    by_contra hne
    exact hall ⟨p :: chunks, hchunks, hne⟩
  have ht1 := hsame [a :: a' :: b :: b' :: c :: c' :: rest] (by rw [hbs]; simp)
  have ht2 := hsame [[a, a'], b :: b' :: c :: c' :: rest] (by rw [hbs]; simp)
  rw [decodeChunks_cons hchunk, decodeChunks_cons hchunk1,
    decodeChunks_end hd1 (by simp; omega)] at ht1
  rw [decodeChunks_cons hchunk, decodeChunks_cons hchunk2, decodeChunks_cons hchunk3,
    decodeChunks_end hd3 (by simp; omega)] at ht2
  have heq := ht1.trans ht2.symm
  simp only [map, ok.injEq] at heq
  -- the texts differ in the character after the first replacement character
  have hvr : single v = replacement := by unfold single; simp [hv]
  have hx : fromUtf16Lossy ([replacementUnit, v, replacementUnit] ++ us) =
      replacement :: replacement :: fromUtf16Lossy (replacementUnit :: us) := by
    rw [cons_append, cons_append, cons_append, nil_append,
      Utf16.lossy_cons_of_not_lead replacementUnit_isLead, single_replacementUnit,
      Utf16.lossy_cons (by simpa using fun _ => replacementUnit_isTrail), hvr]
  have hy : fromUtf16Lossy ([replacementUnit, v, w] ++ us') =
      replacement :: pair v w :: fromUtf16Lossy us' := by
    rw [cons_append, cons_append, cons_append, nil_append,
      Utf16.lossy_cons_of_not_lead replacementUnit_isLead, single_replacementUnit,
      Utf16.lossy_pair hv hw]
  rw [append_assoc, Utf16.lossy_append _ _ (by
    intro x _ y hy' _
    have hyr : replacementUnit = y := by simpa using hy'
    rw [← hyr]
    exact replacementUnit_isTrail), hx, hy, append_assoc] at heq
  have htail := List.append_cancel_left (List.append_cancel_left heq)
  simp only [cons_append, cons.injEq, true_and] at htail
  exact pair_ne_replacement hv hw htail.1.symm

/-! ### The equivalence -/

theorem units_bomWhole (endian : Endian) (ignoreBom : Bool) (bs : List UInt8) :
    bomWhole (utf16Encoder endian) ignoreBom bs = bs ∨
      ∃ u, isLead u = false ∧ bs.length =
          (bomWhole (utf16Encoder endian) ignoreBom bs).length + 2 ∧
        units endian bs = u :: units endian (bomWhole (utf16Encoder endian) ignoreBom bs) := by
  unfold bomWhole stripBom
  split_ifs with h1 h2
  · exact .inl rfl
  · obtain ⟨w, rfl⟩ := isPrefixOf_iff_prefix.mp h2
    rw [drop_left]
    rcases endian with _ | _
    · exact .inr ⟨u16FromBytes .little 0xFF 0xFE, by decide, by simp [utf16Encoder, bomPrefix], rfl⟩
    · exact .inr ⟨u16FromBytes .big 0xFE 0xFF, by decide, by simp [utf16Encoder, bomPrefix], rfl⟩
  · exact .inl rfl

theorem leadLeadTrail_cons (hu : isLead u = false) (us : List UInt16) :
    LeadLeadTrail (u :: us) ↔ LeadLeadTrail us := by
  refine ⟨?_, fun h => h.mono (List.suffix_cons u us).isInfix⟩
  rintro ⟨a, b, c, ha, hb, hc, hi⟩
  rcases List.infix_cons_iff.mp hi with hp | hi'
  · obtain ⟨rest, hrest⟩ := hp
    have hau : a = u := by simpa using (cons.inj hrest).1
    rw [hau, hu] at ha
    simp at ha
  · exact ⟨a, b, c, ha, hb, hc, hi'⟩

theorem leadLeadTrail_bomWhole (endian : Endian) (ignoreBom : Bool) (bs : List UInt8) :
    LeadLeadTrail (units endian (bomWhole (utf16Encoder endian) ignoreBom bs)) ↔
      LeadLeadTrail (units endian bs) := by
  rcases units_bomWhole endian ignoreBom bs with h | ⟨u, hu, -, h⟩
  · rw [h]
  · rw [h, leadLeadTrail_cons hu]

theorem endsInLeadOdd_bomWhole (endian : Endian) (ignoreBom : Bool) (bs : List UInt8) :
    EndsInLeadOdd endian (bomWhole (utf16Encoder endian) ignoreBom bs) ↔
      EndsInLeadOdd endian bs := by
  rcases units_bomWhole endian ignoreBom bs with h | ⟨u, hu, hl, h⟩
  · rw [h]
  · unfold EndsInLeadOdd
    rw [hl, h, Nat.add_mod_right]
    rcases units endian (bomWhole (utf16Encoder endian) ignoreBom bs) with _ | ⟨v, us⟩
    · simp [hu]
    · rw [List.getLast?_cons_cons]

/-- **A UTF-16 stream against one piece**: a decoder that is not fatal gives the same text for every
way to cut a byte string into chunks as for all of it in one call, if and only if the byte string
has no two lead surrogates before a trail surrogate and does not end in a lead surrogate and an odd
byte. -/
theorem decodeChunks_utf16 [Codecs] (endian : Endian) (ignoreBom : Bool) (bs : List UInt8) :
    (∀ chunks : List (List UInt8), chunks.flatten = bs →
      (TextDecoder.fresh (utf16Encoder endian) false ignoreBom).decodeChunks chunks [] =
        ((TextDecoder.fresh (utf16Encoder endian) false ignoreBom).decode
          ⟨.bytes bs, .ok none⟩).1) ↔
      ¬ LeadLeadTrail (units endian bs) ∧ ¬ EndsInLeadOdd endian bs := by
  rw [← leadLeadTrail_bomWhole endian ignoreBom bs, ← endsInLeadOdd_bomWhole endian ignoreBom bs,
    decode_fresh_utf16]
  constructor
  · intro hall
    refine ⟨fun h => ?_, fun h => ?_⟩
    · obtain ⟨chunks, hchunks, hne⟩ := exists_chunks_of_leadLeadTrail h
      exact hne (hall chunks hchunks)
    · obtain ⟨chunks, hchunks, hne⟩ := exists_chunks_of_endsInLeadOdd h
      exact hne (hall chunks hchunks)
  · rintro ⟨hn, he⟩ chunks hchunks
    exact decodeChunks_utf16_of_not (by rw [append_nil]; exact hchunks) hn he

/-- A lead surrogate and an odd byte are one replacement character in a stream and three in one
piece; a pair after a lead surrogate is found when a chunk ends between the two, and lost in one
piece. -/
theorem decodeChunks_utf16_differ :
    letI := standardCodecs
    (TextDecoder.fresh .utf16le false false).decodeChunks [[0x00, 0xD8, 0x41]] [] =
        .ok ['\uFFFD'] ∧
      ((TextDecoder.fresh .utf16le false false).decode ⟨.bytes [0x00, 0xD8, 0x41], .ok none⟩).1 =
        .ok ['\uFFFD', '\uFFFD', '\uFFFD'] ∧
      (TextDecoder.fresh .utf16le false false).decodeChunks
          [[0x00, 0xD8], [0x3D, 0xD8, 0x00, 0xDE]] [] = .ok ['\uFFFD', Char.ofNat 0x1F600] ∧
      ((TextDecoder.fresh .utf16le false false).decode
          ⟨.bytes [0x00, 0xD8, 0x3D, 0xD8, 0x00, 0xDE], .ok none⟩).1 =
        .ok ['\uFFFD', '\uFFFD', '\uFFFD'] := by
  refine ⟨?_, ?_, ?_, ?_⟩ <;> decide

end RasterRuntime.Encoding
