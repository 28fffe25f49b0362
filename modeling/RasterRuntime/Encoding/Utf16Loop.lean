import RasterRuntime.Encoding.Incremental

/-! # The loop of `decode_utf16_stream`, when it is lossy

`Utf16Post us done out lead` is what one call of the loop has done with the units `us`: it has
written the units `out` for `done`, and holds `lead`, the last unit, if it is a lead surrogate that
may be completed by what comes next.

The loop looks one unit ahead after a lead surrogate, and writes that unit without looking at it
again: of two lead surrogates the second is never completed. So `out` decodes as `done` does when
the units have no two lead surrogates followed by a trail surrogate (`LeadLeadTrail`). -/

namespace RasterRuntime.Encoding

open Text
open Text.Utf16 (isLead isTrail fromUtf16Lossy single pair)

/-! ### One round -/

/-- The odd last byte. -/
def oddByte : List UInt8 → Option UInt8
  | [] => none
  | [x] => some x
  | _ :: _ :: r => oddByte r

theorem replacementUnit_isLead : isLead replacementUnit = false := by decide

theorem replacementUnit_isTrail : isTrail replacementUnit = false := by decide

theorem single_replacementUnit : single replacementUnit = Utf8.replacement := by decide

/-- What is written for a unit that is no lead surrogate. -/
def unitOut (u : UInt16) : UInt16 := if isTrail u then replacementUnit else u

theorem unitOut_isTrail (u : UInt16) : isTrail (unitOut u) = false := by
  unfold unitOut
  by_cases h : isTrail u
  · rw [if_pos h]; exact replacementUnit_isTrail
  · rw [if_neg h]; simpa using h

theorem single_unitOut (u : UInt16) : single (unitOut u) = single u := by
  unfold unitOut
  by_cases h : isTrail u
  · rw [if_pos h, single_replacementUnit]; unfold single; simp [h]
  · rw [if_neg h]

theorem pushUnit_lossy (u : UInt16) (acc : List UInt16) :
    pushUnit true u acc = .ok (acc ++ [unitOut u]) := by
  unfold pushUnit unitOut
  by_cases h : isTrail u = true <;> simp [h]

section rounds

variable (endian : Endian) (stream : Bool) (x y : UInt8) (rest : List UInt8) (acc : List UInt16)
  {l : UInt16}

theorem loop_complete (h : isTrail (u16FromBytes endian x y)) :
    utf16Loop endian true stream (x :: y :: rest) (some l) acc =
      utf16Loop endian true stream rest none (acc ++ [l, u16FromBytes endian x y]) := by
  rw [utf16Loop]
  simp [h]

theorem loop_abandon (h : isTrail (u16FromBytes endian x y) = false) :
    utf16Loop endian true stream (x :: y :: rest) (some l) acc =
      utf16Loop endian true stream (x :: y :: rest) none (acc ++ [replacementUnit]) := by
  rw [utf16Loop, utf16Loop]
  simp [h]

theorem loop_single (h : isLead (u16FromBytes endian x y) = false) :
    utf16Loop endian true stream (x :: y :: rest) none acc =
      utf16Loop endian true stream rest none (acc ++ [unitOut (u16FromBytes endian x y)]) := by
  rw [utf16Loop]
  simp [h, pushUnit_lossy]

theorem loop_pair (x' y' : UInt8) (h : isLead (u16FromBytes endian x y))
    (h' : isTrail (u16FromBytes endian x' y')) :
    utf16Loop endian true stream (x :: y :: x' :: y' :: rest) none acc =
      utf16Loop endian true stream rest none
        (acc ++ [u16FromBytes endian x y, u16FromBytes endian x' y']) := by
  rw [utf16Loop]
  simp [h, h']

theorem loop_lead (x' y' : UInt8) (h : isLead (u16FromBytes endian x y))
    (h' : isTrail (u16FromBytes endian x' y') = false) :
    utf16Loop endian true stream (x :: y :: x' :: y' :: rest) none acc =
      utf16Loop endian true stream rest none
        (acc ++ [replacementUnit, u16FromBytes endian x' y']) := by
  have hu : unitOut (u16FromBytes endian x' y') = u16FromBytes endian x' y' := by
    unfold unitOut; rw [if_neg (by simp [h'])]
  rw [utf16Loop]
  simp [h, h', pushUnit_lossy, hu]

end rounds

/-! ### What a call has done -/

/-- Two lead surrogates and a trail surrogate in a row. -/
def LeadLeadTrail (us : List UInt16) : Prop :=
  ∃ a b c, isLead a = true ∧ isLead b = true ∧ isTrail c = true ∧ [a, b, c] <:+: us

theorem LeadLeadTrail.mono {us vs : List UInt16} (h : LeadLeadTrail us) (hs : us <:+: vs) :
    LeadLeadTrail vs := by
  obtain ⟨a, b, c, ha, hb, hc, hi⟩ := h
  exact ⟨a, b, c, ha, hb, hc, hi.trans hs⟩

/-- **What a call of the loop has done** with the units `us`. -/
structure Utf16Post (us done out : List UInt16) (lead : Option UInt16) : Prop where
  units_eq : us = done ++ lead.toList
  isLead_of_mem : ∀ l ∈ lead, isLead l = true
  length_eq : out.length = done.length
  head : ∀ u ∈ out.head?, isTrail u = false
  text : ¬ LeadLeadTrail us → fromUtf16Lossy out = fromUtf16Lossy done
  last : lead = none → ∀ u ∈ done.getLast?, isLead u = true → ∃ v, isLead v = true ∧ [v, u] <:+ done

namespace Utf16Post

theorem nil : Utf16Post [] [] [] none :=
  ⟨rfl, by simp, rfl, by simp, fun _ => rfl, by simp⟩

theorem held {l : UInt16} (h : isLead l) : Utf16Post [l] [] [] (some l) :=
  ⟨rfl, by simpa using h, rfl, by simp, fun _ => rfl, by simp⟩

variable {us done out : List UInt16} {lead : Option UInt16}

theorem last_append (h : Utf16Post us done out lead) (pre : List UInt16)
    (hpre : done = [] → ∀ u ∈ pre.getLast?, isLead u →
      ∃ v, isLead v ∧ [v, u] <:+ pre) :
    lead = none → ∀ u ∈ (pre ++ done).getLast?, isLead u →
      ∃ v, isLead v ∧ [v, u] <:+ pre ++ done := by
  intro hn u hu hl
  by_cases hd : done = []
  · rw [hd, List.append_nil] at hu ⊢
    exact hpre hd u hu hl
  · rw [List.getLast?_append_of_ne_nil _ hd] at hu
    obtain ⟨v, hv, hs⟩ := h.last hn u hu hl
    exact ⟨v, hv, hs.trans (List.suffix_append _ _)⟩

variable {u v : UInt16} (h : Utf16Post us done out lead) (hu : isLead u)

include h hu

omit hu in
theorem cons_single (hu : isLead u = false) :
    Utf16Post (u :: us) (u :: done) (unitOut u :: out) lead where
  units_eq := by rw [h.units_eq]; rfl
  isLead_of_mem := h.isLead_of_mem
  length_eq := by simp [h.length_eq]
  head := by simpa using unitOut_isTrail u
  text := fun hn => by
    have hout : isLead (unitOut u) = false := by
      unfold unitOut; split_ifs
      · exact replacementUnit_isLead
      · exact hu
    rw [Utf16.lossy_cons_of_not_lead hu, Utf16.lossy_cons_of_not_lead hout, single_unitOut,
      h.text fun hl => hn (hl.mono (List.suffix_cons u us).isInfix)]
  last := h.last_append [u] (by simp [hu])

theorem cons_pair (hv : isTrail v) :
    Utf16Post (u :: v :: us) (u :: v :: done) (u :: v :: out) lead where
  units_eq := by rw [h.units_eq]; rfl
  isLead_of_mem := h.isLead_of_mem
  length_eq := by simp [h.length_eq]
  head := by simpa using Utf16.isTrail_of_isLead hu
  text := fun hn => by
    rw [Utf16.lossy_pair hu hv, Utf16.lossy_pair hu hv,
      h.text fun hl => hn (hl.mono (List.suffix_append [u, v] us).isInfix)]
  last := h.last_append [u, v] (by
    intro _ w hw hl
    have hwv : v = w := by simpa using hw
    rw [← hwv] at hl
    rw [Utf16.isTrail_of_isLead hl] at hv
    simp at hv)

/-- A lead surrogate that is not completed by the unit after it: both are written. -/
theorem cons_lead (hv : isTrail v = false) :
    Utf16Post (u :: v :: us) (u :: v :: done) (replacementUnit :: v :: out) lead where
  units_eq := by rw [h.units_eq]; rfl
  isLead_of_mem := h.isLead_of_mem
  length_eq := by simp [h.length_eq]
  head := by simpa using replacementUnit_isTrail
  text := fun hn => by
    -- the unit after a second lead surrogate does not complete it
    have hnext : ∀ w ∈ done.head?, isLead v → isTrail w = false := by
      intro w hw hl
      by_contra hc
      obtain ⟨r, hd⟩ := List.head?_eq_some_iff.mp hw
      refine hn ⟨u, v, w, hu, hl, by simpa using hc, ⟨[], r ++ lead.toList, ?_⟩⟩
      rw [h.units_eq, hd]
      rfl
    have hu1 : single u = Utf8.replacement := by unfold single; simp [hu]
    rw [Utf16.lossy_cons_of_not_lead replacementUnit_isLead, single_replacementUnit,
      Utf16.lossy_cons (fun w hw _ => h.head w hw),
      Utf16.lossy_cons (u := u) (by simpa using fun _ => hv), hu1, Utf16.lossy_cons hnext,
      h.text fun hl => hn (hl.mono (List.suffix_append [u, v] us).isInfix)]
  last := h.last_append [u, v] (by
    intro _ w hw _
    have hwv : v = w := by simpa using hw
    exact ⟨u, hu, hwv ▸ List.suffix_rfl⟩)

/-- A lead surrogate held from the last call that is not completed. -/
theorem cons_held (hne : us ≠ []) (hnext : ∀ w ∈ us.head?, isTrail w = false) :
    Utf16Post (u :: us) (u :: done) (replacementUnit :: out) lead where
  units_eq := by rw [h.units_eq]; rfl
  isLead_of_mem := h.isLead_of_mem
  length_eq := by simp [h.length_eq]
  head := by simpa using replacementUnit_isTrail
  text := fun hn => by
    have hu1 : single u = Utf8.replacement := by unfold single; simp [hu]
    have hd : ∀ w ∈ done.head?, isLead u → isTrail w = false := by
      intro w hw _
      refine hnext w ?_
      rw [h.units_eq, List.head?_append]
      simp [Option.mem_def.mp hw]
    rw [Utf16.lossy_cons_of_not_lead replacementUnit_isLead, single_replacementUnit,
      Utf16.lossy_cons hd, hu1, h.text fun hl => hn (hl.mono (List.suffix_cons u us).isInfix)]
  last := by
    intro hlead
    refine h.last_append [u] (fun hd => ?_) hlead
    rw [h.units_eq, hd, hlead] at hne
    exact absurd rfl hne

end Utf16Post

/-! ### The whole loop -/

theorem utf16Loop_post_none (endian : Endian) : ∀ (bytes : List UInt8) (acc : List UInt16),
    ∃ done out lead, utf16Loop endian true true bytes none acc =
        ⟨.ok (acc ++ out), oddByte bytes, lead⟩ ∧ Utf16Post (units endian bytes) done out lead
  | [], acc | [x], acc => ⟨[], [], none, by simp [utf16Loop, oddByte], .nil⟩
  | x :: y :: rest, acc => by
    cases hu : isLead (u16FromBytes endian x y) with
    | true =>
      match rest with
      | [] | [z] => exact ⟨[], [], _, by simp [utf16Loop, oddByte, hu], .held hu⟩
      | x' :: y' :: r =>
        cases hv : isTrail (u16FromBytes endian x' y') with
        | true =>
          obtain ⟨done, out, lead, hl, hp⟩ := utf16Loop_post_none endian r
            (acc ++ [u16FromBytes endian x y, u16FromBytes endian x' y'])
          exact ⟨_, _, lead, by rw [loop_pair _ _ _ _ _ _ _ _ hu hv, hl]; simp [oddByte],
            hp.cons_pair hu hv⟩
        | false =>
          obtain ⟨done, out, lead, hl, hp⟩ := utf16Loop_post_none endian r
            (acc ++ [replacementUnit, u16FromBytes endian x' y'])
          exact ⟨_, _, lead, by rw [loop_lead _ _ _ _ _ _ _ _ hu hv, hl]; simp [oddByte],
            hp.cons_lead hu hv⟩
    | false =>
      obtain ⟨done, out, lead, hl, hp⟩ := utf16Loop_post_none endian rest
        (acc ++ [unitOut (u16FromBytes endian x y)])
      exact ⟨_, _, lead, by rw [loop_single _ _ _ _ _ _ hu, hl]; simp [oddByte],
        hp.cons_single hu⟩

/-- **Every call of the streaming loop**, with the unit it was left with. -/
theorem utf16Loop_post (endian : Endian) (bytes : List UInt8) (lead : Option UInt16)
    (hlead : ∀ l ∈ lead, isLead l) :
    ∃ done out lead', utf16Loop endian true true bytes lead [] =
        ⟨.ok out, oddByte bytes, lead'⟩ ∧
      Utf16Post (lead.toList ++ units endian bytes) done out lead' := by
  rcases lead with _ | l
  · obtain ⟨done, out, lead', hl, hp⟩ := utf16Loop_post_none endian bytes []
    exact ⟨done, out, lead', hl, hp⟩
  · have hl : isLead l := hlead l rfl
    match bytes with
    | [] | [z] => exact ⟨[], [], some l, by simp [utf16Loop, oddByte], .held hl⟩
    | x :: y :: rest =>
      cases hv : isTrail (u16FromBytes endian x y) with
      | true =>
        obtain ⟨done, out, lead', he, hp⟩ := utf16Loop_post_none endian rest
          [l, u16FromBytes endian x y]
        exact ⟨_, _, lead', by rw [loop_complete _ _ _ _ _ _ hv]; exact he, hp.cons_pair hl hv⟩
      | false =>
        obtain ⟨done, out, lead', he, hp⟩ := utf16Loop_post_none endian (x :: y :: rest)
          [replacementUnit]
        exact ⟨_, _, lead', by rw [loop_abandon _ _ _ _ _ _ hv]; exact he,
          hp.cons_held hl (by simp [units]) (by simpa [units] using hv)⟩

/-- What a call that is not streaming writes at its end. -/
def endUnits : Option UInt8 → Option UInt16 → List UInt16
  | none, none => []
  | some _, none => [replacementUnit]
  | none, some _ => [replacementUnit]
  | some _, some l => [replacementUnit, l, replacementUnit]

/-- **A call that is not streaming** writes what a streaming one does, and then its end: for a lead
surrogate and an odd byte, the surrogate too. -/
theorem utf16Loop_whole (endian : Endian) : ∀ (bytes : List UInt8) (acc us : List UInt16)
    (odd : Option UInt8) (lead : Option UInt16),
    utf16Loop endian true true bytes none acc = ⟨.ok us, odd, lead⟩ →
      utf16Loop endian true false bytes none acc = ⟨.ok (us ++ endUnits odd lead), none, none⟩
  | [], acc, us, odd, lead, h | [x], acc, us, odd, lead, h => by
    obtain ⟨rfl, rfl, rfl⟩ := h
    simp [utf16Loop, endUnits]
  | x :: y :: rest, acc, us, odd, lead, h => by
    cases hu : isLead (u16FromBytes endian x y) with
    | true =>
      have hout : unitOut (u16FromBytes endian x y) = u16FromBytes endian x y := by
        unfold unitOut; rw [if_neg (by simp [Utf16.isTrail_of_isLead hu])]
      match rest with
      | [] | [z] =>
        simp only [utf16Loop, hu, Option.isSome_none, Bool.false_and, Bool.false_eq_true, if_false,
          if_true, Utf16State.mk.injEq, Except.ok.injEq] at h
        obtain ⟨rfl, rfl, rfl⟩ := h
        simp [utf16Loop, endUnits, hu, pushUnit_lossy, hout]
      | x' :: y' :: r =>
        cases hv : isTrail (u16FromBytes endian x' y') with
        | true =>
          rw [loop_pair _ _ _ _ _ _ _ _ hu hv] at h ⊢
          exact utf16Loop_whole endian r _ us odd lead h
        | false =>
          rw [loop_lead _ _ _ _ _ _ _ _ hu hv] at h ⊢
          exact utf16Loop_whole endian r _ us odd lead h
    | false =>
      rw [loop_single _ _ _ _ _ _ hu] at h ⊢
      exact utf16Loop_whole endian rest _ us odd lead h

end RasterRuntime.Encoding
