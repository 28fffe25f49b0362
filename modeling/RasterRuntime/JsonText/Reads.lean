import Mathlib.Data.List.Forall2
import RasterRuntime.JsonText.Reader

/-! # Texts that are read as JSON

* `Reads`: a text is read to a document, whatever comes after it.
* `Misread`: a text is not read to a document, whatever comes after it.
* `reads_array`, `reads_object`, `misread_array`, `misread_object`: texts that are put together from
  the texts of their parts. -/

namespace RasterRuntime.JsonText

open List (all_cons all_eq_true append_assoc append_nil cons_append length_append length_cons)
open Prod (mk)
open Option (bind_some map map_eq_some_iff some_ne_none)

/-! ### Texts that are read -/

section Reads

variable {N α : Type}

/-- A text is read to `a`, whatever comes after it. -/
def ReadsBy (entry : ℕ → Bytes → Option (α × Bytes)) (a : α) (text : Bytes) : Prop :=
  ∀ fuel rest, text.length ≤ fuel → Ended rest → entry fuel (text ++ rest) = some (a, rest)

/-- A text is not read to `a`, whatever comes after it. -/
def MisreadBy (entry : ℕ → Bytes → Option (α × Bytes)) (a : α) (text : Bytes) : Prop :=
  ∀ fuel rest rest', text.length ≤ fuel → Ended rest → entry fuel (text ++ rest) ≠ some (a, rest')

variable {text : Bytes} {doc : Doc N} {fuel : ℕ}

theorem ReadsBy.not_misreadBy {entry : ℕ → Bytes → Option (α × Bytes)} {a : α}
    (h : ReadsBy entry a text) : ¬ MisreadBy entry a text := fun hm =>
  hm text.length [] [] (Nat.le_refl _) ended_nil (h _ _ (Nat.le_refl _) ended_nil)

variable (read : Bytes → N)

def Reads (doc : Doc N) (text : Bytes) : Prop := ReadsBy (parseValue read) doc text

def Misread (doc : Doc N) (text : Bytes) : Prop := MisreadBy (parseValue read) doc text

def memberEntry (fuel : ℕ) : Bytes → Option ((Bytes × Doc N) × Bytes) :=
  parseMember (parseValue read fuel)

variable {read}

theorem parse_of_reads (h : Reads read doc text) : parse read text = some doc := by
  have := h text.length [] (Nat.le_refl _) ended_nil
  rw [append_nil] at this
  rw [parse, this]
  rfl

theorem parse_ne_of_misread (h : Misread read doc text) : parse read text ≠ some doc := by
  fun_cases parse read text
  all_goals rintro ⟨⟩
  next rest _ hv =>
    refine h text.length [] rest (Nat.le_refl _) ended_nil ?_
    rw [append_nil, hv]

/-! ### Numbers and literals -/

theorem numberByte_of_digits (h : text.all isDigit) : text.all isNumberByte := by
  rw [all_eq_true] at h ⊢
  intro b hb
  simp [isNumberByte, h b hb]

theorem takeWhile_numberByte (text : Bytes) :
    (text.takeWhile isDigit).all isNumberByte :=
  numberByte_of_digits (List.all_takeWhile)

theorem isExponent_all (h : isExponent text) : text.all isNumberByte := by
  cases text with
  | nil => rfl
  | cons b rest =>
    simp only [isExponent, Bool.and_eq_true, Bool.or_eq_true, decide_eq_true_eq] at h
    obtain ⟨⟨hb, -⟩, hrest⟩ := h
    rw [all_cons, Bool.and_eq_true]
    refine ⟨by rcases hb with rfl | rfl <;> rfl, ?_⟩
    split_ifs at hrest with hsign
    · cases rest with
      | nil => rfl
      | cons sign power =>
        rw [all_cons, Bool.and_eq_true]
        refine ⟨?_, numberByte_of_digits hrest⟩
        rcases hsign with hs | hs
        all_goals
          cases hs
          rfl
    · exact numberByte_of_digits hrest

theorem isFraction_all (h : isFraction text) : text.all isNumberByte := by
  cases text with
  | nil => rfl
  | cons b rest =>
    rw [isFraction] at h
    split_ifs at h with hb
    · rw [all_cons, hb, ← List.takeWhile_append_dropWhile (p := isDigit) (l := rest),
        List.all_append, takeWhile_numberByte, isExponent_all (Bool.and_eq_true_iff.mp h).2]
      rfl
    · exact isExponent_all h

theorem isUnsigned_all (h : isUnsigned text) : text.all isNumberByte ∧ text ≠ [] := by
  obtain ⟨hi, hf⟩ := Bool.and_eq_true_iff.mp h
  constructor
  · rw [← List.takeWhile_append_dropWhile (p := isDigit) (l := text), List.all_append,
      takeWhile_numberByte, isFraction_all hf]
    rfl
  · rintro rfl
    cases hi

theorem isNumber_all (h : isNumber text) : text.all isNumberByte ∧ text ≠ [] := by
  unfold isNumber at h
  split_ifs at h with hs
  · obtain ⟨rest, rfl⟩ := List.head?_eq_some_iff.mp hs
    rw [List.tail_cons] at h
    rw [all_cons, (isUnsigned_all h).1]
    exact ⟨rfl, by simp⟩
  · exact isUnsigned_all h

theorem numberByte_start {b : UInt8} (h : isNumberByte b) :
    (isSpace b = false ∧ b ≠ 91 ∧ b ≠ 123 ∧ b ≠ 34) ∧ b ≠ 110 ∧ b ≠ 116 ∧ b ≠ 102 := by
  have hne : ∀ c, isNumberByte c = false → b ≠ c := by
    rintro c hc rfl
    cases h.symm.trans hc
  refine ⟨⟨?_, hne _ rfl, hne _ rfl, hne _ rfl⟩, hne _ rfl, hne _ rfl, hne _ rfl⟩
  simp only [isSpace, hne 32 rfl, hne 9 rfl, hne 10 rfl, hne 13 rfl, decide_false, Bool.or_false]

/-- A scalar, which does not begin like a space, a string, an array or an object. -/
theorem reads_scalar {b : UInt8} (hb : isSpace b = false ∧ b ≠ 91 ∧ b ≠ 123 ∧ b ≠ 34)
    (h : ∀ rest, Ended rest → parseScalar read (b :: text ++ rest) = some (doc, rest)) :
    Reads read doc (b :: text) := by
  intro fuel rest hfuel hrest
  obtain ⟨fuel, rfl⟩ := Nat.exists_eq_succ_of_ne_zero (n := fuel) (by
    rw [length_cons] at hfuel
    omega)
  rw [parseValue, cons_append, skipSpace_cons hb.1]
  dsimp only
  rw [if_neg hb.2.1, if_neg hb.2.2.1, if_neg hb.2.2.2]
  exact h rest hrest

theorem reads_null : Reads read .null [110, 117, 108, 108] :=
  reads_scalar (by decide) fun _ _ => rfl

theorem reads_true : Reads read (.bool true) [116, 114, 117, 101] :=
  reads_scalar (by decide) fun _ _ => rfl

theorem reads_false : Reads read (.bool false) [102, 97, 108, 115, 101] :=
  reads_scalar (by decide) fun _ _ => rfl

theorem reads_number (h : isNumber text) : Reads read (.number (read text)) text := by
  obtain ⟨hall, hne⟩ := isNumber_all h
  obtain ⟨b, tail, rfl⟩ := List.exists_cons_of_ne_nil hne
  obtain ⟨hstart, hn, ht, hf⟩ := numberByte_start (all_eq_true.mp hall b (.head _))
  refine reads_scalar hstart fun rest hrest => ?_
  have hpos : ∀ c ∈ b :: tail, isNumberByte c := all_eq_true.mp hall
  have htake : (b :: tail ++ rest).takeWhile isNumberByte = b :: tail := by
    rw [List.takeWhile_append_of_pos hpos]
    cases rest with
    | nil => exact append_nil _
    | cons c rest =>
      rw [List.takeWhile_cons_of_neg (by simp [hrest.not_numberByte c rfl]), append_nil]
  have hdrop : (b :: tail ++ rest).dropWhile isNumberByte = rest := by
    rw [List.dropWhile_append_of_pos hpos]
    cases rest with
    | nil => rfl
    | cons c rest => exact List.dropWhile_cons_of_neg (by simp [hrest.not_numberByte c rfl])
  have hprefix : ∀ {c : UInt8} {cs : Bytes}, b ≠ c →
      (c :: cs).isPrefixOf (b :: tail ++ rest) = false :=
    fun hc => by simp [List.isPrefixOf, Ne.symm hc]
  rw [parseScalar, hprefix hn, hprefix ht, hprefix hf, htake, hdrop]
  simp [h]

/-! ### Strings -/

/-- The bytes inside a string that do not end it. -/
def readPart : Mode → Bytes → Option (Bytes × Mode)
  | mode, [] => some ([], mode)
  | mode, b :: rest =>
    match mode.ends b with
    | some _ => none
    | none => (readByte mode b).bind fun p => (readPart p.2 rest).map fun q => (p.1 ++ q.1, q.2)

theorem readString_append {mode mode' : Mode} {part out : Bytes}
    (h : readPart mode part = some (out, mode')) (rest : Bytes) :
    readString mode (part ++ rest) = (readString mode' rest).map fun q => (out ++ q.1, q.2) := by
  fun_induction readPart mode part generalizing out with
  | case1 mode =>
    cases h
    simp
  | case2 => cases h
  | case3 mode b part he ih =>
    obtain ⟨p, hb, h⟩ := Option.bind_eq_some_iff.mp h
    obtain ⟨q, hq, ⟨⟩⟩ := map_eq_some_iff.mp h
    rw [cons_append, readString, he]
    dsimp only
    rw [hb, bind_some, ih p hq, Option.map_map]
    congr 1
    funext r
    simp

/-- Bytes between quotes are read to a string. -/
def Spells (body s : Bytes) : Prop :=
  ∀ rest, readString (.plain none) (body ++ 34 :: rest) = some (s, rest)

theorem spells_nil : Spells [] [] := fun _ => rfl

theorem Spells.append {part out body s : Bytes}
    (hp : readPart (.plain none) part = some (out, .plain none)) (h : Spells body s) :
    Spells (part ++ body) (out ++ s) := by
  intro rest
  rw [append_assoc, readString_append hp, h rest]
  rfl

theorem reads_string {body s : Bytes} (h : Spells body s) :
    Reads read (.string s) (34 :: body ++ [34]) := by
  intro fuel rest hfuel _
  obtain ⟨fuel, rfl⟩ := Nat.exists_eq_succ_of_ne_zero (n := fuel) (by
    rw [cons_append, length_cons] at hfuel
    omega)
  rw [parseValue, cons_append, cons_append, append_assoc, skipSpace_cons rfl]
  change map _ (readString (.plain none) (body ++ 34 :: rest)) = _
  rw [h rest]
  rfl

/-! ### Spaces around values -/

theorem parseValue_space {space : Bytes} (hs : space.all isSpace) (fuel : ℕ) (text : Bytes) :
    parseValue read fuel (space ++ text) = parseValue read fuel text := by
  cases fuel with
  | zero => rfl
  | succ fuel => rw [parseValue, parseValue, skipSpace_append hs]

theorem Reads.space {space : Bytes} (hs : space.all isSpace)
    (h : Reads read doc text) : Reads read doc (space ++ text) := by
  intro fuel rest hfuel hrest
  rw [length_append] at hfuel
  rw [append_assoc, parseValue_space hs]
  exact h fuel rest (by omega) hrest

theorem Misread.space {space : Bytes} (hs : space.all isSpace)
    (h : Misread read doc text) : Misread read doc (space ++ text) := by
  intro fuel rest rest' hfuel hrest
  rw [length_append] at hfuel
  rw [append_assoc, parseValue_space hs]
  exact h fuel rest rest' (by omega) hrest

theorem parseValue_eq_none (h : Ended text) : parseValue read fuel text = none := by
  cases fuel with
  | zero => rfl
  | succ fuel =>
    rw [parseValue]
    cases hs : skipSpace text with
    | nil => rfl
    | cons b rest =>
      have hb := h b (by rw [hs]; rfl)
      rcases hb with rfl | rfl | rfl
      all_goals rfl

theorem misread_space {space : Bytes} (hs : space.all isSpace) (doc : Doc N) :
    Misread read doc space := by
  intro fuel rest rest' _ hrest
  rw [parseValue_space hs, parseValue_eq_none hrest]
  exact (some_ne_none _).symm

/-! ### Entries with commas -/

/-- Texts with a comma before each, the first one apart if `comma` is false. -/
def joined : Bool → List Bytes → Bytes
  | _, [] => []
  | comma, c :: cs => (if comma then [44] else []) ++ c ++ joined true cs

theorem length_le_joined {comma : Bool} {c : Bytes} {cs : List Bytes} (h : c ∈ cs) :
    c.length ≤ (joined comma cs).length := by
  induction cs generalizing comma with
  | nil => cases h
  | cons c' cs ih =>
    rw [joined, length_append, length_append]
    rcases List.mem_cons.mp h with rfl | h
    · omega
    · have : c.length ≤ (joined true cs).length := ih h
      omega

theorem count_le_joined (cs : List Bytes) : cs.length ≤ (joined true cs).length := by
  induction cs with
  | nil => exact Nat.le_refl 0
  | cons c cs ih =>
    rw [joined, if_pos rfl, length_append, length_append, length_cons,
      List.length_singleton]
    omega

theorem joined_cons (c : Bytes) (cs : List Bytes) (rest : Bytes) :
    joined false (c :: cs) ++ rest = c ++ (joined true cs ++ rest) := by
  simp [joined]

section Entries

variable {entry : ℕ → Bytes → Option (α × Bytes)} {close : UInt8} {space : Bytes}
  {as : List α} {cs : List Bytes}

/-- What is left after an entry: the closing byte, or a comma and the other entries. -/
theorem ended_joined (hs : space.all isSpace) (hc : close = 93 ∨ close = 125)
    (cs : List Bytes) (rest : Bytes) : Ended (joined true cs ++ (space ++ close :: rest)) := by
  cases cs with
  | nil => exact ended_close hs hc rest
  | cons c cs => exact ended_comma _

theorem skipSpace_close (hs : space.all isSpace) (hc : close = 93 ∨ close = 125)
    (rest : Bytes) : skipSpace (space ++ close :: rest) = close :: rest := by
  rw [skipSpace_append hs, skipSpace_cons (by rcases hc with rfl | rfl <;> rfl)]

theorem skipSpace_comma (c : Bytes) (cs : List Bytes) (rest : Bytes) :
    skipSpace (joined true (c :: cs) ++ rest) = 44 :: (c ++ (joined true cs ++ rest)) := by
  rw [joined, if_pos rfl, append_assoc, append_assoc]
  exact skipSpace_cons rfl _

theorem entry_of_parseSeq {value : Bytes → Option (α × Bytes)} {bound : ℕ} {rest : Bytes}
    {a : α} (h : parseSeq value close bound text = some (a :: as, rest)) :
    ∃ rest', value text = some (a, rest') := by
  cases bound with
  | zero => exact absurd h (by simp [parseSeq])
  | succ bound =>
    rw [parseSeq] at h
    obtain ⟨p, hp, h⟩ := Option.bind_eq_some_iff.mp h
    refine ⟨p.2, ?_⟩
    split at h
    · cases h
    · split_ifs at h
      · obtain ⟨q, -, ⟨⟩⟩ := map_eq_some_iff.mp h
        exact hp
      · cases h
        exact hp

section Step

variable {a : α} {c : Bytes} (hac : ReadsBy entry a c) (hlen : c.length ≤ fuel)
  (hs : space.all isSpace = true) (hc : close = 93 ∨ close = 125) (bound : ℕ) (rest : Bytes)
include hac hlen hs hc

theorem parseSeq_last :
    parseSeq (entry fuel) close (bound + 1) (c ++ (joined true [] ++ (space ++ close :: rest))) =
      some ([a], rest) := by
  rw [parseSeq, hac fuel _ hlen (ended_joined hs hc [] rest), bind_some]
  rw [joined, List.nil_append, skipSpace_close hs hc]
  dsimp only
  rw [if_neg (by rcases hc with rfl | rfl <;> decide), if_pos rfl]

theorem parseSeq_next (c' : Bytes) (cs : List Bytes) :
    parseSeq (entry fuel) close (bound + 1)
        (c ++ (joined true (c' :: cs) ++ (space ++ close :: rest))) =
      (parseSeq (entry fuel) close bound (c' ++ (joined true cs ++ (space ++ close :: rest)))).map
        fun q => (a :: q.1, q.2) := by
  rw [parseSeq, hac fuel _ hlen (ended_joined hs hc (c' :: cs) rest), bind_some]
  rw [skipSpace_comma]
  dsimp only
  rw [if_pos rfl]

end Step

theorem parseSeq_reads (hs : space.all isSpace) (hc : close = 93 ∨ close = 125)
    {a : α} {c : Bytes} (hac : ReadsBy entry a c) (h : List.Forall₂ (ReadsBy entry) as cs)
    {bound : ℕ} (hfuel : ∀ t ∈ c :: cs, t.length ≤ fuel) (hbound : cs.length ≤ bound)
    (rest : Bytes) :
    parseSeq (entry fuel) close (bound + 1) (c ++ (joined true cs ++ (space ++ close :: rest))) =
      some (a :: as, rest) := by
  have hlen := hfuel c (.head _)
  induction h generalizing a c bound with
  | nil => exact parseSeq_last hac hlen hs hc bound rest
  | @cons a' c' as' cs' hac' h ih =>
    obtain ⟨bound, rfl⟩ := Nat.exists_eq_succ_of_ne_zero (n := bound) (by
      rw [length_cons] at hbound
      omega)
    have hfuel' : ∀ t ∈ c' :: cs', t.length ≤ fuel := fun t ht => hfuel t (.tail _ ht)
    have hbound' : cs'.length ≤ bound := by
      rw [length_cons] at hbound
      omega
    rw [parseSeq_next hac hlen hs hc, ih hac' hfuel' hbound' (hfuel' c' (.head _))]
    rfl

/-- A sequence is not read to entries one of which is not read. -/
theorem parseSeq_misread (hs : space.all isSpace) (hc : close = 93 ∨ close = 125)
    {a : α} {c : Bytes} (hac : ReadsBy entry a c ∨ MisreadBy entry a c)
    (h : List.Forall₂ (fun a c => ReadsBy entry a c ∨ MisreadBy entry a c) as cs)
    (hn : ¬ (ReadsBy entry a c ∧ List.Forall₂ (ReadsBy entry) as cs))
    {bound : ℕ} (hfuel : ∀ t ∈ c :: cs, t.length ≤ fuel) (rest rest' : Bytes) :
    parseSeq (entry fuel) close bound (c ++ (joined true cs ++ (space ++ close :: rest))) ≠
      some (a :: as, rest') := by
  have hlen := hfuel c (.head _)
  induction h generalizing a c bound with
  | nil =>
    intro hp
    obtain ⟨r, hr⟩ := entry_of_parseSeq hp
    rcases hac with hac | hac
    · exact hn ⟨hac, .nil⟩
    · exact hac fuel _ r hlen (ended_joined hs hc [] rest) hr
  | @cons a' c' as' cs' hac' h ih =>
    intro hp
    rcases hac with hac | hac
    · cases bound with
      | zero => exact absurd hp (by simp [parseSeq])
      | succ bound =>
        rw [parseSeq_next hac hlen hs hc] at hp
        obtain ⟨⟨as1, rest1⟩, hq, ⟨⟩⟩ := map_eq_some_iff.mp hp
        have hfuel' : ∀ t ∈ c' :: cs', t.length ≤ fuel :=
          fun t ht => hfuel t (.tail _ ht)
        exact ih hac' (fun hr => hn ⟨hac, .cons hr.1 hr.2⟩) hfuel' (hfuel' c' (.head _)) hq
    · obtain ⟨r, hr⟩ := entry_of_parseSeq hp
      exact hac fuel _ r hlen (ended_joined hs hc (c' :: cs') rest) hr

/-- No entry begins with the closing byte. -/
def Opens (entry : ℕ → Bytes → Option (α × Bytes)) (close : UInt8) : Prop :=
  ∀ fuel text p, entry fuel text = some p → ∃ b tail, skipSpace text = b :: tail ∧ b ≠ close

theorem parseList_reads (ho : Opens entry close) (hs : space.all isSpace)
    (hc : close = 93 ∨ close = 125) (h : List.Forall₂ (ReadsBy entry) as cs)
    (hfuel : ∀ t ∈ cs, t.length ≤ fuel) (rest : Bytes) :
    parseList (entry fuel) close (joined false cs ++ (space ++ close :: rest)) =
      some (as, rest) := by
  cases h with
  | nil =>
    rw [parseList, joined, List.nil_append, skipSpace_close hs hc]
    exact if_pos rfl
  | @cons a c as cs hac h =>
    rw [joined_cons, parseList]
    obtain ⟨b, tail, hb, hne⟩ := ho fuel _ _
      (hac fuel _ (hfuel c (.head _)) (ended_joined hs hc cs rest))
    rw [hb]
    dsimp only
    rw [if_neg hne]
    have hcount := count_le_joined cs
    obtain ⟨bound, hbound⟩ : ∃ bound,
        (c ++ (joined true cs ++ (space ++ close :: rest))).length = bound + 1 :=
      ⟨c.length + ((joined true cs).length + (space.length + rest.length)), by simp; omega⟩
    rw [hbound]
    refine parseSeq_reads hs hc hac h hfuel ?_ rest
    simp only [length_append, length_cons] at hbound
    omega

theorem parseList_misread (hs : space.all isSpace) (hc : close = 93 ∨ close = 125)
    (h : List.Forall₂ (fun a c => ReadsBy entry a c ∨ MisreadBy entry a c) as cs)
    (hn : ¬ List.Forall₂ (ReadsBy entry) as cs) (hfuel : ∀ t ∈ cs, t.length ≤ fuel)
    (rest rest' : Bytes) :
    parseList (entry fuel) close (joined false cs ++ (space ++ close :: rest)) ≠
      some (as, rest') := by
  cases h with
  | nil => exact absurd .nil hn
  | @cons a c as cs hac h =>
    rw [joined_cons, parseList]
    cases hb : skipSpace (c ++ (joined true cs ++ (space ++ close :: rest))) with
    | nil => exact (some_ne_none _).symm
    | cons b tail =>
      dsimp only
      split_ifs
      · exact fun hp => absurd (mk.inj (Option.some.inj hp)).1 (by simp)
      · exact parseSeq_misread hs hc hac h (fun hr => hn (.cons hr.1 hr.2)) hfuel rest rest'

end Entries

/-! ### Members, arrays and objects -/

section Member

variable {space body key gap : Bytes} (hs : space.all isSpace = true)
  (hk : Spells body key) (hg : gap.all isSpace = true)
include hs hk hg

theorem memberEntry_append (fuel : ℕ) (rest : Bytes) :
    memberEntry read fuel (space ++ 34 :: body ++ [34, 58] ++ gap ++ text ++ rest) =
      (parseValue read fuel (text ++ rest)).map fun p => ((key, p.1), p.2) := by
  have htext : space ++ 34 :: body ++ [34, 58] ++ gap ++ text ++ rest =
      space ++ 34 :: (body ++ 34 :: 58 :: (gap ++ (text ++ rest))) := by simp
  rw [htext, memberEntry, parseMember, skipSpace_append hs, skipSpace_cons rfl]
  dsimp only
  rw [if_pos rfl, hk, bind_some]
  rw [skipSpace_cons rfl]
  dsimp only
  rw [if_pos rfl, parseValue_space hg]

theorem reads_member (h : Reads read doc text) :
    ReadsBy (memberEntry read) (key, doc) (space ++ 34 :: body ++ [34, 58] ++ gap ++ text) := by
  intro fuel rest hfuel hrest
  rw [memberEntry_append hs hk hg, h fuel rest ?_ hrest]
  · rfl
  · rw [length_append] at hfuel
    omega

theorem misread_member (h : Misread read doc text) :
    MisreadBy (memberEntry read) (key, doc) (space ++ 34 :: body ++ [34, 58] ++ gap ++ text) := by
  intro fuel rest rest' hfuel hrest hp
  rw [memberEntry_append hs hk hg] at hp
  obtain ⟨p, hp, ⟨⟩⟩ := map_eq_some_iff.mp hp
  refine h fuel rest p.2 ?_ hrest ‹_›
  rw [length_append] at hfuel
  omega

end Member

theorem opens_value : Opens (parseValue read) 93 := by
  intro fuel text p hp
  cases hs : skipSpace text with
  | nil => cases hp.symm.trans (parseValue_eq_none (by intro b hb; simp [hs] at hb))
  | cons b tail =>
    refine ⟨b, tail, rfl, ?_⟩
    rintro rfl
    refine absurd (hp.symm.trans (parseValue_eq_none ?_)) (by simp)
    intro b hb
    rw [hs] at hb
    exact .inr (.inl (by simpa using hb.symm))

theorem opens_member : Opens (memberEntry read) 125 := by
  intro fuel text p hp
  rw [memberEntry, parseMember] at hp
  split at hp
  · cases hp
  · next b tail hs =>
    refine ⟨b, tail, hs, ?_⟩
    rintro rfl
    cases hp

variable (read) in
/-- The values between the bytes `first` and `last` are lists of entries. -/
structure Container (entry : ℕ → Bytes → Option (α × Bytes)) (first last : UInt8)
    (wrap : List α → Doc N) : Prop where
  opens : Opens entry last
  last_eq : last = 93 ∨ last = 125
  parse_eq : ∀ fuel text, parseValue read (fuel + 1) (first :: text) =
    (parseList (entry fuel) last text).map fun p => (wrap p.1, p.2)
  injective : Function.Injective wrap

theorem container_array : Container read (parseValue read) 91 93 .array :=
  ⟨opens_value, .inl rfl, fun _ _ => rfl, fun _ _ => Doc.array.inj⟩

theorem container_object : Container read (memberEntry read) 123 125 .object :=
  ⟨opens_member, .inr rfl, fun _ _ => rfl, fun _ _ => Doc.object.inj⟩

section Nested

variable {space : Bytes} {cs : List Bytes} {first last : UInt8}

theorem fuel_of_container
    (h : (first :: joined false cs ++ space ++ [last]).length ≤ fuel) :
    ∃ fuel', fuel = fuel' + 1 ∧ ∀ t ∈ cs, t.length ≤ fuel' := by
  simp only [length_append, length_cons, List.length_nil] at h
  obtain ⟨fuel, rfl⟩ := Nat.exists_eq_succ_of_ne_zero (n := fuel) (by omega)
  refine ⟨fuel, rfl, fun t ht => ?_⟩
  have : t.length ≤ (joined false cs).length := length_le_joined ht
  omega

theorem container_append (first last : UInt8) (rest : Bytes) :
    first :: joined false cs ++ space ++ [last] ++ rest =
      first :: (joined false cs ++ (space ++ last :: rest)) := by simp

variable {entry : ℕ → Bytes → Option (α × Bytes)} {wrap : List α → Doc N} {as : List α}
  (hw : Container read entry first last wrap) (hs : space.all isSpace = true)
include hw hs

theorem Container.reads (h : List.Forall₂ (ReadsBy entry) as cs) :
    Reads read (wrap as) (first :: joined false cs ++ space ++ [last]) := by
  intro fuel rest hfuel _
  obtain ⟨fuel, rfl, hlen⟩ := fuel_of_container hfuel
  rw [container_append, hw.parse_eq, parseList_reads hw.opens hs hw.last_eq h hlen rest]
  rfl

theorem Container.misread
    (h : List.Forall₂ (fun a c => ReadsBy entry a c ∨ MisreadBy entry a c) as cs)
    (hn : ¬ List.Forall₂ (ReadsBy entry) as cs) :
    Misread read (wrap as) (first :: joined false cs ++ space ++ [last]) := by
  intro fuel rest rest' hfuel _ hp
  obtain ⟨fuel, rfl, hlen⟩ := fuel_of_container hfuel
  rw [container_append, hw.parse_eq] at hp
  obtain ⟨⟨as', rest1⟩, hl, heq⟩ := map_eq_some_iff.mp hp
  obtain rfl := hw.injective (mk.inj heq).1
  exact parseList_misread hs hw.last_eq h hn hlen rest rest1 hl

end Nested

end Reads

end RasterRuntime.JsonText
