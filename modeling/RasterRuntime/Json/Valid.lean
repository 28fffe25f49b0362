import Mathlib.Logic.Relation
import RasterRuntime.Json.Readable

/-! # Texts that are JSON

With any engine and any replacer the text is JSON, if what is read from the engine and the replacer
keeps to some conditions. Each of them excludes values for which nothing is written where something
is needed, or elements between which no comma is written. -/

namespace RasterRuntime.Json

open JsonText (Doc Reads ReadsBy memberEntry joined isSpace)

variable {F O σ E : Type}

/-! ### Which values are gone through -/

/-- How a value comes to be written: as a member of an object, as an element of an array, or as what
a method `toJSON` has returned. -/
inductive Role
  | member (key : Bytes)
  | element (i : ℕ)
  | converted

section Parts

variable (engine : Engine F O σ E) (replacing : Replacing F O σ E)

/-- The parts of an array or an object, as the replacer shows them. -/
inductive Part : Val F O → Role → Val F O → Prop
  | member {o : O} {key : Bytes} {value shown : Val F O} {world0 world1 world2 world3 world4 : σ}
      (hhas : engine.hasToJson o world0 = .ok (false, world1))
      (hkey : key ∈ (engine.keys o world2).1) (hk : Kept replacing key)
      (hget : engine.get o key world3 = .ok (value, world4)) (hs : Shown replacing value shown) :
      Part (.object o) (.member key) shown
  | element {o : O} {i : ℕ} {value shown : Val F O} {world0 world1 world2 : σ}
      (hi : i < engine.length o world0) (hk : Kept replacing (natText i))
      (hitem : engine.item o i world1 = .ok (value, world2)) (hs : Shown replacing value shown) :
      Part (.array o) (.element i) shown
  | converted {o : O} {value shown : Val F O} {world0 world1 world2 : σ}
      (hhas : engine.hasToJson o world0 = .ok (true, world1))
      (hto : engine.toJson o world1 = .ok (value, world2)) (hs : Shown replacing value shown) :
      Part (.object o) .converted shown

/-- What is gone through for a value. -/
def Reached : Val F O → Val F O → Prop :=
  Relation.ReflTransGen fun v shown => ∃ role, Part engine replacing v role shown

/-- What may be written in a role. Symbols and functions are left out as members only, and there is
no role for a promise. -/
def Role.Allows : Role → Val F O → Prop
  | .member key, shown => shown.isOmitted = false →
      SurrogateFree key ∧ shown.Clean ∧ shown.isHole = false
  | .element _, shown => shown.Clean ∧ shown.isHole = false
  | .converted, shown => shown.isOmitted = false ∧ shown.Clean ∧ shown.isHole = false

/-- All that is gone through is allowed in its role, and an array of keys keeps the first elements
of each array. -/
structure Tame (root : Val F O) : Prop where
  parts : ∀ v role shown, Reached engine replacing root v → Part engine replacing v role shown →
    role.Allows shown
  gaps : ∀ o, Reached engine replacing root (.array o) → ∀ world i j, i < j →
    j < engine.length o world → Kept replacing (natText j) → Kept replacing (natText i)

/-- A value is replaced by a primitive, or it is an array or an object itself, which is gone through
whatever it is replaced by. -/
def Tamed (value : Val F O) : Prop :=
  ∀ shown, Shown replacing value shown → shown.Clean ∧
    (shown.isObject = true → value.isNested = true ∧ Tame engine replacing value)

end Parts

/-- An indentation of spaces. -/
def Blank (indentation : Option Bytes) : Prop := ∀ text ∈ indentation, text.all isSpace = true

/-! ### Separators -/

variable {slot : Slot O}

theorem Laid.blank {indentation : Option Bytes} (hb : Blank indentation)
    (hl : Laid indentation slot) : Blank slot.indentation := by
  rcases hl with hl | hl
  · rw [hl]
    exact nofun
  · rw [hl]
    exact hb

variable {text lead : Bytes} {chunks : List (Option Bytes)} {α β : Type} {shown : Val F O}
  {P : Val F O → Bytes → Prop} {o : O} {as : List α} {bs : List β} {R : α → β → Prop}

theorem repeated_space (h : text.all isSpace) (n : ℕ) :
    (repeated text n).all isSpace := by
  rw [repeated, List.all_flatten]
  simp [List.all_replicate, h]

section

variable (h : separators slot false = some lead) (hb : Blank slot.indentation)

include h hb

omit h in
theorem closing_eq (valueWritten : Bool) (bracket : String) :
    ∃ space, closing slot valueWritten bracket = space ++ ascii bracket ∧
      space.all isSpace := by
  refine ⟨_, rfl, ?_⟩
  cases valueWritten with
  | false => rfl
  | true =>
    rw [if_pos rfl]
    unfold writeIndentation
    cases hi : slot.indentation with
    | none => rfl
    | some text =>
      rw [List.all_append, repeated_space (hb text hi)]
      rfl

theorem separators_space (hk : slot.key = none) : lead.all isSpace := by
  rw [separators, hk] at h
  cases hi : slot.indentation
  all_goals
    rw [hi] at h
    cases h
  case none => rfl
  case some text =>
    rw [List.all_append, List.all_append, repeated_space (hb text hi)]
    rfl

theorem separators_key {key : Bytes} (hk : slot.key = some key) (hs : SurrogateFree key) : 
    ∃ space gap, space.all isSpace ∧ gap.all isSpace ∧
      lead = space ++ 34 :: key.flatMap escapeByte ++ [34, 58] ++ gap := by
  rw [separators, hk] at h
  cases hi : slot.indentation
  all_goals
    rw [hi] at h
    simp only [optionalKey, writeKey, escape_eq hs, Option.map_some] at h
    cases h
  case none => exact ⟨[], [], rfl, rfl, by simp [writeSep, ascii]⟩
  case some text =>
    refine ⟨10 :: repeated text slot.depth, [32], ?_, rfl, by simp [writeSep, ascii]⟩
    rw [List.all_cons, repeated_space (hb text hi)]
    rfl

end

/-! ### Arrays and objects -/

/-- If the elements that are left out are the last ones, there are commas between the others. -/
theorem spaced_eq_joined (h : chunks.Pairwise fun a b => b.isSome → a.isSome)
    (comma : Bool) :
    spaced comma chunks = joined comma chunks.reduceOption := by
  induction chunks generalizing comma with
  | nil => rfl
  | cons chunk chunks ih =>
    obtain ⟨hfirst, hrest⟩ := List.pairwise_cons.mp h
    cases chunk with
    | none =>
      have hnone : chunks.reduceOption = [] := by
        rw [List.eq_nil_iff_forall_not_mem]
        intro c hc
        cases hfirst _ (List.reduceOption_mem_iff.mp hc) rfl
      rw [spaced, ih hrest, List.reduceOption_cons_of_none, hnone]
      rfl
    | some c => rw [spaced, List.reduceOption_cons_of_some, joined, ih hrest]

theorem pairwise_of_forall₂ {S : α → α → Prop} {T : β → β → Prop}
    (hT : ∀ a a' b b', R a b → R a' b' → S a a' → T b b') (h : List.Forall₂ R as bs)
    (hp : as.Pairwise S) : bs.Pairwise T := by
  have hlength := h.length_eq
  rw [List.pairwise_iff_getElem] at hp ⊢
  intro i j hi hj hij
  exact hT _ _ _ _ (h.get (by omega) hi) (h.get (by omega) hj) (hp i j (by omega) (by omega) hij)

variable [Numeral F] {engine : Engine F O σ E} {replacing : Replacing F O σ E}

theorem elementChunk_kept {i : ℕ} {chunk : Option Bytes}
    (h : ElementChunk engine replacing P slot o i chunk) :
    chunk.isSome ↔ Kept replacing (natText i) := by
  obtain ⟨value, world, world', -, happ⟩ := h
  cases happ with
  | omitted _ hi => cases hi
  | filtered hk => exact ⟨nofun, fun h => absurd h hk⟩
  | written _ hk => exact ⟨fun _ => hk, fun _ => rfl⟩

theorem elements_joined {world : σ} (hgaps : ∀ i j, i < j → j < engine.length o world →
      Kept replacing (natText j) → Kept replacing (natText i))
    (h : List.Forall₂ (ElementChunk engine replacing P slot o)
      (List.range (engine.length o world)) chunks) :
    spaced false chunks = joined false chunks.reduceOption := by
  have hin : (List.range (engine.length o world)).Pairwise fun i j =>
      i < j ∧ j < engine.length o world :=
    List.pairwise_lt_range.imp_of_mem fun _ hj hij => ⟨hij, List.mem_range.mp hj⟩
  refine spaced_eq_joined (pairwise_of_forall₂ ?_ h hin) false
  intro i j c c' hc hc' hij hs
  exact (elementChunk_kept hc).mpr (hgaps i j hij.1 hij.2 ((elementChunk_kept hc').mp hs))

variable [LawfulNumeral F] {root : Val F O} {indentation : Option Bytes}

/-- A text that is read as JSON, of whatever value. -/
def Readable (text : Bytes) : Prop := ∃ doc : Doc F, Reads LawfulNumeral.read doc text

/-- The texts of what is gone through are JSON. -/
def ReadableFrom (engine : Engine F O σ E) (replacing : Replacing F O σ E) (root v : Val F O)
    (text : Bytes) : Prop :=
  Reached engine replacing root v → Readable (F := F) text

theorem prints_readable (h : Prints (ReadableFrom engine replacing root) shown text)
    (hr : Reached engine replacing root shown) (hc : shown.Clean) (hn : shown.isHole = false) :
    Readable (F := F) text := by
  cases h with
  | text h => exact ⟨_, reads_primitive h hc⟩
  | nothing h => cases hn.symm.trans h
  | nested _ h => exact h hr

section Readable

variable (ht : Tame engine replacing root) (hb : Blank indentation) (hl : Laid indentation slot)
include ht hb hl

theorem members_readable (hr : Reached engine replacing root (.object o)) {world0 world1 world2 : σ}
    (hhas : engine.hasToJson o world0 = .ok (false, world1)) {keys : List Bytes}
    (hk : ∀ key ∈ keys, key ∈ (engine.keys o world2).1)
    (h : List.Forall₂ (MemberChunk engine replacing (ReadableFrom engine replacing root)
      slot o) keys
      chunks) :
    ∃ members, List.Forall₂ (ReadsBy (memberEntry (LawfulNumeral.read (F := F)))) members
      chunks.reduceOption := by
  induction h with
  | nil => exact ⟨[], .nil⟩
  | @cons key chunk keys chunks hchunk _ ih =>
    obtain ⟨members, hm⟩ := ih fun key hkey => hk key (.tail _ hkey)
    obtain ⟨value, world, world', hget, happ⟩ := hchunk
    cases happ with
    | omitted | filtered => exact ⟨members, hm⟩
    | @written shown lead t hs hkept hn hlead hprints =>
      have hpart : Part engine replacing (.object o) (.member key) shown :=
        .member hhas (hk key (.head _)) hkept hget hs
      obtain ⟨hkey, hclean, hhole⟩ := ht.parts _ _ _ hr hpart (hn rfl)
      obtain ⟨doc, hdoc⟩ := prints_readable hprints (hr.tail ⟨_, hpart⟩) hclean hhole
      obtain ⟨space, gap, hspace, hgap, rfl⟩ := separators_key hlead (hl.blank hb) rfl hkey
      exact ⟨(key, doc) :: members,
        .cons (JsonText.reads_member hspace (spells_escape key) hgap hdoc) hm⟩

theorem elements_readable (hr : Reached engine replacing root (.array o)) {world : σ} {is : List ℕ}
    (hi : ∀ i ∈ is, i < engine.length o world)
    (h : List.Forall₂ (ElementChunk engine replacing (ReadableFrom engine replacing root) slot o) is
      chunks) :
    ∃ docs, List.Forall₂ (Reads (LawfulNumeral.read (F := F))) docs chunks.reduceOption := by
  induction h with
  | nil => exact ⟨[], .nil⟩
  | @cons i chunk is chunks hchunk _ ih =>
    obtain ⟨docs, hd⟩ := ih fun i hmem => hi i (.tail _ hmem)
    obtain ⟨value, world, world', hitem, happ⟩ := hchunk
    cases happ with
    | omitted | filtered => exact ⟨docs, hd⟩
    | @written shown lead t hs hkept hn hlead hprints =>
      have hpart : Part engine replacing (.array o) (.element i) shown :=
        .element (hi i (.head _)) hkept hitem hs
      obtain ⟨hclean, hhole⟩ := ht.parts _ _ _ hr hpart
      obtain ⟨doc, hdoc⟩ := prints_readable hprints (hr.tail ⟨_, hpart⟩) hclean hhole
      have hspace := separators_space hlead (hl.blank hb) rfl
      exact ⟨doc :: docs, .cons (hdoc.space hspace) hd⟩

end Readable

/-- The texts of arrays and objects are read as JSON if those of their parts are. -/
theorem readable_printing (ht : Tame engine replacing root) (hb : Blank indentation)
    (h0 : Kept replacing (natText 0)) :
    Printing engine replacing indentation (ReadableFrom engine replacing root) where
  object := by
    intro slot hl o world world1 world2 keys world' chunks hhas hkeys h hr
    have hk : ∀ key ∈ keys, key ∈ (engine.keys o world2).1 := by
      rw [hkeys]
      exact fun _ => id
    obtain ⟨members, hm⟩ := members_readable ht hb hl hr hhas hk h
    obtain ⟨space, hclose, hspace⟩ := closing_eq (hl.blank hb) (chunks.any Option.isSome) "\x7d"
    rw [hclose, ← List.append_assoc]
    exact ⟨_, JsonText.container_object.reads hspace hm⟩
  array := by
    intro slot hl o world chunks h hr
    obtain ⟨docs, hd⟩ := elements_readable ht hb hl hr (fun _ => List.mem_range.mp) h
    obtain ⟨space, hclose, hspace⟩ := closing_eq (hl.blank hb) (chunks.any Option.isSome) "]"
    rw [hclose, ← List.append_assoc, elements_joined (ht.gaps o hr world) h]
    exact ⟨_, JsonText.container_array.reads hspace hd⟩
  converted := by
    intro slot hl hkey hindex o world world1 value world2 chunk hhas hto happ hr
    have hpart {shown : Val F O} (hs : Shown replacing value shown) :
        Part engine replacing (.object o) .converted shown := .converted hhas hto hs
    cases happ with
    | omitted hs _ ho => cases (ht.parts _ _ _ hr (hpart hs)).1.symm.trans ho
    | filtered hk =>
      rw [hkey, hindex] at hk
      exact absurd h0 hk
    | written hs _ _ hlead hprints =>
      obtain ⟨-, hclean, hhole⟩ := ht.parts _ _ _ hr (hpart hs)
      obtain ⟨doc, hdoc⟩ := prints_readable hprints (hr.tail ⟨_, hpart hs⟩) hclean hhole
      exact ⟨doc, hdoc.space (separators_space hlead (hl.blank hb) hkey)⟩

/-- **The text is JSON** if what is gone through for the value is tame. -/
theorem parse_of_tamed [DecidableEq O] {fuel : ℕ} {value : Val F O}
    {replacer : Option (ReplacerArg F O σ E)} {world world' : σ}
    (hr : readReplacer engine world replacer = .ok (replacing, world'))
    (ht : Tamed engine replacing value) (hb : Blank indentation)
    (h : jsonStringifyReplacerSpace fuel engine value replacer indentation world =
      .ok (some text)) :
    ∃ doc : Doc F, JsonText.parse LawfulNumeral.read text = some doc := by
  obtain ⟨replacing', world1, shown, hr', h0, hs, htext⟩ :=
    stringify_printed (P := ReadableFrom engine replacing value) h
  cases hr'.symm.trans hr
  obtain ⟨hclean, hobject⟩ := ht shown hs
  rcases htext with htext | ⟨hv, ⟨-, hP⟩ | ⟨hvalue, -⟩⟩
  · exact ⟨_, JsonText.parse_of_reads (reads_primitive htext hclean)⟩
  · obtain ⟨doc, hdoc⟩ := hP (readable_printing (hobject hv).2 hb h0) .refl
    exact ⟨doc, JsonText.parse_of_reads hdoc⟩
  · cases (hobject hv).1.symm.trans hvalue

end RasterRuntime.Json
