import Mathlib.Data.List.ReduceOption
import RasterRuntime.Fallible
import RasterRuntime.Json.Primitive
import RasterRuntime.JsonText.Reads

/-! # What is written for arrays and objects

The text of an array or an object is put together from the texts of its parts. A rule for all texts
that are written follows: what holds of the texts of arrays and objects if it holds of those of
their parts holds of all. -/

namespace RasterRuntime.Json

open JsonText (joined)
open Prod (mk)

variable {F O σ E : Type}

/-! ### Parts -/

/-- What a value may be replaced by. -/
def Shown (replacing : Replacing F O σ E) (value shown : Val F O) : Prop :=
  match replacing.replacerFn with
  | none => shown = value
  | some call => ∃ parent key world world', call parent key value world = .ok (shown, world')

/-- The values for which `iterate` writes nothing. -/
def Val.isHole : Val F O → Bool
  | .symbol | .function | .promise => true
  | _ => false

def Val.isObject : Val F O → Bool
  | .object _ | .array _ | .promise => true
  | _ => false

section Parts

variable [Numeral F] (engine : Engine F O σ E) (replacing : Replacing F O σ E)
  (P : Val F O → Bytes → Prop)

/-- The text of a value, where `P` says which texts an array or an object may have. -/
inductive Prints : Val F O → Bytes → Prop
  | text {v : Val F O} {t : Bytes} (h : primitiveText v = some (some t)) : Prints v t
  | nothing {v : Val F O} (h : v.isHole = true) : Prints v []
  | nested {v : Val F O} {t : Bytes} (hv : v.isNested = true) (h : P v t) : Prints v t

/-- What is appended for a value at a place, the comma apart. -/
inductive Appended (slot : Slot O) (value : Val F O) : Option Bytes → Prop
  | omitted {shown : Val F O} (hs : Shown replacing value shown) (hi : slot.index = none)
      (ho : shown.isOmitted = true) : Appended slot value none
  | filtered (hk : ¬ Kept replacing (getKeyOrIndex slot.key slot.index)) : Appended slot value none
  | written {shown : Val F O} {lead t : Bytes} (hs : Shown replacing value shown)
      (hk : Kept replacing (getKeyOrIndex slot.key slot.index))
      (hn : slot.index = none → shown.isOmitted = false) (hl : separators slot false = some lead)
      (ht : Prints P shown t) : Appended slot value (some (lead ++ t))

def MemberChunk (slot : Slot O) (o : O) (key : Bytes) (chunk : Option Bytes) : Prop :=
  ∃ value world world', engine.get o key world = .ok (value, world') ∧
    Appended replacing P { slot with key := some key, index := none, parent := some o } value chunk

def ElementChunk (slot : Slot O) (o : O) (i : ℕ) (chunk : Option Bytes) : Prop :=
  ∃ value world world', engine.item o i world = .ok (value, world') ∧
    Appended replacing P { slot with key := none, index := some i, parent := some o } value chunk

end Parts

/-- The elements of an array: a comma comes only after an element that was not left out. -/
def spaced : Bool → List (Option Bytes) → Bytes
  | _, [] => []
  | _, none :: cs => spaced false cs
  | comma, some c :: cs => (if comma then [44] else []) ++ c ++ spaced true cs

/-- The places with the indentation of the whole value, or none. -/
def Laid (indentation : Option Bytes) (slot : Slot O) : Prop :=
  slot.indentation = none ∨ slot.indentation = indentation

/-- What holds of the texts of arrays and objects if it holds of those of their parts. -/
structure Printing [Numeral F] (engine : Engine F O σ E) (replacing : Replacing F O σ E)
    (indentation : Option Bytes) (P : Val F O → Bytes → Prop) : Prop where
  object : ∀ slot, Laid indentation slot → ∀ o world world1 world2 keys world' chunks,
    engine.hasToJson o world = .ok (false, world1) → engine.keys o world2 = (keys, world') →
    List.Forall₂ (MemberChunk engine replacing P slot o) keys chunks →
    P (.object o) (ascii "\x7b" ++ joined false chunks.reduceOption ++
      closing slot (chunks.any Option.isSome) "\x7d")
  array : ∀ slot, Laid indentation slot → ∀ o world chunks,
    List.Forall₂ (ElementChunk engine replacing P slot o)
      (List.range (engine.length o world)) chunks →
    P (.array o) (ascii "[" ++ spaced false chunks ++ closing slot (chunks.any Option.isSome) "]")
  converted : ∀ slot, Laid indentation slot → slot.key = none → slot.index = none →
    ∀ o world world1 value world2 chunk, engine.hasToJson o world = .ok (true, world1) →
    engine.toJson o world1 = .ok (value, world2) → Appended replacing P slot value chunk →
    P (.object o) (chunk.getD [])

/-! ### The writing -/

section Writing

variable {engine : Engine F O σ E} {replacing : Replacing F O σ E} {P : Val F O → Bytes → Prop}

theorem ofThrown_eq_ok {α : Type} {r : Except E α} {a : α} (h : Stop.ofThrown r = .ok a) :
    r = .ok a := by
  cases r with
  | ok b => exact congrArg _ (Except.ok.inj h)
  | error e => exact absurd h (by simp [Stop.ofThrown])

variable {slot : Slot O} {o : O} {w w' : Writer O σ} {addComma flag : Bool} {value : Val F O}

theorem watchCircular_result [DecidableEq O]
    (h : (watchCircular slot o w : Except (Stop E) (Writer O σ)) = .ok w') :
    w'.result = w.result := by
  unfold watchCircular detectCircularReference at h
  dsimp only at h
  split_ifs at h
  all_goals rw [← Except.ok.inj h]

theorem isHole_of_not_nested [Numeral F] {v : Val F O} (ht : primitiveText v = some none)
    (hb : v ≠ .bigint) (hv : v.isNested = false) : v.isHole := by
  cases v with
  | symbol | function | promise => rfl
  | bigint => exact absurd rfl hb
  | object | array => exact absurd hv (by simp [Val.isNested])
  | string s =>
    rw [primitiveText, Option.map_eq_some_iff] at ht
    obtain ⟨_, -, ht⟩ := ht
    cases ht
  | _ => exact absurd ht (by simp [primitiveText])

theorem isObject_of_not_omitted [Numeral F] {v : Val F O} (ht : primitiveText v = some none)
    (hb : v ≠ .bigint) (ho : v.isOmitted = false) : v.isObject := by
  cases hv : v.isNested with
  | true => cases v <;> simp_all [Val.isNested, Val.isObject]
  | false =>
    have hhole := isHole_of_not_nested ht hb hv
    cases v <;> simp_all [Val.isHole, Val.isOmitted, Val.isObject]

theorem separators_comma {before : Bytes} (h : separators slot addComma = some before) :
    ∃ lead, separators slot false = some lead ∧
      before = (if addComma then [44] else []) ++ lead := by
  unfold separators at h ⊢
  cases hi : slot.indentation with
  | none | some =>
    rw [hi] at h
    obtain ⟨key, hk, rfl⟩ := Option.map_eq_some_iff.mp h
    refine ⟨_, by rw [hk]; rfl, ?_⟩
    cases addComma <;> rfl

variable [Numeral F]

theorem writePrimitive_ok {status : PrimitiveStatus F O}
    (h : writePrimitive engine replacing slot value addComma w = .ok (status, w')) :
    ∃ newValue w1, Shown replacing value (newValue.getD value) ∧ w1.result = w.result ∧
      Wrote replacing slot (newValue.getD value) addComma newValue w1 (.ok (status, w')) := by
  unfold writePrimitive at h
  unfold Shown
  cases hr : replacing.replacerFn with
  | none =>
    rw [hr] at h
    exact ⟨none, w, rfl, rfl, h ▸ wrote_writePrimitive2 replacing slot value addComma none w⟩
  | some call =>
    rw [hr] at h
    obtain ⟨⟨shown, world⟩, hcall, h⟩ := bind_eq_ok.mp h
    refine ⟨some shown, { w with world := world }, ⟨_, _, _, world, ofThrown_eq_ok hcall⟩, rfl, ?_⟩
    rw [← h]
    exact wrote_writePrimitive2 replacing slot value addComma (some shown) { w with world := world }

/-- A value has been gone through. -/
structure Iterated (P : Val F O → Bytes → Prop) (v : Val F O) (w w' : Writer O σ) : Prop where
  nested : v.isNested = true → ∃ t, w'.result = w.result ++ t ∧ P v t
  other : v.isNested = false → w'.result = w.result

/-- A function goes through all values of an indentation. -/
def IteratesAll (P : Val F O → Bytes → Prop) (indentation : Option Bytes)
    (iterate : Iterate F O σ E) :
    Prop :=
  ∀ slot, Laid indentation slot → ∀ value newValue w w', iterate slot value newValue w = .ok w' →
    Iterated P (newValue.getD value) w w'

def chunkText (addComma : Bool) : Option Bytes → Bytes
  | none => []
  | some c => (if addComma then [44] else []) ++ c

variable {iterate : Iterate F O σ E} {indentation : Option Bytes}
  (hiter : IteratesAll P indentation iterate) (hl : Laid indentation slot)
include hiter hl

theorem appendValue_printed
    (h : appendValue engine replacing iterate slot value addComma w = .ok (flag, w')) :
    ∃ chunk, Appended replacing P slot value chunk ∧ flag = chunk.isSome ∧
      w'.result = w.result ++ chunkText addComma chunk := by
  rw [appendValue_eq] at h
  obtain ⟨⟨status, w1⟩, hw, h⟩ := bind_eq_ok.mp h
  obtain ⟨newValue, w0, hs, hw0, hw⟩ := writePrimitive_ok hw
  cases hw with
  | omitted hi ho =>
    cases h
    exact ⟨none, .omitted hs hi ho, rfl, by rw [hw0, chunkText, List.append_nil]⟩
  | filtered hk =>
    cases h
    exact ⟨none, .filtered hk, rfl, by rw [hw0, chunkText, List.append_nil]⟩
  | text before text hk hn hb ht =>
    obtain ⟨lead, hlead, rfl⟩ := separators_comma hb
    cases h
    refine ⟨some (lead ++ text), .written hs hk hn hlead (.text ht), rfl, ?_⟩
    simp [Writer.push, chunkText, hw0]
  | nested before hk hn hb ht hne =>
    obtain ⟨lead, hlead, rfl⟩ := separators_comma hb
    obtain ⟨w2, hi, h⟩ := bind_eq_ok.mp h
    cases h
    have hiterated := hiter { slot with depth := slot.depth + 1 } hl value newValue _ _ hi
    cases hv : (newValue.getD value).isNested with
    | true =>
      obtain ⟨t, ht, hP⟩ := hiterated.nested hv
      refine ⟨some (lead ++ t), .written hs hk hn hlead (.nested hv hP), rfl, ?_⟩
      simp [ht, Writer.push, chunkText, hw0]
    | false =>
      refine ⟨some (lead ++ []), .written hs hk hn hlead
        (.nothing (isHole_of_not_nested ht hne hv)), rfl, ?_⟩
      simp [hiterated.other hv, Writer.push, chunkText, hw0]

theorem members_printed {keys : List Bytes} {valueWritten : Bool}
    (h : members engine replacing iterate slot o keys valueWritten w = .ok (flag, w')) :
    ∃ chunks, List.Forall₂ (MemberChunk engine replacing P slot o) keys chunks ∧
      flag = (valueWritten || chunks.any Option.isSome) ∧
      w'.result = w.result ++ joined valueWritten chunks.reduceOption := by
  induction keys generalizing valueWritten w with
  | nil =>
    cases h
    exact ⟨[], .nil, by simp, by simp [joined]⟩
  | cons key keys ih =>
    rw [members] at h
    obtain ⟨⟨value, world⟩, hget, h⟩ := bind_eq_ok.mp h
    obtain ⟨⟨written, w1⟩, happ, h⟩ := bind_eq_ok.mp h
    obtain ⟨chunk, hchunk, rfl, hw1⟩ := appendValue_printed hiter (by exact hl) happ
    obtain ⟨chunks, hchunks, rfl, hw'⟩ := ih h
    refine ⟨chunk :: chunks, .cons ⟨value, _, world, ofThrown_eq_ok hget, hchunk⟩ hchunks, ?_, ?_⟩
    · rw [List.any_cons, Bool.or_assoc]
    · rw [hw', hw1]
      cases chunk with
      | none => simp [chunkText]
      | some c => simp [chunkText, joined]

theorem elements_printed {is : List ℕ} {valueWritten : Bool}
    (h : elements engine replacing iterate slot o is addComma valueWritten w = .ok (flag, w')) :
    ∃ chunks, List.Forall₂ (ElementChunk engine replacing P slot o) is chunks ∧
      flag = (valueWritten || chunks.any Option.isSome) ∧
      w'.result = w.result ++ spaced addComma chunks := by
  induction is generalizing addComma valueWritten w with
  | nil =>
    cases h
    exact ⟨[], .nil, by simp, by simp [spaced]⟩
  | cons i is ih =>
    rw [elements] at h
    obtain ⟨⟨value, world⟩, hget, h⟩ := bind_eq_ok.mp h
    obtain ⟨⟨written, w1⟩, happ, h⟩ := bind_eq_ok.mp h
    obtain ⟨chunk, hchunk, rfl, hw1⟩ := appendValue_printed hiter (by exact hl) happ
    obtain ⟨chunks, hchunks, rfl, hw'⟩ := ih h
    refine ⟨chunk :: chunks, .cons ⟨value, _, world, ofThrown_eq_ok hget, hchunk⟩ hchunks, ?_, ?_⟩
    · rw [List.any_cons, Bool.or_assoc]
    · rw [hw', hw1]
      cases chunk with
      | none | some c => simp [chunkText, spaced]

theorem runToJson_printed (hP : Printing engine replacing indentation P) {world : σ}
    (hhas : engine.hasToJson o world = .ok (true, w.world))
    (h : runToJson engine replacing iterate slot o w = .ok w') :
    ∃ t, w'.result = w.result ++ t ∧ P (.object o) t := by
  obtain ⟨⟨value, world2⟩, hto, h⟩ := bind_eq_ok.mp h
  obtain ⟨⟨flag, w1⟩, happ, h⟩ := bind_eq_ok.mp h
  cases h
  have hl' : Laid indentation { depth := slot.depth, indentation := if value.isNested then
      slot.indentation else none, key := none, index := none, parent := some o } := by
    split_ifs
    · exact hl
    · exact .inl rfl
  obtain ⟨chunk, hchunk, -, hw1⟩ := appendValue_printed hiter hl' happ
  refine ⟨chunk.getD [], ?_, hP.converted _ hl' rfl rfl o _ _ value world2 chunk hhas
    (ofThrown_eq_ok hto) hchunk⟩
  rw [hw1]
  cases chunk <;> rfl

variable [DecidableEq O]

section

variable (hP : Printing engine replacing indentation P)

include hP

theorem iterateObject_printed {world : σ}
    (hhas : engine.hasToJson o world = .ok (false, w.world))
    (h : iterateObject engine replacing iterate slot o w = .ok w') :
    ∃ t, w'.result = w.result ++ t ∧ P (.object o) t := by
  obtain ⟨w1, hw1, h⟩ := bind_eq_ok.mp h
  obtain ⟨⟨flag, w2⟩, hmembers, h⟩ := bind_eq_ok.mp h
  cases h
  obtain ⟨chunks, hchunks, rfl, hw2⟩ := members_printed hiter hl hmembers
  refine ⟨_, ?_, hP.object slot hl o _ _ w1.world _ _ chunks hhas rfl hchunks⟩
  simp [Writer.push, hw2, watchCircular_result hw1]

theorem iterateArray_printed
    (h : iterateArray engine replacing iterate slot o w = .ok w') :
    ∃ t, w'.result = w.result ++ t ∧ P (.array o) t := by
  obtain ⟨w1, hw1, h⟩ := bind_eq_ok.mp h
  obtain ⟨⟨flag, w2⟩, helements, h⟩ := bind_eq_ok.mp h
  cases h
  obtain ⟨chunks, hchunks, rfl, hw2⟩ := elements_printed hiter hl helements
  refine ⟨_, ?_, hP.array slot hl o w1.world chunks hchunks⟩
  simp [Writer.push, hw2, watchCircular_result hw1]

omit hiter hl in
/-- **The rule**: what is inherited from the parts holds of every text that is written. -/
theorem iterate_printed (fuel : ℕ) :
    IteratesAll P indentation (Json.iterate engine replacing fuel) := by
  induction fuel with
  | zero =>
    intro slot _ value newValue w w' h
    rw [Json.iterate] at h
    dsimp only at h
    split_ifs at h with hv
    cases h
    exact ⟨fun h => absurd h hv, fun _ => rfl⟩
  | succ fuel ih =>
    intro slot hl value newValue w w' h
    rw [Json.iterate] at h
    dsimp only at h
    generalize newValue.getD value = v at h ⊢
    cases v with
    | object o =>
      refine ⟨fun _ => ?_, fun h => absurd h (by simp [Val.isNested])⟩
      obtain ⟨⟨has, world⟩, hhas, h⟩ := bind_eq_ok.mp h
      cases has with
      | true =>
        exact runToJson_printed (w := { w with world := world }) ih hl hP (ofThrown_eq_ok hhas) h
      | false =>
        exact iterateObject_printed (w := { w with world := world }) ih hl hP
          (ofThrown_eq_ok hhas) h
    | array o =>
      refine ⟨fun _ => ?_, fun h => absurd h (by simp [Val.isNested])⟩
      exact iterateArray_printed ih hl hP h
    | _ =>
      cases h
      exact ⟨fun h => absurd h (by simp [Val.isNested]), fun _ => rfl⟩

end

omit hiter hl in
/-- The text of the whole value: an array or an object is gone through as it was given, whatever it
is replaced by. -/
theorem stringify_printed {fuel : ℕ} {replacer : Option (ReplacerArg F O σ E)} {world : σ}
    {text : Bytes}
    (h : jsonStringifyReplacerSpace fuel engine value replacer indentation world =
      .ok (some text)) :
    ∃ replacing world' shown, readReplacer engine world replacer = .ok (replacing, world') ∧
      Kept replacing (natText 0) ∧ Shown replacing value shown ∧
      (primitiveText shown = some (some text) ∨ shown.isObject ∧
        (value.isNested ∧ (Printing engine replacing indentation P → P value text) ∨
          value.isNested = false ∧ text = [])) := by
  obtain ⟨⟨replacing, world'⟩, hr, h⟩ := bind_eq_ok.mp h
  obtain ⟨⟨status, w1⟩, hw, h⟩ := bind_eq_ok.mp h
  obtain ⟨newValue, w0, hs, hw0, hw⟩ := writePrimitive_ok hw
  refine ⟨replacing, world', newValue.getD value, hr, ?_⟩
  cases hw with
  | omitted | filtered => cases Except.ok.inj h
  | text before text' hk hn hb ht =>
    obtain rfl : [] = before := Option.some.inj hb
    cases h
    refine ⟨hk, hs, .inl ?_⟩
    simp [Writer.push, hw0, ht]
  | nested before hk hn hb ht hne =>
    obtain rfl : [] = before := Option.some.inj hb
    obtain ⟨w2, hi, h⟩ := bind_eq_ok.mp h
    cases h
    have hempty : (w0.push []).result = [] := by rw [Writer.push, hw0]; rfl
    have hshown : (newValue.getD value).isObject := isObject_of_not_omitted ht hne (hn rfl)
    refine ⟨hk, hs, .inr ⟨hshown, ?_⟩⟩
    have hlaid : Laid indentation (⟨1, indentation, none, none, none⟩ : Slot O) := .inr rfl
    cases hv : value.isNested with
    | true =>
      refine .inl ⟨rfl, fun hP => ?_⟩
      obtain ⟨t, ht, hPt⟩ := (iterate_printed hP fuel _ hlaid value none _ _ hi).nested hv
      rw [ht, hempty]
      exact hPt
    | false =>
      have htrivial : Printing engine replacing indentation (fun _ _ => True) :=
        ⟨fun _ _ _ _ _ _ _ _ _ _ _ _ => trivial, fun _ _ _ _ _ _ => trivial,
          fun _ _ _ _ _ _ _ _ _ _ _ _ _ => trivial⟩
      refine .inr ⟨rfl, ?_⟩
      rw [(iterate_printed htrivial fuel _ hlaid value none _ _ hi).other hv, hempty]

end Writing

end RasterRuntime.Json
