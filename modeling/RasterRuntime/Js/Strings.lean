import RasterRuntime.Fallible
import RasterRuntime.Js.Heap

/-! # Strings of the engine as Rust strings

A string of the engine has a Rust string only if it has no lone surrogate; converting another one is
an error. The keys of an object are converted one after the other. -/

namespace RasterRuntime.Js

open RasterRuntime.Text

/-- Why cloning fails: a string without UTF-8, a `TypeError`, a refusal of the engine, a panic, or a
recursion that does not end. -/
inductive CloneError where
  | utf8
  | type (message : String)
  | engine
  | panic
  | stack
deriving DecidableEq, Repr

/-- The Rust string of a string of the engine. -/
def toStdString (s : JsString) : Except CloneError (List Char) :=
  match Utf16.fromUtf16 s with
  | some cs => .ok cs
  | none => .error .utf8

/-- A string without lone surrogates. -/
def wellFormed (s : JsString) : Bool := (Utf16.fromUtf16 s).isSome

/-- The keys of an object. -/
def encodeKeys : List JsString → Except CloneError (List (List Char))
  | [] => .ok []
  | k :: ks => do
    let cs ← toStdString k
    let css ← encodeKeys ks
    .ok (cs :: css)

variable {s : JsString} {cs : List Char}

theorem toStdString_error {e : CloneError} (h : toStdString s = .error e) :
    wellFormed s = false ∧ e = .utf8 := by
  revert h
  fun_cases toStdString s
  all_goals rintro ⟨⟩
  next hs => exact ⟨by rw [wellFormed, hs]; rfl, rfl⟩

theorem fromUtf16_of_toStdString (h : toStdString s = .ok cs) : Utf16.fromUtf16 s = some cs := by
  revert h
  fun_cases toStdString s
  all_goals rintro ⟨⟩
  assumption

theorem encode_toStdString (h : toStdString s = .ok cs) : Utf16.encode cs = s :=
  Utf16.encode_of_fromUtf16 (fromUtf16_of_toStdString h)

theorem wellFormed_of_toStdString (h : toStdString s = .ok cs) : wellFormed s := by
  rw [wellFormed, fromUtf16_of_toStdString h, Option.isSome_some]

variable {ks : List JsString} {css : List (List Char)}

theorem encodeKeys_error {e : CloneError} (h : encodeKeys ks = .error e) :
    (ks.all wellFormed) = false ∧ e = .utf8 := by
  fun_induction encodeKeys ks with
  | case1 => cases h
  | case2 k ks ih =>
    rw [List.all_cons]
    rcases bind_eq_error.mp h with h | ⟨cs, _, h⟩
    · rw [(toStdString_error h).1]
      exact ⟨rfl, (toStdString_error h).2⟩
    · rcases bind_eq_error.mp h with h | ⟨css, _, ⟨⟩⟩
      rw [(ih h).1, Bool.and_false]
      exact ⟨rfl, (ih h).2⟩

theorem wellFormed_of_encodeKeys (h : encodeKeys ks = .ok css) : ∀ k ∈ ks, wellFormed k := by
  fun_induction encodeKeys ks generalizing css with
  | case1 => exact nofun
  | case2 k ks ih =>
    obtain ⟨cs, hk, h⟩ := bind_eq_ok.mp h
    obtain ⟨css', hks, _⟩ := bind_eq_ok.mp h
    exact List.forall_mem_cons.mpr ⟨wellFormed_of_toStdString hk, ih hks⟩

theorem map_encode_keys (h : encodeKeys ks = .ok css) : css.map Utf16.encode = ks := by
  fun_induction encodeKeys ks generalizing css with
  | case1 =>
    cases h
    rfl
  | case2 k ks ih =>
    obtain ⟨cs, hk, h⟩ := bind_eq_ok.mp h
    obtain ⟨css', hks, ⟨⟩⟩ := bind_eq_ok.mp h
    rw [List.map_cons, encode_toStdString hk, ih hks]

end RasterRuntime.Js
