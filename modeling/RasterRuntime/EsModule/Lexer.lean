import Mathlib.Data.List.Basic

/-! # Tokens of a module's text

The lexical grammar of ECMAScript as far as generated module texts use it: words, string literals
without escapes, and punctuators. The reader takes one character at a time and keeps the token that
it is in. -/

namespace RasterRuntime.EsModule

open List (all_cons append_assoc append_nil mem_cons)

inductive Token
  | word (w : List Char)
  | str (s : List Char)
  | punct (c : Char)
  | or
  deriving DecidableEq, Repr

/-- The Unicode properties of characters beyond ASCII that an identifier may begin with or
contain. -/
structure Unicode where
  idStart : Char → Bool
  idContinue : Char → Bool

section

variable (U : Unicode)

def isIdStart (c : Char) : Bool :=
  c.isAlpha || c = '$' || c = '_' || (decide (128 ≤ c.toNat) && U.idStart c)

def isIdPart (c : Char) : Bool :=
  c.isAlphanum || c = '$' || c = '_' || (decide (128 ≤ c.toNat) && U.idContinue c)

def isPunct (c : Char) : Bool := c ∈ ['{', '}', '(', ')', ';', ',', '.', '=']

/-- A text of the production `IdentifierName`, without escapes. -/
def IdentifierName (w : List Char) : Prop :=
  ∃ c s, w = c :: s ∧ isIdStart U c = true ∧ ∀ d ∈ s, isIdPart U d = true

/-- The token that the reader is in. -/
inductive LexState
  | start
  | inWord (w : List Char)
  | inString (s : List Char)
  | bar
  deriving DecidableEq, Repr

/-- A character between tokens. -/
def between (c : Char) : Option (LexState × List Token) :=
  if c = ' ' then some (.start, [])
  else if isIdStart U c then some (.inWord [c], [])
  else if c = '"' then some (.inString [], [])
  else if c = '|' then some (.bar, [])
  else if isPunct c then some (.start, [.punct c])
  else none

/-- One character: the state behind it and the tokens that it ends. -/
def lexStep : LexState → Char → Option (LexState × List Token)
  | .start, c => between U c
  | .inWord w, c =>
    if isIdPart U c then some (.inWord (w ++ [c]), [])
    else (between U c).map fun (state, ts) => (state, .word w :: ts)
  | .inString s, c =>
    if c = '"' then some (.start, [.str s])
    else if c = '\\' ∨ c = '\n' ∨ c = '\r' then none
    else some (.inString (s ++ [c]), [])
  | .bar, c => if c = '|' then some (.start, [.or]) else none

/-- The reader after a text, with the tokens so far. -/
def feed (r : LexState × List Token) (text : List Char) : Option (LexState × List Token) :=
  text.foldlM (fun r c => (lexStep U r.1 c).map fun (state, ts) => (state, r.2 ++ ts)) r

/-- The tokens of a text, if it consists of such. -/
def lex (text : List Char) : Option (List Token) :=
  match feed U (.start, []) text with
  | some (.start, ts) => some ts
  | some (.inWord w, ts) => some (ts ++ [.word w])
  | _ => none

end

section Feed

variable {U : Unicode} {c : Char} {s w text text' : List Char} {state state' state'' : LexState}
  {ts ts' : List Token}

theorem feed_cons (r : LexState × List Token) (c : Char) (text : List Char) :
    feed U r (c :: text) = (lexStep U r.1 c).bind fun p => feed U (p.1, r.2 ++ p.2) text := by
  unfold feed
  rw [List.foldlM_cons]
  cases lexStep U r.1 c <;> rfl

variable (U) in
/-- A text leads from one state to another, and gives the tokens. -/
def Feeds (state : LexState) (text : List Char) (state' : LexState) (ts : List Token) : Prop :=
  ∀ before, feed U (state, before) text = some (state', before ++ ts)

theorem Feeds.nil : Feeds U state [] state [] := fun before => by
  rw [append_nil]
  rfl

theorem Feeds.cons (h : lexStep U state c = some (state', ts))
    (h' : Feeds U state' text state'' ts') :
    Feeds U state (c :: text) state'' (ts ++ ts') := fun before => by
  rw [feed_cons, h, Option.bind_some, h', append_assoc]

theorem Feeds.append (h : Feeds U state text state' ts) (h' : Feeds U state' text' state'' ts') :
    Feeds U state (text ++ text') state'' (ts ++ ts') := fun before => by
  unfold feed
  rw [List.foldlM_append, ← append_assoc, ← h' (before ++ ts)]
  exact congrArg (· >>= _) (h before)

/-- In ASCII the Unicode properties do not matter. -/
theorem feeds_of_feed {U' : Unicode} {before : List Token} (ha : ∀ c ∈ text, c.toNat < 128)
    (h : feed U' (state, before) text = some (state', ts)) :
    ∃ ts', ts = before ++ ts' ∧ Feeds U state text state' ts' := by
  induction text generalizing state before with
  | nil =>
    cases h
    exact ⟨[], (append_nil _).symm, .nil⟩
  | cons c text ih =>
    obtain ⟨hc, ha⟩ := List.forall_mem_cons.mp ha
    have hstep : lexStep U' state c = lexStep U state c := by
      cases state <;> simp [lexStep, between, isIdStart, isIdPart, Nat.not_le.mpr hc]
    rw [feed_cons, hstep] at h
    obtain ⟨p, hp, h⟩ := Option.bind_eq_some_iff.mp h
    obtain ⟨ts', rfl, hf⟩ := ih ha h
    exact ⟨p.2 ++ ts', append_assoc .., .cons hp hf⟩

/-- **A fixed text**, whose tokens can be computed. -/
theorem feeds_fixed (h : text.all (·.toNat < 128) ∧
    feed ⟨fun _ => false, fun _ => false⟩ (state, []) text = some (state', ts)) :
    Feeds U state text state' ts := by
  obtain ⟨_, rfl, hf⟩ := feeds_of_feed (fun c hc => by simpa using List.all_eq_true.mp h.1 c hc) h.2
  exact hf

/-! ### Words and string literals -/

theorem feeds_idParts (w : List Char) (hs : ∀ d ∈ s, isIdPart U d) :
    Feeds U (.inWord w) s (.inWord (w ++ s)) [] := by
  induction s generalizing w with
  | nil => rw [append_nil]; exact .nil
  | cons d s ih =>
    have h := ih (w ++ [d]) fun d hd => hs d (.tail _ hd)
    rw [append_assoc] at h
    have hstep : lexStep U (.inWord w) d = some (.inWord (w ++ [d]), []) := if_pos (hs d (.head _))
    exact .cons hstep h

/-- **A word** and the character that ends it. -/
theorem feeds_word (hw : IdentifierName U w) (hc : lexStep U (.inWord w) c = some (state, ts)) :
    Feeds U .start (w ++ [c]) state ts := by
  obtain ⟨d, s, rfl, hd, hs⟩ := hw
  have hne : d ≠ ' ' := by
    rintro rfl
    cases hd
  have hstart : lexStep U .start d = some (.inWord [d], []) := by
    rw [lexStep, between, if_neg hne, if_pos hd]
  have h := Feeds.cons hstart ((feeds_idParts [d] hs).append (.cons hc .nil))
  rwa [append_nil] at h

theorem identifierName_of_alpha (hne : w ≠ []) (h : w.all Char.isAlpha) :
    IdentifierName U w := by
  cases w with
  | nil => exact absurd rfl hne
  | cons c s =>
    rw [all_cons, Bool.and_eq_true] at h
    refine ⟨c, s, rfl, ?_, fun d hd => ?_⟩
    · rw [isIdStart, h.1]
      rfl
    · rw [isIdPart, Char.isAlphanum, List.all_eq_true.mp h.2 d hd]
      rfl

/-- The characters that a string literal holds without an escape. -/
def IsPlain (s : List Char) : Prop := ∀ c ∈ s, c ≠ '"' ∧ c ≠ '\\' ∧ c ≠ '\n' ∧ c ≠ '\r'

theorem feeds_plain (acc : List Char) (hs : IsPlain s) :
    Feeds U (.inString acc) s (.inString (acc ++ s)) [] := by
  induction s generalizing acc with
  | nil => rw [append_nil]; exact .nil
  | cons d s ih =>
    obtain ⟨hq, hb, hn, hr⟩ := hs d (.head _)
    have hstep : lexStep U (.inString acc) d = some (.inString (acc ++ [d]), []) := by
      rw [lexStep, if_neg hq, if_neg]
      rintro (h | h | h)
      · exact hb h
      · exact hn h
      · exact hr h
    have h := ih (acc ++ [d]) fun d hd => hs d (.tail _ hd)
    rw [append_assoc] at h
    exact .cons hstep h

end Feed

end RasterRuntime.EsModule
