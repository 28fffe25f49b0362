import RasterRuntime.QueryString.Scanner

/-! # Maps are read back from their text

A map from keys to one string or to several is written as pairs, and the scanner of `parse` reads
the pairs one after the other. -/

namespace RasterRuntime.QueryString

open Encoding (Codecs standardCodecs)
open List (append_assoc cons_append flatMap_cons foldl_cons forall_mem_cons length_append
  length_cons map_cons mem_cons)
open Option (bind_some getD_some)
open Prod (fst)

/-! ### Pairs -/

/-- A pair and how it is written. -/
def Segment (pair : Str × Str) (text : Str) : Prop :=
  ∃ key value, Encodes pair.1 key ∧ Encodes pair.2 value ∧ text = key ++ 61 :: value

def addPair (obj : Obj) (pair : Str × Str) : Obj := addValue obj pair.1 pair.2

/-- The state before a pair. -/
def Scan.between (obj : Obj) (pairs : ℤ) (lastPos : ℕ) : Scan :=
  ⟨obj, pairs, lastPos, 0, 0, [], [], false, false, 0⟩

/-- The state in a value. -/
def Scan.inValue (obj : Obj) (pairs : ℤ) (lastPos : ℕ) (key : Str) (keyEncoded valEncoded : Bool)
    (encodeCheck : ℕ) : Scan :=
  ⟨obj, pairs, lastPos, 0, 1, key, [], keyEncoded, valEncoded, encodeCheck⟩

section Pairs

variable (p : Parsing) {a b : ℕ} {pairs : ℤ} {s : Scan} {key value text : Str} {pair : Str × Str}

theorem slice_of_le (h : b ≤ a) : p.slice a b = [] := by
  rw [Parsing.slice, List.drop_eq_nil_iff, List.length_take]
  omega

theorem slice_ite (a b : ℕ) : (if a < b then p.slice a b else []) = p.slice a b := by
  split_ifs with h
  · rfl
  · rw [slice_of_le p (by omega)]

theorem slice_middle (pre part post : Str) (h : p.qs = pre ++ (part ++ post)) (ha : a = pre.length)
    (hb : b = pre.length + part.length) : p.slice a b = part := by
  rw [ha, hb, Parsing.slice, h, ← append_assoc, ← length_append, List.take_left,
    List.drop_left]

theorem slice_value (pre post : Str) (hqs : p.qs = pre ++ (key ++ 61 :: value) ++ post)
    (hb : b = pre.length + (key ++ 61 :: value).length) :
    p.slice (pre.length + key.length + 1) b = value := by
  refine slice_middle p (pre ++ (key ++ [61])) value post (hqs.trans (by simp)) ?_ ?_
  · simp [Nat.add_assoc]
  · simp only [hb, length_append, length_cons, List.length_nil]
    omega

variable [Codecs]

theorem run_of_loop (h : p.loop 0 p.qs (p.start pairs) = .ok s) :
    p.run pairs = p.finish s := by
  rw [Parsing.run, h]

variable (hsep : p.sepCodes = [38]) (heq : p.eqCodes = [61])
include hsep heq

theorem step_eq (i : ℕ) (hs : s.sepIdx = 0) (he : s.eqIdx = 0) :
    p.step i 61 s = .ok { s with key := s.key ++ p.slice s.lastPos i, eqIdx := 1, encodeCheck := 0,
                                 lastPos := i + 1 } := by
  cases s
  subst hs he
  rw [← slice_ite p, Parsing.step, hsep, heq, if_neg (by simp), if_pos (by simp), if_pos (by simp),
    Parsing.atEq, heq, if_pos (by simp)]
  rfl

theorem loop_pair (pre post : Str) {k v : Str} (hk : Encodes k key) (hv : Encodes v value)
    (hqs : p.qs = pre ++ (key ++ 61 :: value) ++ post) (obj : Obj) (pairs : ℤ) :
    ∃ ke ve ec, p.loop pre.length (key ++ 61 :: value) (.between obj pairs pre.length) =
      .ok (.inValue obj pairs (pre.length + key.length + 1) key ke ve ec) ∧
        (ke ∨ 37 ∉ key) ∧ (ve ∨ 37 ∉ value) := by
  obtain ⟨_, hkey, hkept, hke⟩ := (scans_key p hsep heq).loop p hk.escaped pre.length
    (s := .between obj pairs pre.length) ⟨rfl, rfl⟩
  obtain ⟨ke, ve, ec, rfl⟩ := hkept.rest
  have hslice : p.slice pre.length (pre.length + key.length) = key := by
    refine slice_middle p pre key (61 :: value ++ post) (hqs.trans ?_) rfl rfl
    simp
  have hstep : p.step (pre.length + key.length) 61
      ((Scan.between obj pairs pre.length).noticed ke ve ec)
      = .ok (.inValue obj pairs (pre.length + key.length + 1) key ke ve 0) := by
    rw [step_eq p hsep heq _ rfl rfl]
    dsimp only [Scan.between, Scan.noticed, Scan.inValue]
    rw [hslice]
    rfl
  obtain ⟨_, hvalue, hkept', hve⟩ :=
    (scans_value p hsep heq).loop p hv.escaped (pre.length + key.length + 1)
    (s := .inValue obj pairs (pre.length + key.length + 1) key ke ve 0) ⟨rfl, rfl⟩
  obtain ⟨ke', ve', ec', rfl⟩ := hkept'.rest
  refine ⟨ke', ve', ec', ?_, hke.imp_left hkept'.key, hve⟩
  rw [loop_append, hkey]
  refine Eq.trans ?_ hvalue
  exact congrArg (· >>= p.loop (pre.length + key.length + 1) value) hstep

omit hsep heq in
theorem addKeyVal_encoded (hk : Encodes pair.1 key) (hv : Encodes pair.2 value) {ke ve : Bool}
    (hke : ke ∨ 37 ∉ key) (hve : ve ∨ 37 ∉ value) (obj : Obj) :
    addKeyVal obj key value ke ve (fun s => qsUnescape s none) = some (addPair obj pair) := by
  rw [addKeyVal, hk.decodePart hke, bind_some, hv.decodePart hve]
  rfl

theorem step_sep (i : ℕ) (obj : Obj) (pairs : ℤ) (lastPos : ℕ) (key : Str) (ke ve : Bool) (ec : ℕ) :
    p.step i 38 (.inValue obj pairs lastPos key ke ve ec) =
      p.addPair i ⟨obj, pairs, lastPos, 1, 1, key, p.slice lastPos i, ke, ve, ec⟩ := by
  rw [Parsing.step, hsep, if_pos (by simp [Scan.inValue]), if_pos (by simp [Scan.inValue]),
    Parsing.atSep, heq, if_neg (by simp [Scan.inValue])]
  split_ifs with h
  · rfl
  · have hnil : p.slice lastPos i = [] := slice_of_le p (Nat.not_lt.mp h)
    rw [hnil]
    rfl

theorem finish_value (obj : Obj) (pairs : ℤ) (lastPos : ℕ) (key : Str) (ke ve : Bool) (ec : ℕ) :
    p.finish (.inValue obj pairs lastPos key ke ve ec) =
      addKeyVal obj key (p.slice lastPos p.qs.length) ke ve p.decode := by
  rw [Parsing.finish, heq, hsep]
  split_ifs with h he hs hn
  · exact absurd he (by simp [Scan.inValue])
  · rfl
  · exact absurd hs (by simp [Scan.inValue])
  · exact absurd hn.1 (by simp [Scan.inValue])
  · have hnil : p.slice lastPos p.qs.length = [] := slice_of_le p (Nat.not_lt.mp h)
    rw [hnil]
    rfl

variable (hdecode : p.decode = fun s => qsUnescape s none) (hcustom : p.customDecode = false)
include hdecode hcustom

theorem loop_segment {pre post : Str} (ht : Segment pair text)
    (hqs : p.qs = pre ++ (text ++ 38 :: post)) (obj : Obj) (hpairs : pairs - 1 ≠ 0) :
    p.loop pre.length (text ++ 38 :: post) (.between obj pairs pre.length) =
      p.loop (pre ++ (text ++ [38])).length post
        (.between (addPair obj pair) (pairs - 1) (pre ++ (text ++ [38])).length) := by
  obtain ⟨key, value, hk, hv, rfl⟩ := ht
  rw [← append_assoc] at hqs
  obtain ⟨ke, ve, ec, hloop, hke, hve⟩ := loop_pair p hsep heq pre (38 :: post) hk hv hqs obj pairs
  have hstep : p.step (pre.length + (key ++ 61 :: value).length) 38
      (.inValue obj pairs (pre.length + key.length + 1) key ke ve ec) =
        .ok (.between (addPair obj pair) (pairs - 1)
          (pre.length + (key ++ 61 :: value).length + 1)) := by
    rw [step_sep p hsep heq, slice_value p pre _ hqs rfl, Parsing.addPair, hdecode]
    rw [addKeyVal_encoded hk hv hke hve, hcustom]
    exact if_neg hpairs
  rw [loop_append, hloop]
  refine (congrArg (· >>= p.loop _ post) hstep).trans ?_
  simp [Nat.add_assoc]
  rfl

theorem run_pairs {ps : List (Str × Str)} {texts : List Str} (hps : List.Forall₂ Segment ps texts)
    (pre : Str) (ht : Segment pair text) (hqs : p.qs = pre ++ (text ++ texts.flatMap (38 :: ·)))
    (obj : Obj) (pairs : ℤ) (hpairs : (ps.length : ℤ) < pairs) :
    ∃ s, p.loop pre.length (text ++ texts.flatMap (38 :: ·))
      (.between obj pairs pre.length) = .ok s ∧
      p.finish s = some (ps.foldl addPair (addPair obj pair)) := by
  induction hps generalizing pre text pair obj pairs with
  | nil =>
    obtain ⟨key, value, hk, hv, rfl⟩ := ht
    rw [List.flatMap_nil, ← append_assoc] at hqs
    obtain ⟨ke, ve, ec, hloop, hke, hve⟩ := loop_pair p hsep heq pre [] hk hv hqs obj pairs
    refine ⟨_, by simpa using hloop, ?_⟩
    rw [finish_value p hsep heq, slice_value p pre [] hqs (by simp [hqs]), hdecode,
      addKeyVal_encoded hk hv hke hve]
    rfl
  | @cons next text' ps texts hnext _ ih =>
    rw [length_cons] at hpairs
    rw [flatMap_cons, cons_append] at hqs ⊢
    rw [loop_segment p hsep heq hdecode hcustom ht hqs obj (by omega)]
    exact ih _ hnext (hqs.trans (by simp)) (addPair obj pair) _ (by omega)

end Pairs

/-! ### The text of a map -/

/-- A text is added to those before it. -/
def joined (fields text : Str) : Str := withSep [38] fields ++ text

theorem Segment.ne_nil {pair : Str × Str} {text : Str} (h : Segment pair text) : text ≠ [] := by
  obtain ⟨key, value, _, _, rfl⟩ := h
  simp

variable {fields k : Str} {obj m : Obj} {v : Value}

theorem joined_of_ne_nil (h : fields ≠ []) (text : Str) :
    joined fields text = fields ++ 38 :: text := by
  rw [joined, withSep, if_neg h, append_assoc]
  rfl

theorem foldl_joined (h : fields ≠ []) (texts : List Str) :
    texts.foldl joined fields = fields ++ texts.flatMap (38 :: ·) := by
  induction texts generalizing fields with
  | nil => simp
  | cons text texts ih =>
    rw [foldl_cons, joined_of_ne_nil h, ih (by simp [h]), flatMap_cons, append_assoc]

/-- The strings of a value. -/
def Value.strings : Value → List Str
  | .prim (.string s) => [s]
  | .prim _ => []
  | .array items => items.filterMap fun
    | .string s => some s
    | _ => none

/-- One string, or at least two. -/
inductive Listed : Value → Prop
  | one {s : Str} (hs : WellFormed s) : Listed (.prim (.string s))
  | many {ss : List Str} (hlen : 2 ≤ ss.length) (hss : ∀ s ∈ ss, WellFormed s) :
      Listed (.array (ss.map .string))

theorem strings_array (ss : List Str) : (Value.array (ss.map .string)).strings = ss := by
  rw [Value.strings, List.filterMap_map]
  exact List.filterMap_some

/-- The pairs of a property. -/
def pairsOf (property : Str × Value) : List (Str × Str) := property.2.strings.map (property.1, ·)

theorem arrayLoop_pairs {key : Str} (hk : Encodes k key) {ss : List Str}
    (hss : ∀ s ∈ ss, WellFormed s) (fields : Str) (hf : fields ≠ []) :
    ∃ texts, List.Forall₂ Segment (ss.map (k, ·)) texts ∧
      arrayLoop [38] (encodeStringified · qsEscape) (key ++ [61]) false (ss.map .string) fields =
        some (texts.foldl joined fields) := by
  induction ss generalizing fields with
  | nil => exact ⟨[], .nil, rfl⟩
  | cons s ss ih =>
    obtain ⟨value, hv⟩ := (hss s (.head _)).encodes
    have hjoined : fields ++ [38] ++ (key ++ [61]) ++ value =
        joined fields (key ++ 61 :: value) := by
      rw [joined_of_ne_nil hf]
      simp
    obtain ⟨texts, htexts, hloop⟩ := ih (fun s hs => hss s (.tail _ hs))
      (joined fields (key ++ 61 :: value)) (by rw [joined_of_ne_nil hf]; simp)
    refine ⟨_, .cons ⟨key, value, hk, hv, rfl⟩ htexts, ?_⟩
    rw [map_cons, arrayLoop, hv.encodeStringified, bind_some, if_neg (by simp), hjoined,
      hloop]
    rfl

theorem keysLoop_cons (hget : obj.get k = some v) (hk : WellFormed k) (hv : Listed v)
    (keys : List Str) (fields : Str) :
    ∃ texts, List.Forall₂ Segment (pairsOf (k, v)) texts ∧
      keysLoop [38] [61] (encodeStringified · qsEscape) obj (k :: keys) fields =
        keysLoop [38] [61] (encodeStringified · qsEscape) obj keys (texts.foldl joined fields) := by
  obtain ⟨key, hkey⟩ := hk.encodes
  cases hv with
  | @one s hs =>
    obtain ⟨value, hvalue⟩ := hs.encodes
    refine ⟨[key ++ 61 :: value], .cons ⟨key, value, hkey, hvalue, rfl⟩ .nil, ?_⟩
    rw [keysLoop, hkey.encodeStringified, bind_some, hget]
    dsimp only [getD_some]
    rw [hvalue.encodeStringified, bind_some]
    simp [joined]
  | @many ss hlen hss =>
    cases ss with
    | nil => cases hlen
    | cons s ss =>
      obtain ⟨value, hvalue⟩ := (hss s (.head _)).encodes
      obtain ⟨texts, htexts, hloop⟩ := arrayLoop_pairs hkey
        (fun s hs => hss s (.tail _ hs))
        (joined fields (key ++ 61 :: value)) (by simp [joined])
      refine ⟨(key ++ 61 :: value) :: texts, ?_, ?_⟩
      · rw [pairsOf, strings_array]
        exact .cons ⟨key, value, hkey, hvalue, rfl⟩ htexts
      · rw [keysLoop, hkey.encodeStringified, bind_some, hget]
        dsimp only [getD_some]
        rw [if_neg (by simp), map_cons, arrayLoop, hvalue.encodeStringified, bind_some,
          if_pos rfl]
        have hjoined : withSep [38] fields ++ (key ++ [61]) ++ value =
            joined fields (key ++ 61 :: value) := by simp [joined]
        rw [hjoined, hloop]
        rfl

theorem keysLoop_pairs (hget : ∀ kv ∈ m, obj.get kv.1 = some kv.2)
    (hm : ∀ kv ∈ m, WellFormed kv.1 ∧ Listed kv.2) (fields : Str) :
    ∃ texts, List.Forall₂ Segment (m.flatMap pairsOf) texts ∧
      keysLoop [38] [61] (encodeStringified · qsEscape) obj (m.map fst) fields =
        some (texts.foldl joined fields) := by
  induction m generalizing fields with
  | nil => exact ⟨[], .nil, rfl⟩
  | cons kv m ih =>
    obtain ⟨hk, hv⟩ := hm kv (.head _)
    obtain ⟨texts, htexts, hloop⟩ := keysLoop_cons (hget kv (.head _)) hk hv (m.map fst)
      fields
    obtain ⟨rest, hrest, hloop'⟩ := ih (fun kv h => hget kv (.tail _ h))
      (fun kv h => hm kv (.tail _ h)) (texts.foldl joined fields)
    refine ⟨texts ++ rest, ?_, ?_⟩
    · rw [flatMap_cons]
      exact List.rel_append htexts hrest
    · rw [map_cons, hloop, hloop', List.foldl_append]

/-! ### The pairs of a map -/

section

variable (h : k ∉ obj.map fst)

include h

theorem get_of_not_mem : obj.get k = none := by
  refine List.lookup_eq_none_iff.mpr fun kv hkv => ?_
  have hne : k ≠ kv.1 := by
    rintro rfl
    exact h (List.mem_map_of_mem hkv)
  simpa using hne

theorem get_append (rest : Obj) : (obj ++ rest).get k = rest.get k := by
  rw [Obj.get, List.lookup_append, show List.lookup k obj = none from get_of_not_mem h]
  rfl

theorem get_concat (v : Value) : (obj ++ [(k, v)]).get k = some v := by
  rw [get_append h]
  simp [Obj.get]

theorem set_append (rest : Obj) (v : Value) : (obj ++ rest).set k v = obj ++ rest.set k v := by
  induction obj with
  | nil => rfl
  | cons kv obj ih =>
    rw [map_cons, mem_cons, not_or] at h
    rw [cons_append, Obj.set, if_neg (Ne.symm h.1), ih h.2, cons_append]

theorem set_concat (v w : Value) : (obj ++ [(k, v)]).set k w = obj ++ [(k, w)] := by
  rw [set_append h]
  simp [Obj.set]

theorem set_of_not_mem (v : Value) : obj.set k v = obj ++ [(k, v)] := by
  have hset := set_append h [] v
  rwa [List.append_nil] at hset

theorem foldl_items (items : List Prim) (ss : List Str) :
    (ss.map (k, ·)).foldl addPair (obj ++ [(k, .array items)]) =
      obj ++ [(k, .array (items ++ ss.map .string))] := by
  induction ss generalizing items with
  | nil => simp
  | cons s ss ih =>
    rw [map_cons, foldl_cons, addPair, addValue, get_concat h]
    dsimp only
    rw [set_concat h, ih, map_cons, append_assoc]
    rfl

theorem foldl_pairsOf (hv : Listed v) : (pairsOf (k, v)).foldl addPair obj = obj ++ [(k, v)] := by
  have hfirst (s : Str) : addPair obj (k, s) = obj ++ [(k, .prim (.string s))] := by
    rw [addPair, addValue, get_of_not_mem h]
    exact set_of_not_mem h _
  cases hv with
  | one hs => exact hfirst _
  | @many ss hlen hss =>
    obtain ⟨s, s', ss, rfl⟩ : ∃ s s' ss', ss = s :: s' :: ss' := by
      match ss, hlen with
      | s :: s' :: ss, _ => exact ⟨s, s', ss, rfl⟩
    have hsecond : addPair (obj ++ [(k, .prim (.string s))]) (k, s') =
        obj ++ [(k, .array [.string s, .string s'])] := by
      rw [addPair, addValue, get_concat h]
      exact set_concat h _ _
    have hpairs : pairsOf (k, .array ((s :: s' :: ss).map .string)) =
        (k, s) :: (k, s') :: ss.map (k, ·) := by
      rw [pairsOf, strings_array]
      rfl
    rw [hpairs, foldl_cons, foldl_cons, hfirst, hsecond, foldl_items h]
    rfl

end

theorem foldl_addPair (obj : Obj) (hnodup : ((obj ++ m).map fst).Nodup)
    (hm : ∀ kv ∈ m, Listed kv.2) : (m.flatMap pairsOf).foldl addPair obj = obj ++ m := by
  induction m generalizing obj with
  | nil => simp
  | cons kv m ih =>
    have hk : kv.1 ∉ obj.map fst := by
      rw [List.map_append, List.nodup_append] at hnodup
      exact fun h => hnodup.2.2 _ h _ (by simp) rfl
    rw [flatMap_cons, List.foldl_append, foldl_pairsOf hk (hm kv (.head _)),
      ih _ (by simpa using hnodup) fun kv h => hm kv (.tail _ h)]
    simp

/-! ### Maps -/

/-- A map from keys to one string or to several that can be written. -/
structure Plain (m : Obj) : Prop where
  nodup : (m.map fst).Nodup
  key : ∀ kv ∈ m, arrayIndex kv.1 = none ∧ WellFormed kv.1
  value : ∀ kv ∈ m, Listed kv.2
  total : (m.flatMap pairsOf).length ≤ 1000

section Plain

variable (h : Plain m)
include h

theorem Plain.keys : m.keys = m.map fst := by
  have hnone : ∀ k ∈ m.map fst, arrayIndex k = none := by
    rintro k hk
    obtain ⟨kv, hkv, rfl⟩ := List.mem_map.mp hk
    exact (h.key kv hkv).1
  unfold Obj.keys
  dsimp only
  rw [List.filter_eq_nil_iff.mpr fun k hk => by simp [hnone k hk],
    List.filter_eq_self.mpr fun k hk => by simp [hnone k hk]]
  simp

theorem Plain.get {kv : Str × Value} (hkv : kv ∈ m) : m.get kv.1 = some kv.2 := by
  obtain ⟨k, v⟩ := kv
  obtain ⟨a, b, hab⟩ := List.append_of_mem hkv
  have hnodup := h.nodup
  rw [hab, List.map_append, List.nodup_append] at hnodup
  have hk : k ∉ a.map fst := fun hmem => hnodup.2.2 _ hmem _ (by simp) rfl
  rw [hab, get_append hk]
  simp [Obj.get]

theorem Plain.stringify : ∃ texts, List.Forall₂ Segment (m.flatMap pairsOf) texts ∧
    stringify (some m) none none none = some (texts.foldl joined []) := by
  obtain ⟨texts, htexts, hloop⟩ := keysLoop_pairs (fun kv hkv => h.get hkv)
    (fun kv hkv => ⟨(h.key kv hkv).2, h.value kv hkv⟩) []
  refine ⟨texts, htexts, ?_⟩
  rw [← hloop, ← h.keys]
  rfl

end Plain

/-- **A map is read back from its text.** -/
theorem parse_stringify [Codecs] (m : Obj) (h : Plain m) :
    ((stringify (some m) none none none).bind fun qs => parse qs none none none none) = some m := by
  obtain ⟨texts, htexts, hs⟩ := h.stringify
  have hfold : (m.flatMap pairsOf).foldl addPair [] = m := foldl_addPair [] h.nodup h.value
  have htotal := h.total
  rw [hs, bind_some]
  generalize m.flatMap pairsOf = ps at htexts hfold htotal
  cases htexts with
  | nil =>
    rw [← hfold]
    rfl
  | @cons pair text ps texts ht hrest =>
    have hqs : (text :: texts).foldl joined [] = text ++ texts.flatMap (38 :: ·) :=
      foldl_joined ht.ne_nil texts
    rw [hqs, parse, if_neg (by simp [ht.ne_nil])]
    rw [length_cons] at htotal
    obtain ⟨s, hloop, hfinish⟩ := run_pairs
      ⟨text ++ texts.flatMap (38 :: ·), [38], [61], fun s => qsUnescape s none, false⟩
      rfl rfl rfl rfl hrest [] ht rfl [] 1000 (by omega)
    rw [← hfold, foldl_cons]
    exact (run_of_loop _ hloop).trans hfinish

/-- The empty key, a separator in a value, characters of two, three and four octets, a percent
sign. -/
theorem parse_stringify_mixed :
    letI := standardCodecs
    ((stringify (some [([], .prim (.string (units "a b&c"))),
      (units "k=", .array ([units "é€", units "😀%2"].map .string))]) none none none).bind fun qs =>
        parse qs none none none none) =
      some [([], .prim (.string (units "a b&c"))),
        (units "k=", .array ([units "é€", units "😀%2"].map .string))] := by
  refine @parse_stringify standardCodecs _ ⟨by decide, ?_, ?_, by decide⟩
  · exact forall_mem_cons.mpr ⟨by decide, forall_mem_cons.mpr ⟨by decide, by simp⟩⟩
  · refine forall_mem_cons.mpr ⟨.one (by decide), forall_mem_cons.mpr ⟨?_, by simp⟩⟩
    exact .many (by decide) (by decide)

end RasterRuntime.QueryString
