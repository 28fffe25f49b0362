import RasterRuntime.Json.Circular
import RasterRuntime.Json.Valid

/-! # Plain values are read back

Without a replacer and without methods `toJSON`, the text of a graph of plain arrays and objects is
read back to the value, with the members that have no text left out, if and only if there is no
promise in it and no function and no symbol is an element of an array: nothing is written for these,
where an object or null is meant. -/

namespace RasterRuntime.Json

open JsonText (Doc Reads Misread ReadsBy MisreadBy memberEntry joined isSpace)
open Prod (fst mk snd)
open Option (isSome map_eq_some_iff)
open Except (ok)
open LateStack (Edge)

variable {F : Type} {n : ℕ}

/-! ### Values and documents -/

def Item.isOmitted : Item F n → Bool
  | .prim p => p.isOmitted
  | .ref _ => false

def Item.isPromise : Item F n → Bool
  | .prim .promise => true
  | _ => false

/-- An element for which nothing is written. -/
def Item.isHole : Item F n → Bool
  | .prim .symbol | .prim .function | .prim .promise => true
  | _ => false

theorem Item.isPromise_of_isHole {item : Item F n} (h : item.isHole = false) :
    item.isPromise = false := by
  cases item with
  | prim p => cases p <;> first | rfl | cases h
  | ref => rfl

def Item.Clean : Item F n → Prop
  | .prim (.string s) => SurrogateFree s
  | _ => True

namespace PlainGraph

variable (g : PlainGraph F n)

/-- What holds of everything that can be reached. -/
def Everywhere (Q : Option (Fin n) → Prop) : Item F n → Prop
  | .prim _ => True
  | .ref o => ∀ a, Relation.ReflTransGen (Edge g.kids) (some o) a → Q a

/-- There is no promise, and no array has a function or a symbol as an element. -/
def Whole (root : Item F n) : Prop :=
  root.isPromise = false ∧ g.Everywhere (fun a => (∀ prop ∈ g.props a, prop.2.isPromise = false) ∧
    ∀ item ∈ g.items a, item.isHole = false) root

/-- No string and no key has half of a surrogate pair. -/
def Clean (root : Item F n) : Prop :=
  root.Clean ∧ g.Everywhere (fun a => (∀ prop ∈ g.props a, SurrogateFree prop.1 ∧ prop.2.Clean) ∧
    ∀ item ∈ g.items a, item.Clean) root

/-- The document of a value, unfolded to some depth. Members that have no text are left out, and
such elements are null. -/
def doc [Numeral F] [LawfulNumeral F] : ℕ → Item F n → Option (Doc F)
  | _, .prim p => some (p.val : Val F Empty).doc
  | 0, .ref _ => none
  | depth + 1, .ref o =>
    match g o with
    | .object props _ =>
      ((props.filter fun prop => !prop.2.isOmitted).mapM fun prop =>
        (doc depth prop.2).map fun d => (prop.1, d)).map .object
    | .array items => (items.mapM (doc depth)).map .array

end PlainGraph

/-! ### Lists -/

variable {α β : Type} {as : List α} {bs : List β}

theorem mapM_eq_some_iff {f : α → Option β} :
    as.mapM f = some bs ↔ List.Forall₂ (fun a b => f a = some b) as bs := by
  induction as generalizing bs with
  | nil => cases bs <;> simp
  | cons a as ih =>
    cases bs with
    | nil => simp [List.mapM_cons, Option.bind_eq_some_iff]
    | cons b bs => simp [List.mapM_cons, Option.bind_eq_some_iff, ← ih]

theorem forall₂_mem {R : α → β → Prop} (h : List.Forall₂ R as bs) :
    List.Forall₂ (fun a b => a ∈ as ∧ R a b) as bs :=
  (List.forall₂_and_left as bs).mpr ⟨fun _ => id, h⟩

theorem gather {f : ℕ → α → Option β} (hf : ∀ m k a b, m ≤ k → f m a = some b → f k a = some b)
    {R M : β → Bytes → Prop} (hRM : ∀ b c, R b c → ¬ M b c) {W : α → Prop} {cs : List Bytes}
    (h : List.Forall₂ (fun a c => ∃ depth b, f depth a = some b ∧ (W a ∧ R b c ∨ ¬ W a ∧ M b c))
      as cs) :
    ∃ depth bs, as.mapM (f depth) = some bs ∧ List.Forall₂ (fun b c => R b c ∨ M b c) bs cs ∧
      (List.Forall₂ R bs cs ↔ ∀ a ∈ as, W a) := by
  induction h with
  | nil => exact ⟨0, [], rfl, .nil, by simp⟩
  | @cons a c as cs hac _ ih =>
    obtain ⟨m, b, hb, hab⟩ := hac
    obtain ⟨k, bs, hbs, hall, hiff⟩ := ih
    have hbs' : as.mapM (f (max m k)) = some bs :=
      mapM_eq_some_iff.mpr ((mapM_eq_some_iff.mp hbs).imp fun a b h => hf _ _ a
        b (le_max_right m k) h)
    refine ⟨max m k, b :: bs, ?_, .cons ?_ hall, ?_⟩
    · exact mapM_eq_some_iff.mpr
        (.cons (hf _ _ a b (le_max_left m k) hb) (mapM_eq_some_iff.mp hbs'))
    · exact hab.imp And.right And.right
    · rw [List.forall₂_cons, hiff, List.forall_mem_cons]
      refine and_congr_left fun _ => ?_
      rcases hab with ⟨hW, hR⟩ | ⟨hW, hM⟩
      · exact ⟨fun _ => hW, fun _ => hR⟩
      · exact ⟨fun hR => absurd hM (hRM b c hR), fun h => absurd h hW⟩

/-! ### What can be reached -/

namespace PlainGraph

variable {g : PlainGraph F n} {o : Fin n}

theorem edge_iff {a b : Option (Fin n)} : Edge g.kids a b ↔
    ∃ c, b = some c ∧ ((∃ prop ∈ g.props a, prop.2 = .ref c) ∨ .ref c ∈ g.items a) := by
  unfold Edge kids
  rw [List.mem_append, List.mem_flatMap, List.mem_flatMap]
  constructor
  · rintro (⟨⟨key, p | c⟩, hm, hb⟩ | ⟨p | c, hm, hb⟩)
    · exact absurd hb (by simp [memberItems])
    · exact ⟨c, by simpa [memberItems] using hb, .inl ⟨_, hm, rfl⟩⟩
    · exact absurd hb (by simp [elementItems])
    · exact ⟨c, by simpa [elementItems] using hb, .inr hm⟩
  · rintro ⟨c, rfl, ⟨⟨key, item⟩, hm, rfl⟩ | hm⟩
    · exact .inl ⟨_, hm, by simp [memberItems]⟩
    · exact .inr ⟨_, hm, by simp [elementItems]⟩

theorem everywhere_ref {Q : Option (Fin n) → Prop} : g.Everywhere Q (.ref o) ↔
    Q (some o) ∧ (∀ prop ∈ g.props (some o), g.Everywhere Q prop.2) ∧
      ∀ item ∈ g.items (some o), g.Everywhere Q item := by
  constructor
  · intro h
    have hchild : ∀ c, Edge g.kids (some o) (some c) → g.Everywhere Q (.ref c) :=
      fun c hc a ha => h a (Relation.ReflTransGen.head hc ha)
    refine ⟨h _ .refl, ?_, ?_⟩
    · rintro ⟨key, p | c⟩ hm
      · trivial
      · exact hchild c (edge_iff.mpr ⟨c, rfl, .inl ⟨_, hm, rfl⟩⟩)
    · rintro (p | c) hm
      · trivial
      · exact hchild c (edge_iff.mpr ⟨c, rfl, .inr hm⟩)
  · rintro ⟨hQ, hprops, hitems⟩ a ha
    rcases Relation.ReflTransGen.cases_head ha with rfl | ⟨b, hb, ha⟩
    · exact hQ
    · obtain ⟨c, rfl, ⟨⟨key, item⟩, hm, rfl⟩ | hm⟩ := edge_iff.mp hb
      · exact hprops _ hm a ha
      · exact hitems _ hm a ha

variable {props : List (Bytes × Item F n)} {items : List (Item F n)}
    {hd : (props.map fst).Nodup}

theorem props_object (ho : g o = .object props hd) :
    g.props (some o) = props ∧ g.items (some o) = [] := by
  simp [PlainGraph.props, PlainGraph.items, ho]

theorem items_array (ho : g o = .array items) :
    g.props (some o) = [] ∧ g.items (some o) = items := by
  simp [PlainGraph.props, PlainGraph.items, ho]

variable {x : Option (Fin n)}

theorem object_of_val (h : .object x = g.val (.ref o)) :
    ∃ props hd, g o = .object props hd ∧ x = some o := by
  rw [PlainGraph.val] at h
  split at h
  · next props hd ho => exact ⟨props, hd, ho, Val.object.inj h⟩
  · cases h

theorem array_of_val (h : .array x = g.val (.ref o)) :
    ∃ items, g o = .array items ∧ x = some o := by
  rw [PlainGraph.val] at h
  split at h
  · cases h
  · next items ho => exact ⟨items, ho, Val.array.inj h⟩

theorem whole_of_isOmitted (g : PlainGraph F n) {item : Item F n} (h : item.isOmitted) :
    g.Whole item := by
  cases item with
  | prim p => cases p <;> first | exact ⟨rfl, trivial⟩ | cases h
  | ref => cases h

theorem whole_array (ho : g o = .array items) :
    g.Whole (.ref o) ↔ ∀ item ∈ items, item.isHole = false ∧ g.Whole item := by
  unfold Whole
  rw [everywhere_ref, (items_array ho).1, (items_array ho).2]
  constructor
  · rintro ⟨-, ⟨-, hholes⟩, -, hitems⟩ item hi
    exact ⟨hholes item hi, Item.isPromise_of_isHole (hholes item hi), hitems item hi⟩
  · refine fun h => ⟨rfl, ⟨nofun, fun item hi => (h item hi).1⟩, nofun, fun item hi => ?_⟩
    exact (h item hi).2.2

theorem whole_object (ho : g o = .object props hd) :
    g.Whole (.ref o) ↔ ∀ prop ∈ props.filter fun prop => !prop.2.isOmitted, g.Whole prop.2 := by
  unfold Whole
  rw [everywhere_ref, (props_object ho).1, (props_object ho).2]
  constructor
  · rintro ⟨-, ⟨hpromises, -⟩, hprops, -⟩ prop hp
    have hmem := (List.mem_filter.mp hp).1
    exact ⟨hpromises prop hmem, hprops prop hmem⟩
  · intro h
    -- what is left out is no array and no object
    have hw : ∀ prop ∈ props, g.Whole prop.2 := fun prop hp => by
      cases hom : prop.2.isOmitted with
      | true => exact g.whole_of_isOmitted hom
      | false => exact h prop (List.mem_filter.mpr ⟨hp, by rw [hom]; rfl⟩)
    exact ⟨rfl, ⟨fun prop hp => (hw prop hp).1, nofun⟩, fun prop hp => (hw prop hp).2, nofun⟩

theorem clean_array (ho : g o = .array items) (h : g.Clean (.ref o)) :
    ∀ item ∈ items, g.Clean item := by
  obtain ⟨-, h⟩ := h
  rw [everywhere_ref, (items_array ho).2] at h
  exact fun item hi => ⟨h.1.2 item hi, h.2.2 item hi⟩

theorem clean_object (ho : g o = .object props hd) (h : g.Clean (.ref o)) :
    ∀ prop ∈ props, SurrogateFree prop.1 ∧ g.Clean prop.2 := by
  obtain ⟨-, h⟩ := h
  rw [everywhere_ref, (props_object ho).1] at h
  exact fun prop hp => ⟨(h.1.1 prop hp).1, (h.1.1 prop hp).2, h.2.1 prop hp⟩

variable [Numeral F] [LawfulNumeral F]

theorem doc_prim (depth : ℕ) (p : Prim F) :
    g.doc depth (.prim p) = some (p.val : Val F Empty).doc := by
  cases depth <;> rfl

/-- A document does not depend on the depth. -/
theorem doc_mono {m k : ℕ} (hmk : m ≤ k) {item : Item F n} {d : Doc F}
    (h : g.doc m item = some d) : g.doc k item = some d := by
  induction m generalizing k item d with
  | zero =>
    cases item with
    | prim p => rwa [doc_prim] at h ⊢
    | ref o => exact absurd h (by simp [doc])
  | succ m ih =>
    obtain ⟨k, rfl⟩ := Nat.exists_eq_succ_of_ne_zero (n := k) (by omega)
    cases item with
    | prim p => rwa [doc_prim] at h ⊢
    | ref o =>
      rw [doc] at h ⊢
      cases ho : g o with
      | object props hd =>
        rw [ho] at h
        obtain ⟨members, hm, rfl⟩ := map_eq_some_iff.mp h
        refine map_eq_some_iff.mpr ⟨members, mapM_eq_some_iff.mpr ?_, rfl⟩
        refine (mapM_eq_some_iff.mp hm).imp fun prop member hp => ?_
        obtain ⟨d, hd, rfl⟩ := map_eq_some_iff.mp hp
        rw [ih (by omega) hd]
        rfl
      | array items =>
        rw [ho] at h
        obtain ⟨docs, hm, rfl⟩ := map_eq_some_iff.mp h
        refine map_eq_some_iff.mpr ⟨docs, mapM_eq_some_iff.mpr ?_, rfl⟩
        exact (mapM_eq_some_iff.mp hm).imp fun item d hd => ih (by omega) hd

end PlainGraph

/-! ### The texts -/

theorem isHole_of_val {O : Type} {p : Prim F} (h : (p.val : Val F O).isHole) :
    (Item.prim p : Item F n).isHole := by
  cases p <;> first | rfl | cases h

theorem Prim.eq_promise {O : Type} {p : Prim F} (h : (p.val : Val F O).isObject) :
    p = .promise := by
  cases p <;> first | rfl | cases h

theorem isHole_of_whole {g : PlainGraph F n} {item : Item F n} (ho : item.isOmitted = false)
    (h : g.Whole item) : item.isHole = false := by
  cases item with
  | prim p =>
    cases p with
    | symbol | function => cases ho
    | promise => cases h.1
    | _ => rfl
  | ref o => rfl

theorem PlainGraph.isOmitted_val (g : PlainGraph F n) (item : Item F n) :
    (g.val item).isOmitted = item.isOmitted := by
  cases item with
  | prim p => exact p.isOmitted_val
  | ref o => rcases g.val_ref o with hv | hv <;> rw [hv] <;> rfl

theorem spaced_some (comma : Bool) (cs : List Bytes) :
    spaced comma (cs.map some) = joined comma cs := by
  induction cs generalizing comma with
  | nil => rfl
  | cons c cs ih => rw [List.map_cons, spaced, joined, ih]

theorem forall₂_range {R : ℕ → β → Prop} {items : List α}
    (h : List.Forall₂ R (List.range items.length) bs) :
    List.Forall₂ (fun a b => ∃ i, items[i]? = some a ∧ R i b) items bs := by
  have hrange : List.range items.length = items.zipIdx.map snd := by
    rw [List.zipIdx_map_snd, List.range_eq_range']
  rw [hrange, List.forall₂_map_left_iff] at h
  have h' : List.Forall₂ (fun p b => ∃ i, items[i]? = some p.1 ∧ R i b) items.zipIdx bs :=
    (forall₂_mem h).imp fun p b hb => ⟨p.2, List.mem_zipIdx_iff_getElem?.mp hb.1, hb.2⟩
  have h'' : List.Forall₂ (fun a b => ∃ i, items[i]? = some a ∧ R i b) (items.zipIdx.map fst) bs :=
    List.forall₂_map_left_iff.mpr h'
  rwa [List.zipIdx_map_fst] at h''

theorem forall₂_some {R : α → Bytes → Prop} {chunks : List (Option Bytes)}
    (h : List.Forall₂ (fun a chunk => ∃ c, chunk = some c ∧ R a c) as chunks) :
    ∃ cs, chunks = cs.map some ∧ List.Forall₂ R as cs := by
  induction h with
  | nil => exact ⟨[], rfl, .nil⟩
  | cons hac _ ih =>
    obtain ⟨c, rfl, hc⟩ := hac
    obtain ⟨cs, rfl, hcs⟩ := ih
    exact ⟨c :: cs, rfl, .cons hc hcs⟩

section Texts

variable [Numeral F] {text : Bytes} {O : Type} {item : Item F n}

theorem isHole_of_text {p : Prim F} (h : primitiveText (p.val : Val F O) = some (some text)) :
    (Item.prim p : Item F n).isHole = false := by
  cases p <;> simp_all [Prim.val, primitiveText, Item.isHole]

variable [LawfulNumeral F]

theorem Prim.doc_val (p : Prim F) : (p.val : Val F O).doc = (p.val : Val F Empty).doc := by
  cases p <;> rfl

variable (g : PlainGraph F n)

/-- A text is read back to the document of a value, or it is not, as `W` says. -/
def Verdict (W : Prop) (item : Item F n) (text : Bytes) : Prop :=
  ∃ depth d, g.doc depth item = some d ∧
    (W ∧ Reads LawfulNumeral.read d text ∨ ¬ W ∧ Misread LawfulNumeral.read d text)

/-- The texts of arrays and objects. -/
def NestedVerdict (v : Val F (Option (Fin n))) (text : Bytes) : Prop :=
  ∀ o, v = g.val (.ref o) → g.Clean (.ref o) → Verdict g (g.Whole (.ref o)) (.ref o) text

variable {g}

theorem Verdict.space {W : Prop} {space : Bytes} (h : Verdict g W item text)
    (hs : space.all isSpace) :
    Verdict g W item (space ++ text) := by
  obtain ⟨depth, d, hd, ⟨hW, h⟩ | ⟨hW, h⟩⟩ := h
  · exact ⟨depth, d, hd, .inl ⟨hW, h.space hs⟩⟩
  · exact ⟨depth, d, hd, .inr ⟨hW, h.space hs⟩⟩

theorem prints_verdict (h : Prints (NestedVerdict g) (g.val item) text) (hc : g.Clean item) :
    Verdict g (item.isHole = false ∧ g.Whole item) item text := by
  cases item with
  | prim p =>
    refine ⟨0, _, PlainGraph.doc_prim 0 p, ?_⟩
    cases h with
    | text h =>
      refine .inl ⟨⟨isHole_of_text h, Item.isPromise_of_isHole (isHole_of_text h), trivial⟩, ?_⟩
      · rw [← Prim.doc_val]
        refine reads_primitive h ?_
        cases p <;> first | trivial | exact hc.1
    | nothing h =>
      refine .inr ⟨fun hw => ?_, JsonText.misread_space rfl _⟩
      exact absurd (hw.1.symm.trans (isHole_of_val h)) (by simp)
    | nested hv _ => cases p <;> exact absurd hv (by simp [PlainGraph.val, Prim.val, Val.isNested])
  | ref o =>
    cases h with
    | text h =>
      rcases g.val_ref o with hv | hv
      all_goals
        rw [hv] at h
        exact absurd h (by simp [primitiveText])
    | nothing h =>
      rcases g.val_ref o with hv | hv
      all_goals
        rw [hv] at h
        cases h
    | nested _ h =>
      obtain ⟨depth, d, hd, h⟩ := h o rfl hc
      have hhole : (Item.ref o : Item F n).isHole = false := rfl
      exact ⟨depth, d, hd, by simpa [hhole] using h⟩

section Layout

variable {indentation : Option Bytes} (hb : Blank indentation) {slot : Slot (Option (Fin n))}
  (hl : Laid indentation slot)
include hb hl

variable {o : Fin n}

theorem element_verdict {items : List (Item F n)} (ho : g o = .array items) {i : ℕ}
    (hi : items[i]? = some item) (hc : g.Clean item) {chunk : Option Bytes}
    (h : ElementChunk g.engine ⟨none, none⟩ (NestedVerdict g) slot (some o) i chunk) :
    ∃ c, chunk = some c ∧ Verdict g (item.isHole = false ∧ g.Whole item) item c := by
  obtain ⟨value, world, world', hitem, happ⟩ := h
  obtain ⟨rfl, -⟩ : g.val item = value ∧ world = world' := by
    change ok (((g.items (some o))[i]?).elim _ _, _) = _ at hitem
    rw [(PlainGraph.items_array ho).2, hi] at hitem
    exact mk.inj (ok.inj hitem)
  cases happ with
  | omitted _ hindex => cases hindex
  | filtered hk => exact absurd nofun hk
  | @written shown lead t hs _ _ hlead hprints =>
    obtain rfl : shown = g.val item := hs
    exact ⟨_, rfl, (prints_verdict hprints hc).space (separators_space hlead (hl.blank hb) rfl)⟩

theorem members_verdict {props : List (Bytes × Item F n)}
    (hp : ∀ prop ∈ props, (g.props (some o)).lookup prop.1 = some prop.2)
    (hc : ∀ prop ∈ props, SurrogateFree prop.1 ∧ g.Clean prop.2) {chunks : List (Option Bytes)}
    (h : List.Forall₂ (MemberChunk g.engine ⟨none, none⟩ (NestedVerdict g) slot (some o))
      (props.map fst) chunks) :
    List.Forall₂ (fun prop c => ∃ depth member,
        ((g.doc depth prop.2).map fun d => (prop.1, d)) = some member ∧
        (g.Whole prop.2 ∧ ReadsBy (memberEntry LawfulNumeral.read) member c ∨
          ¬ g.Whole prop.2 ∧ MisreadBy (memberEntry LawfulNumeral.read) member c))
      (props.filter fun prop => !prop.2.isOmitted) chunks.reduceOption := by
  induction props generalizing chunks with
  | nil =>
    cases h
    exact .nil
  | cons prop props ih =>
    cases h with
    | @cons _ chunk _ chunks hchunk h =>
      have hrest := ih (fun p hm => hp p (.tail _ hm))
        (fun p hm => hc p (.tail _ hm)) h
      obtain ⟨hkey, hclean⟩ := hc prop (.head _)
      obtain ⟨value, world, world', hget, happ⟩ := hchunk
      obtain ⟨rfl, -⟩ : g.val prop.2 = value ∧ world = world' := by
        change ok (((g.props (some o)).lookup prop.1).elim _ _, _) = _ at hget
        rw [hp prop List.mem_cons_self] at hget
        exact mk.inj (ok.inj hget)
      cases happ with
      | omitted hs _ hom =>
        rw [show _ = _ from hs, g.isOmitted_val] at hom
        rwa [List.filter_cons_of_neg (by simp [hom])]
      | filtered hk => exact absurd nofun hk
      | @written shown lead t hs _ hn hlead hprints =>
        obtain rfl : shown = g.val prop.2 := hs
        have hom : prop.2.isOmitted = false := (g.isOmitted_val prop.2).symm.trans (hn rfl)
        rw [List.filter_cons_of_pos (by simp [hom])]
        obtain ⟨space, gap, hspace, hgap, rfl⟩ := separators_key hlead (hl.blank hb) rfl hkey
        obtain ⟨depth, d, hd, hverdict⟩ := prints_verdict hprints hclean
        refine .cons ⟨depth, (prop.1, d), by rw [hd]; rfl, ?_⟩ hrest
        rcases hverdict with ⟨hW, hr⟩ | ⟨hW, hr⟩
        · exact .inl ⟨hW.2, JsonText.reads_member hspace (spells_escape prop.1) hgap hr⟩
        · exact .inr ⟨fun hw => hW ⟨isHole_of_whole hom hw, hw⟩,
            JsonText.misread_member hspace (spells_escape prop.1) hgap hr⟩

end Layout

variable {indentation : Option Bytes}

/-- The texts of arrays and objects are read back if those of their parts are, and only then. -/
theorem plain_printing (hb : Blank indentation) :
    Printing g.engine ⟨none, none⟩ indentation (NestedVerdict g) where
  object := by
    intro slot hl x _ _ world keys world' chunks _ hkeys h o hv hc
    obtain ⟨props, hd, ho, rfl⟩ := PlainGraph.object_of_val hv
    have hprops := (PlainGraph.props_object ho).1
    obtain rfl : props.map fst = keys := by
      rw [← hprops]
      exact congrArg fst hkeys
    have hp : ∀ prop ∈ props, (g.props (some o)).lookup prop.1 = some prop.2 := fun prop hm => by
      rw [hprops]
      exact lookup_of_mem hd hm
    have hchunks := members_verdict hb hl hp (PlainGraph.clean_object ho hc) h
    obtain ⟨depth, members, hmembers, hall, hwhole⟩ := gather (fun m k prop member hmk hm => by
      obtain ⟨d, hd, rfl⟩ := map_eq_some_iff.mp hm
      rw [PlainGraph.doc_mono hmk hd]
      rfl) (fun _ _ h => h.not_misreadBy) hchunks
    obtain ⟨space, hclose, hspace⟩ := closing_eq (hl.blank hb) (chunks.any isSome) "\x7d"
    rw [hclose, ← List.append_assoc]
    refine ⟨depth + 1, .object members,
      by rw [PlainGraph.doc, ho]; dsimp only; rw [hmembers]; rfl, ?_⟩
    rw [PlainGraph.whole_object ho, ← hwhole]
    by_cases hr : List.Forall₂ (ReadsBy (memberEntry LawfulNumeral.read)) members
      chunks.reduceOption
    · exact .inl ⟨hr, JsonText.container_object.reads hspace hr⟩
    · exact .inr ⟨hr, JsonText.container_object.misread hspace hall hr⟩
  array := by
    intro slot hl x world chunks h o hv hc
    obtain ⟨items, ho, rfl⟩ := PlainGraph.array_of_val hv
    have hlen : g.engine.length (some o) world = items.length :=
      congrArg List.length (PlainGraph.items_array ho).2
    rw [hlen] at h
    have hitems := (forall₂_mem (forall₂_range h)).imp fun item chunk hi =>
      element_verdict hb hl ho hi.2.choose_spec.1 (PlainGraph.clean_array ho hc item hi.1)
        hi.2.choose_spec.2
    obtain ⟨cs, rfl, hcs⟩ := forall₂_some hitems
    obtain ⟨depth, docs, hdocs, hall, hwhole⟩ := gather (f := g.doc)
      (R := Reads LawfulNumeral.read) (M := Misread LawfulNumeral.read)
      (W := fun item => item.isHole = false ∧ g.Whole item)
      (fun m k item d hmk hd => PlainGraph.doc_mono hmk hd) (fun _ _ h => h.not_misreadBy) hcs
    obtain ⟨space, hclose, hspace⟩ := closing_eq (hl.blank hb) ((cs.map some).any isSome) "]"
    rw [hclose, ← List.append_assoc, spaced_some]
    refine ⟨depth + 1, .array docs, by rw [PlainGraph.doc, ho]; dsimp only; rw [hdocs]; rfl, ?_⟩
    rw [PlainGraph.whole_array ho, ← hwhole]
    by_cases hr : List.Forall₂ (Reads LawfulNumeral.read) docs cs
    · exact .inl ⟨hr, JsonText.container_array.reads hspace hr⟩
    · exact .inr ⟨hr, JsonText.container_array.misread hspace hall hr⟩
  converted := by
    intro slot _ _ _ x world world1 _ _ _ hhas
    exact absurd (mk.inj (ok.inj hhas)).1 (by simp)

/-- The text of a plain value is read back to it if and only if the value is whole. -/
theorem plain_round_trip {root : Item F n} (hb : Blank indentation) (hc : g.Clean root) {fuel : ℕ}
    (h : jsonStringifyReplacerSpace fuel g.engine (g.val root) none indentation () =
      .ok (some text)) :
    ∃ depth doc, g.doc depth root = some doc ∧
      (JsonText.parse LawfulNumeral.read text = some doc ↔ g.Whole root) := by
  obtain ⟨replacing, world', shown, hr, -, hs, htext⟩ := stringify_printed (P := NestedVerdict g) h
  cases hr
  obtain rfl : shown = g.val root := hs
  cases root with
  | prim p =>
    refine ⟨0, _, PlainGraph.doc_prim 0 p, ?_⟩
    rcases htext with htext | ⟨hv, htext⟩
    · refine iff_of_true ?_ ⟨Item.isPromise_of_isHole (isHole_of_text htext), trivial⟩
      rw [← Prim.doc_val]
      refine JsonText.parse_of_reads (reads_primitive htext ?_)
      cases p <;> first | trivial | exact hc.1
    · -- nothing is written for a promise
      obtain rfl := Prim.eq_promise hv
      obtain ⟨-, rfl⟩ : _ ∧ text = [] := htext.resolve_left fun h => by cases h.1
      exact iff_of_false (JsonText.parse_ne_of_misread (JsonText.misread_space rfl _))
        fun hw => absurd hw.1 (by simp [Item.isPromise])
  | ref o =>
    rcases htext with htext | ⟨hv, ⟨-, hP⟩ | ⟨hn, -⟩⟩
    · rcases g.val_ref o with hv | hv
      all_goals
        rw [hv] at htext
        exact absurd htext (by simp [primitiveText])
    · obtain ⟨depth, d, hd, ⟨hW, hr⟩ | ⟨hW, hr⟩⟩ := hP (plain_printing hb) o rfl hc
      · exact ⟨depth, d, hd, iff_of_true (JsonText.parse_of_reads hr) hW⟩
      · exact ⟨depth, d, hd, iff_of_false (JsonText.parse_ne_of_misread hr) hW⟩
    · rcases g.val_ref o with hv | hv
      all_goals
        rw [hv] at hn
        cases hn

end Texts

def digitsValue (digits : Bytes) : ℕ :=
  (digits.takeWhile JsonText.isDigit).foldl (fun n d => 10 * n + (d.toNat - 48)) 0

def readInt (text : Bytes) : ℤ :=
  if text.head? = some 45 then -(digitsValue text.tail : ℤ) else digitsValue text

theorem digitsValue_dot (text : Bytes) : digitsValue (text ++ [46, 48]) = digitsValue text := by
  rw [digitsValue, takeWhile_dot, digitsValue]

theorem foldl_digitsOf {fuel : ℕ} (h : n < fuel) :
    (digitsOf fuel n).foldl (fun n d => 10 * n + (d.toNat - 48)) 0 = n := by
  have hdigit : ∀ d < 10, (UInt8.ofNat (48 + d)).toNat - 48 = d := by decide
  induction fuel generalizing n with
  | zero => omega
  | succ fuel ih =>
    rw [digitsOf]
    split_ifs with hn
    · rw [List.foldl_cons, List.foldl_nil, hdigit n hn]
      omega
    · rw [List.foldl_append, ih (by omega), List.foldl_cons, List.foldl_nil,
        hdigit (n % 10) (by omega)]
      omega

theorem digitsValue_natText (n : ℕ) : digitsValue (natText n) = n := by
  obtain ⟨hall, -, -, -⟩ := digitsOf_spec (Nat.lt_succ_self n)
  rw [digitsValue, natText, List.takeWhile_eq_self_iff.mpr (List.all_eq_true.mp hall)]
  exact foldl_digitsOf (Nat.lt_succ_self n)

theorem readInt_itoa (i : ℤ) : readInt (itoa i) = i := by
  unfold readInt itoa
  split_ifs with hi hh hh
  · rw [List.tail_cons, digitsValue_natText]
    omega
  · exact absurd rfl hh
  · exact absurd hh (head_natText _)
  · rw [digitsValue_natText]
    omega

theorem readInt_dot (text : Bytes) : readInt (text ++ [46, 48]) = readInt text := by
  cases text with
  | nil => rfl
  | cons b text =>
    unfold readInt
    rw [List.cons_append, List.head?_cons, List.tail_cons, List.head?_cons, List.tail_cons,
      digitsValue_dot, ← List.cons_append, digitsValue_dot]

theorem isNumber_itoa_dot (i : ℤ) : JsonText.isNumber (itoa i ++ [46, 48]) := by
  have hu : JsonText.isUnsigned (natText i.natAbs ++ [46, 48]) := by
    have hi := isInteger_natText i.natAbs
    rw [JsonText.isUnsigned, takeWhile_dot, dropWhile_dot, takeWhile_isInteger hi,
      dropWhile_isInteger hi, hi]
    rfl
  unfold itoa
  split_ifs
  · exact hu
  · rw [JsonText.isNumber, if_neg, hu]
    rw [List.head?_append_of_ne_nil _ (natText_ne_nil _)]
    exact head_natText _

instance : LawfulNumeral ℤ where
  read := readInt
  ofInt := id
  isNumber_ryu := fun i _ => isNumber_itoa_dot i
  read_ryu := fun i _ => (readInt_dot _).trans (readInt_itoa i)
  read_fraction := fun text _ => readInt_dot text
  read_itoa := readInt_itoa

/-- An object with an array and a function, and an array of keys. -/
def listed : PlainGraph ℤ 3 := fun o =>
  match o with
  | 0 => .object [(ascii "2", .ref 1), (ascii "f", .prim .function)] (by decide)
  | 1 => .array [.prim (.int 1), .prim .undefined]
  | 2 => .array [.prim (.string (ascii "0")), .prim (.string (ascii "2"))]

theorem listed_clean : listed.Clean (.ref 0) := by
  refine ⟨trivial, fun a _ => ?_⟩
  cases a with
  | none => exact ⟨nofun, nofun⟩
  | some o =>
    have h : SurrogateFree (ascii "2") ∧ SurrogateFree (ascii "f") ∧ SurrogateFree (ascii "0") := by
      decide
    match o with
    | 0 =>
      exact ⟨by simp [PlainGraph.props, listed, Item.Clean, h],
        by simp [PlainGraph.items, listed]⟩
    | 1 =>
      exact ⟨by simp [PlainGraph.props, listed],
        by simp [PlainGraph.items, listed, Item.Clean]⟩
    | 2 =>
      exact ⟨by simp [PlainGraph.props, listed], by simp [PlainGraph.items, listed, Item.Clean, h]⟩

/-- The keys of the array. -/
def onlyListed : Replacing ℤ (Option (Fin 3)) Unit Empty := ⟨none, some [ascii "0", ascii "2"]⟩

theorem listed_part {v shown : Val ℤ (Option (Fin 3))} {role : Role}
    (hv : v = .object (some 0) ∨ v = .array (some 1) ∨ v = .int 1)
    (h : Part listed.engine onlyListed v role shown) :
    role = .member (ascii "2") ∧ shown = .array (some 1) ∨ role = .element 0 ∧ shown = .int 1 := by
  have hkept {key : Bytes} (hk : Kept onlyListed key) : key ∈ [ascii "0", ascii "2"] := hk _ rfl
  cases h with
  | @member o key value _ _ _ _ _ _ _ hkey hk hget hs =>
    obtain rfl : o = some 0 := by simpa using hv
    obtain rfl : key = ascii "2" := by
      have hkeys : ∀ key ∈ [ascii "2", ascii "f"], key ∈ [ascii "0", ascii "2"] →
          key = ascii "2" := by decide
      exact hkeys key hkey (hkept hk)
    cases hget
    exact .inl ⟨rfl, hs⟩
  | @element o i value _ _ _ _ hi hk hitem hs =>
    obtain rfl : o = some 1 := by simpa using hv
    obtain rfl : i = 0 := by
      have hindices : ∀ i < 2, natText i ∈ [ascii "0", ascii "2"] → i = 0 := by decide
      exact hindices i hi (hkept hk)
    cases hitem
    exact .inr ⟨rfl, hs⟩
  | converted hhas => cases hhas

theorem listed_reached {v : Val ℤ (Option (Fin 3))}
    (h : Reached listed.engine onlyListed (listed.val (.ref 0)) v) :
    v = .object (some 0) ∨ v = .array (some 1) ∨ v = .int 1 := by
  induction h with
  | refl => exact .inl rfl
  | tail _ hpart ih =>
    obtain ⟨role, hpart⟩ := hpart
    rcases listed_part ih hpart with ⟨-, hv⟩ | ⟨-, hv⟩
    · exact .inr (.inl hv)
    · exact .inr (.inr hv)

theorem listed_tamed : Tamed listed.engine onlyListed (listed.val (.ref 0)) := by
  rintro shown rfl
  refine ⟨trivial,
    fun _ => ⟨rfl, fun v role shown hv hpart => ?_, fun o ho world i j hij hj hk => ?_⟩⟩
  · rcases listed_part (listed_reached hv) hpart with ⟨rfl, rfl⟩ | ⟨rfl, rfl⟩
    · exact fun _ => ⟨by decide, trivial, rfl⟩
    · exact ⟨trivial, rfl⟩
  · obtain rfl : o = some 1 := by simpa using listed_reached ho
    obtain rfl : j = 1 := by
      have hj : j < 2 := hj
      omega
    exact absurd (hk _ rfl) (by decide)

/-- An array with a function and a number. -/
def holed : PlainGraph ℤ 1 := fun _ => .array [.prim .function, .prim (.int 1)]

/-- An object with a promise. -/
def promised : PlainGraph ℤ 1 := fun _ => .object [(ascii "a", .prim .promise)] (by decide)

example : jsonStringify 23 promised.engine (promised.val (.ref 0)) () =
    .ok (some (ascii "\x7b\"a\":\x7d")) := by
  decide

end RasterRuntime.Json
