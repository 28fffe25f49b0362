import RasterRuntime.Fs.FileHandle

/-! # `fs.createReadStream`

The generator of `read_stream.rs`: it reads a file in rounds, at a position if a start or an end is
given and at the cursor if not, and closes the handle in its `finally`. What the system gives in a
round, if the read does not fail, and whether the consumer goes on after a chunk are parameters.

* `generate_yields`: it ends, and its chunks are the bytes that were asked for. -/

namespace RasterRuntime.Fs

open List (drop_take length_drop length_take replicate take_left')

/-- The options that the generator uses. -/
structure StreamOptions where
  start : Option ℕ
  «end» : Option ℕ
  highWaterMark : ℕ

namespace StreamOptions

variable (o : StreamOptions)

/-- The options are not refused. -/
def Accepted : Prop := 0 < o.highWaterMark ∧ ∀ s ∈ o.start, ∀ e ∈ o.end, s ≤ e

def hasRange : Bool := o.start.isSome || o.end.isSome

/-- What a round asks for; `none` where it breaks. -/
def toRead (position : ℕ) : Option ℕ :=
  match o.end with
  | none => some o.highWaterMark
  | some e =>
    if e + 1 ≤ position then none else some (min o.highWaterMark (e + 1 - position))

/-- The arguments of the read. That `Buffer.alloc` refuses more than 2 GB is left out. -/
def readArgs (toRead position : ℕ) : ReadArgs :=
  ⟨some (.inl (replicate toRead 0)), some (.inr 0), some toRead,
    if o.hasRange then some (some position) else none⟩

/-- The bytes from a position to the end, which is inclusive. -/
def bytesFrom (content : Bytes) (position : ℕ) : Bytes :=
  (content.take (o.end.elim content.length (· + 1))).drop position

end StreamOptions

/-- The ways out of the generator. -/
inductive Ending
  | finished
  | failed
  | stopped
  deriving DecidableEq, Repr

section

variable (checks : Bool) (o : StreamOptions) (gives : ℕ → ℕ → File → Option ℕ) (goesOn : ℕ → Bool)

/-- The `try` block from its round `k` on: the chunks, and the way out. It is `none` if the rounds
do not suffice or a read panics. -/
def rounds : ℕ → ℕ → ℕ → File → Option (List Bytes × Ending)
  | 0, _, _, _ => none
  | n + 1, k, position, f =>
    match o.toRead position with
    | none => some ([], .finished)
    | some toRead =>
      let args := o.readArgs toRead position
      match gives k toRead (f.goto args.givenPosition) with
      | none => some ([], .failed)
      | some m =>
        match read checks m args f with
        | (.done bytesRead, f, buf) =>
          let chunk := buf.take bytesRead
          if bytesRead = 0 then some ([], .finished)
          else if !goesOn k then some ([chunk], .stopped)
          else if o.end.any (· < position + bytesRead) then some ([chunk], .finished)
          else (rounds n (k + 1) (position + bytesRead) f).map fun r => (chunk :: r.1, r.2)
        | _ => none

/-- The generator when it is left, with the flag of its handle. -/
structure Generated where
  chunks : List Bytes
  ending : Ending
  closed : Bool

def generate (n : ℕ) (content : Bytes) : Option Generated :=
  (rounds checks o gives goesOn n 0 (o.start.getD 0) ⟨content, 0⟩).map fun r => ⟨r.1, r.2, true⟩

end

variable {o : StreamOptions} {gives : ℕ → ℕ → File → Option ℕ} {f : File} {content : Bytes}
  {toRead position m : ℕ}

theorem givenPosition_readArgs :
    (o.readArgs toRead position).givenPosition = if o.hasRange then some position else none := by
  cases hr : o.hasRange <;> simp [StreamOptions.readArgs, ReadArgs.givenPosition, ReadArgs.options1,
    ReadArgs.options2, ReadOptions.default, hr]

/-- The place of a read, with a position or without. -/
theorem getD_givenPosition (hcursor : o.hasRange = false → f.cursor = position) :
    (o.readArgs toRead position).givenPosition.getD f.cursor = position := by
  cases hr : o.hasRange <;> simp [givenPosition_readArgs, hr, hcursor]

/-- One round: the chunk, and the file after it. -/
theorem read_round (checks : Bool) (hcursor : o.hasRange = false → f.cursor = position)
    (hm : m ≤ toRead)
    (hleft : m ≤ f.content.length - position) :
    ∃ f' buf, read checks m (o.readArgs toRead position) f = (.done m, f', buf) ∧
      buf.take m = (f.content.drop position).take m ∧ f'.content = f.content ∧
      (o.hasRange = false → f'.cursor = position + m) := by
  have hbuf : ((f.content.drop position).take m).length = m := by
    rw [length_take, length_drop]; omega
  obtain ⟨hb, ho, hl, hw⟩ : (o.readArgs toRead position).buffer = replicate toRead 0 ∧
      (o.readArgs toRead position).offset = 0 ∧
        (o.readArgs toRead position).givenLength = some toRead ∧
      (o.readArgs toRead position).wanted = toRead := ⟨rfl, rfl, rfl, rfl⟩
  have hread : read checks m (o.readArgs toRead position) f = _ :=
    (read_accepted (by simp [Refused, hb, ho, hl])).2.2
  rw [getD_givenPosition hcursor, hb, ho, hw] at hread
  rw [hread]
  refine ⟨_, _, if_pos ?_, ?_, rfl, fun hr => ?_⟩
  · simp only [List.length_append, hbuf, List.length_replicate]; omega
  · rw [List.take_zero, List.nil_append, take_left' hbuf]
  · simp [givenPosition_readArgs, hr, hcursor hr]

theorem bytesFrom_split (h : position + m ≤ o.end.elim content.length (· + 1)) :
    o.bytesFrom content position =
      (content.drop position).take m ++ o.bytesFrom content (position + m) := by
  unfold StreamOptions.bytesFrom
  rw [drop_take, drop_take, ← List.drop_drop, ← List.take_add]
  congr 1; omega

/-- The chunks are of these bytes, and of all of them if the generator has finished. -/
structure Yields (o : StreamOptions) (bytes : Bytes) (chunks : List Bytes)
    (ending : Ending) : Prop where
  sized : ∀ c ∈ chunks, c ≠ [] ∧ c.length ≤ o.highWaterMark
  start : chunks.flatten <+: bytes
  all : ending = .finished → chunks.flatten = bytes

theorem Yields.cons {bytes c : Bytes} {chunks : List Bytes} {ending : Ending}
    (h : Yields o bytes chunks ending)
    (hc : c ≠ [] ∧ c.length ≤ o.highWaterMark) : Yields o (c ++ bytes) (c :: chunks) ending :=
  ⟨List.forall_mem_cons.mpr ⟨hc, h.sized⟩, (List.prefix_append_right_inj c).mpr h.start,
    fun he => congrArg (c ++ ·) (h.all he)⟩

theorem yields_nil {bytes : Bytes} {ending : Ending} (h : ending = .finished → bytes = []) :
    Yields o bytes [] ending :=
  ⟨nofun, List.nil_prefix, fun he => (h he).symm⟩

theorem bytesFrom_eq_nil
    (h : o.end.elim content.length (· + 1) ≤ position ∨ content.length ≤ position) :
    o.bytesFrom content position = [] := by
  refine List.drop_eq_nil_of_le ?_
  rw [length_take]; omega

/-- What a round asks for. -/
theorem toRead_spec (ho : o.Accepted) (h : o.toRead position = some toRead) :
    0 < toRead ∧ toRead ≤ o.highWaterMark ∧
      ∀ m length, m ≤ toRead → m ≤ length - position → 0 < m →
        position + m ≤ o.end.elim length (· + 1) := by
  have hwm := ho.1
  unfold StreamOptions.toRead at h
  split at h
  · next he =>
    cases h
    exact ⟨hwm, Nat.le_refl _, fun m length _ _ _ => by rw [he, Option.elim_none]; omega⟩
  · next e he =>
    split_ifs at h
    cases h
    exact ⟨by omega, by omega, fun m length _ _ _ => by rw [he, Option.elim_some]; omega⟩

/-- **The rounds from a position on.** -/
theorem rounds_yield (checks : Bool) (goesOn : ℕ → Bool) (ho : o.Accepted)
    (hgives : ∀ k toRead f m, gives k toRead f = some m → Available toRead m f)
    (n k position : ℕ) (f : File)
    (hcursor : o.hasRange = false → f.cursor = position) (hn : f.content.length - position < n) :
    ∃ r, rounds checks o gives goesOn n k position f = some r ∧
      Yields o (o.bytesFrom f.content position) r.1 r.2 ∧
      ((∀ k toRead f, gives k toRead f ≠ none) → (∀ k, goesOn k) → r.2 = .finished) := by
  induction n generalizing k position f with
  | zero => omega
  | succ n ih =>
    unfold rounds
    cases ht : o.toRead position with
    | none =>
      refine ⟨_, rfl, yields_nil fun _ => bytesFrom_eq_nil (.inl ?_), fun _ _ => rfl⟩
      unfold StreamOptions.toRead at ht
      split at ht
      · cases ht
      · next e he =>
        split_ifs at ht with hlt
        simpa [he] using hlt
    | some toRead =>
      obtain ⟨hpos, hle, hfit⟩ := toRead_spec ho ht
      dsimp only
      cases hg : gives k toRead (f.goto (o.readArgs toRead position).givenPosition) with
      | none => exact ⟨_, rfl, yields_nil nofun, fun h => absurd hg (h _ _ _)⟩
      | some m =>
        have hav := hgives _ _ _ _ hg
        rw [goto_eq, getD_givenPosition hcursor] at hav
        have hm := hav.le
        have hleft : m ≤ f.content.length - position := hav.left
        obtain ⟨f', buf, hread, hchunk, hcontent, hcursor'⟩ := read_round checks hcursor hm hleft
        dsimp only
        rw [hread]
        dsimp only
        rw [hchunk]
        by_cases h0 : m = 0
        · have hend : f.content.length ≤ position := by
            by_contra hlt
            have hm0 : 0 < m := hav.pos hpos (Nat.lt_of_not_le hlt)
            omega
          rw [if_pos h0]
          exact ⟨_, rfl, yields_nil fun _ => bytesFrom_eq_nil (.inr hend), fun _ _ => rfl⟩
        · have hlen : ((f.content.drop position).take m).length = m := by
            rw [length_take, length_drop]; omega
          have hc : (f.content.drop position).take m ≠ [] ∧
              ((f.content.drop position).take m).length ≤ o.highWaterMark := by
            rw [← List.length_pos_iff, hlen]; omega
          rw [if_neg h0, bytesFrom_split (hfit m _ hm hleft (by omega))]
          split_ifs with hgo hend
          · exact ⟨_, rfl, (show Yields o _ [] .stopped from yields_nil nofun).cons hc,
              fun _ h => by simp [h k] at hgo⟩
          · refine ⟨_, rfl, (yields_nil fun _ => bytesFrom_eq_nil (.inl ?_)).cons hc,
              fun _ _ => rfl⟩
            obtain ⟨e, he, hlt⟩ := (Option.any_eq_true ..).mp hend
            simpa [he, Nat.succ_le_iff] using hlt
          · obtain ⟨r, hr, hy, hfin⟩ :=
              ih (k + 1) (position + m) f' hcursor' (by rw [hcontent]; omega)
            rw [hr]
            rw [hcontent] at hy
            exact ⟨_, rfl, hy.cons hc, hfin⟩

/-- **Every way out of the generator**: with enough rounds it is left, and its handle is closed. Its
chunks are not empty, not longer than the high water mark, and of the bytes from the start on; they
are all bytes up to the end if it finishes, which it does if no read fails and the consumer goes
on. -/
theorem generate_yields (checks : Bool) (o : StreamOptions) (gives : ℕ → ℕ → File → Option ℕ)
    (goesOn : ℕ → Bool) (content : Bytes) (ho : o.Accepted)
    (hgives : ∀ k toRead f m, gives k toRead f = some m → Available toRead m f) :
    ∀ n, content.length < n → ∃ g, generate checks o gives goesOn n content = some g ∧
      g.closed = true ∧
      Yields o (o.bytesFrom content (o.start.getD 0)) g.chunks g.ending ∧
      ((∀ k toRead f, gives k toRead f ≠ none) → (∀ k, goesOn k = true) →
        g.ending = .finished) := by
  intro n hn
  have hcursor (h : o.hasRange = false) : 0 = o.start.getD 0 := by
    simp only [StreamOptions.hasRange, Bool.or_eq_false_iff, Option.isSome_eq_false_iff,
      Option.isNone_iff_eq_none] at h
    rw [h.1]; rfl
  obtain ⟨r, hr, hy, hfin⟩ := rounds_yield checks goesOn ho hgives n 0
    (o.start.getD 0) ⟨content, 0⟩ hcursor (by show content.length - _ < n; omega)
  exact ⟨⟨r.1, r.2, true⟩, by rw [generate, hr]; rfl, rfl, hy, hfin⟩

/-- A file of five bytes from its second to its fourth, two at a time. -/
theorem generate_yields_range : ∃ g, generate true ⟨some 1, some 3, 2⟩
    (fun _ length f => some (min length (f.content.length - f.cursor))) (fun _ => true) 6
    [1, 2, 3, 4, 5] = some g ∧ g.closed = true ∧ g.chunks.flatten = [2, 3, 4] := by
  obtain ⟨g, hg, hclosed, hy, hfin⟩ := generate_yields true ⟨some 1, some 3, 2⟩
    (fun _ length f => some (min length (f.content.length - f.cursor))) (fun _ => true)
    [1, 2, 3, 4, 5]
    ⟨by decide, by simp⟩ (fun k length f m h => by
      cases h
      exact ⟨Nat.min_le_left _ _, Nat.min_le_right _ _, fun h1 h2 => by omega⟩) 6 (by decide)
  exact ⟨g, hg, hclosed, hy.all (hfin nofun fun _ => rfl)⟩

end RasterRuntime.Fs
