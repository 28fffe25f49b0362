import Mathlib.Data.List.Perm.Lattice
import RasterRuntime.ReadableStream.Model

/-! # The books of a stream

The promises of reads that are outstanding and those that were settled are together the ones that
were issued (`Accounted`). What the operations of a stream do to its readers and promises keeps the
books right; where an operation can leave a read behind, its lemma asks that there is none. -/

namespace RasterRuntime.ReadableStream

open Streams
open Prod (fst snd)
open List (append_assoc append_nil mem_append)
open Function (update update_of_ne update_self)

variable {V : Type}

namespace Stream

/-- How often a promise was settled. -/
def timesSettled (s : Stream V) (p : ℕ) : ℕ := (s.settled.map fst).count p

/-- No promise of a read is settled twice, and each is settled when the stream is closed or errored
or the reader it was asked of is released. -/
def ReadsSettled (s : Stream V) : Prop :=
  (∀ p, s.timesSettled p ≤ 1) ∧
    ∀ p r, (p, r) ∈ s.issued → s.phase ≠ .readable ∨ s.reader ≠ some r → s.timesSettled p = 1

/-- The promises of reads that are to be settled. -/
def outstanding (s : Stream V) : List ℕ := s.requestsOf s.reader ++ s.nativeReads

end Stream

/-- **The books of a stream**: each promise that was issued is outstanding or was settled. -/
structure Accounted (s : Stream V) : Prop where
  perm : (s.outstanding ++ s.settled.map fst).Perm (s.issued.map fst)
  nodup : (s.issued.map fst).Nodup
  bound : ∀ p ∈ s.issued.map fst, p < s.nextPromise
  others : ∀ r, s.reader ≠ some r → s.requests r = []
  issuer : ∀ p ∈ s.outstanding, ∃ r, s.reader = some r ∧ (p, r) ∈ s.issued
  readers : ∀ r, s.reader = some r → r < s.nextReader
  idle : s.phase ≠ .readable → s.outstanding = []

namespace Accounted

variable {s : Stream V} {p : ℕ}

theorem disjoint (h : Accounted s) (hp : p ∈ s.outstanding) :
    p ∉ s.settled.map fst := by
  have hn : (s.outstanding ++ s.settled.map fst).Nodup := h.perm.nodup_iff.mpr h.nodup
  exact List.disjoint_of_nodup_append hn hp

theorem timesSettled_le (h : Accounted s) (p : ℕ) : s.timesSettled p ≤ 1 := by
  have hn : (s.outstanding ++ s.settled.map fst).Nodup := h.perm.nodup_iff.mpr h.nodup
  exact List.nodup_iff_count_le_one.mp (List.Nodup.of_append_right hn) p

theorem issuer_unique (h : Accounted s) {r r' : ℕ} (hr : (p, r) ∈ s.issued)
    (hr' : (p, r') ∈ s.issued) : r = r' := by
  have := List.inj_on_of_nodup_map h.nodup hr hr' rfl
  exact congrArg snd this

/-- **In time**: a promise that is not outstanding was settled. -/
theorem readsSettled (h : Accounted s) : s.ReadsSettled := by
  refine ⟨h.timesSettled_le, ?_⟩
  intro p r hp hend
  have hmem : p ∈ s.outstanding ++ s.settled.map fst :=
    h.perm.mem_iff.mpr (List.mem_map_of_mem (f := fst) hp)
  rcases mem_append.mp hmem with hout | hset
  · obtain ⟨r', hr', hp'⟩ := h.issuer p hout
    rw [← h.issuer_unique hp hp'] at hr'
    rcases hend with hphase | hreader
    · rw [h.idle hphase] at hout
      cases hout
    · exact absurd hr' hreader
  · have hpos : 0 < s.timesSettled p := List.count_pos_iff.mpr hset
    have := h.timesSettled_le p
    omega

theorem nextPromise_notMem (h : Accounted s) : s.nextPromise ∉ s.issued.map fst :=
  fun hp => Nat.lt_irrefl _ (h.bound _ hp)

end Accounted

/-! ### What keeps the books -/

section Books

variable {s : Stream V}

theorem issued_issue (s : Stream V) (r : ℕ) :
    (s.issue r).issued.map fst = s.issued.map fst ++ [s.nextPromise] := by
  simp [Stream.issue]

theorem settled_settle (s : Stream V) (ps : List ℕ) (o : Outcome V) :
    (s.settle ps o).settled.map fst = s.settled.map fst ++ ps := by
  simp [Stream.settle, Function.comp_def]

theorem nodup_issue (h : Accounted s) (r : ℕ) : ((s.issue r).issued.map fst).Nodup := by
  rw [issued_issue, ← List.concat_eq_append]
  exact List.Nodup.concat h.nextPromise_notMem h.nodup

theorem bound_issue (h : Accounted s) (r : ℕ) :
    ∀ p ∈ (s.issue r).issued.map fst, p < s.nextPromise + 1 := by
  rw [issued_issue]
  exact List.forall_mem_append.mpr ⟨fun p hp => Nat.lt_succ_of_lt (h.bound p hp), by simp⟩

theorem mem_issued_issue {x : ℕ × ℕ} (h : x ∈ s.issued) (r : ℕ) :
    x ∈ (s.issue r).issued := List.mem_append_left _ h

theorem Accounted.answer (h : Accounted s) (r : ℕ) (o : Outcome V) : Accounted (s.answer r o) :=
  { h with
    perm := by
      rw [show (s.answer r o).settled.map fst = _ from settled_settle (s.issue r) _ o,
        ← append_assoc]
      show ((s.outstanding ++ _) ++ _).Perm ((s.issue r).issued.map fst)
      rw [issued_issue]
      exact h.perm.append_right _
    nodup := nodup_issue h r
    bound := bound_issue h r
    issuer := fun p hp =>
      (h.issuer p hp).imp fun r' hr' => hr'.imp_right fun hp' => mem_issued_issue hp' r }

variable {t : Stream V} {r p : ℕ} {c : Option ℕ}

section

variable (h : Accounted s) (hr : s.reader = some r) (hp : s.phase = .readable)

include h hr hp

omit h hp in
theorem outstanding_of_reader : s.outstanding = s.requests r ++ s.nativeReads := by
  unfold Stream.outstanding
  rw [hr]
  rfl

theorem Accounted.wait
    (ht : t = { s.issue r with requests := t.requests, nativeReads := t.nativeReads })
    (hout : (t.requests r ++ t.nativeReads).Perm (s.outstanding ++ [s.nextPromise]))
    (hothers : ∀ q ≠ r, t.requests q = s.requests q) : Accounted t := by
  have hreader : t.reader = some r := ht ▸ hr
  rw [← outstanding_of_reader hreader] at hout
  obtain ⟨_, _, _, _, _, _, _, _⟩ := t
  cases ht
  refine { h with
    perm := ?_
    nodup := nodup_issue h r
    bound := bound_issue h r
    others := fun q hq => (hothers q fun he => hq (he ▸ hr)).trans (h.others q hq)
    issuer := fun p hp' => ?_
    idle := fun hne => absurd hp hne }
  · rw [issued_issue]
    have hcomm : ((s.outstanding ++ [s.nextPromise]) ++ s.settled.map fst).Perm
        ((s.outstanding ++ s.settled.map fst) ++ [s.nextPromise]) := by
      rw [append_assoc, append_assoc]
      exact List.Perm.append_left _ List.perm_append_comm
    exact ((hout.append_right _).trans hcomm).trans (h.perm.append_right _)
  · rcases mem_append.mp (hout.mem_iff.mp hp') with hp' | hp'
    · obtain ⟨r', hr', hp''⟩ := h.issuer p hp'
      exact ⟨r', hr', mem_issued_issue hp'' r⟩
    · rw [List.mem_singleton.mp hp']
      exact ⟨r, hr, List.mem_append_right _ (.head _)⟩

theorem Accounted.addReadRequest : Accounted (s.readableStreamAddReadRequest r) := by
  refine h.wait hr hp rfl ?_ fun q hq => update_of_ne hq _ _
  show (update s.requests r (s.requests r ++ [s.nextPromise]) r ++ s.nativeReads).Perm _
  rw [update_self, outstanding_of_reader hr, append_assoc, append_assoc]
  exact List.Perm.append_left _ List.perm_append_comm

theorem Accounted.addNativeRead :
    Accounted { s.issue r with nativeReads := s.nativeReads ++ [s.nextPromise] } := by
  refine h.wait hr hp rfl ?_ fun _ _ => rfl
  rw [outstanding_of_reader hr, append_assoc]
  rfl

end

variable (h : Accounted s)

include h

theorem Accounted.settle {l : List ℕ} {o : Outcome V} (ht : t = { s.settle l o with
      phase := t.phase, requests := t.requests, nativeReads := t.nativeReads })
    (hout : s.outstanding.Perm (l ++ t.outstanding))
    (hothers : ∀ r, s.reader ≠ some r → t.requests r = [])
    (hidle : t.phase ≠ .readable → t.outstanding = []) : Accounted t := by
  obtain ⟨_, _, _, _, _, _, _, _⟩ := t
  cases ht
  refine { h with
    perm := ?_
    others := hothers
    issuer := fun p hp => h.issuer p (hout.mem_iff.mpr (List.mem_append_right _ hp))
    idle := hidle }
  rw [settled_settle, ← append_assoc]
  refine (List.perm_append_comm.trans ?_).trans h.perm
  rw [← append_assoc]
  exact hout.symm.append_right _

theorem Accounted.fulfil {ps : List ℕ} (hr : s.reader = some r)
    (hreq : s.requests r = p :: ps) (o : Outcome V) :
    Accounted ((s.setRequests r ps).settle [p] o) := by
  have hout := outstanding_of_reader hr
  rw [hreq] at hout
  refine h.settle (l := [p]) rfl ?_ (fun q hq => ?_) fun hne => nomatch hout.symm.trans (h.idle hne)
  · have hr' : ((s.setRequests r ps).settle [p] o).reader = some r := hr
    rw [hout, outstanding_of_reader hr']
    show (p :: ps ++ s.nativeReads).Perm ([p] ++ (update s.requests r ps r ++ s.nativeReads))
    rw [update_self]
    rfl
  · have hne : q ≠ r := fun he => hq (by rw [hr, he])
    exact (update_of_ne hne _ _).trans (h.others q hq)

theorem Accounted.finishNative (hp : p ∈ s.nativeReads) (o : Outcome V) :
    Accounted (({ s with nativeReads := s.nativeReads.erase p }).settle [p] o) := by
  refine h.settle (l := [p]) rfl ?_ h.others fun hne => ?_
  · have hcons := (List.perm_cons_erase hp).append_left (s.requestsOf s.reader)
    exact hcons.trans List.perm_middle
  · rw [(List.append_eq_nil_iff.mp (h.idle hne)).2] at hp
    cases hp

/-- A reader that is not the stream's has no requests. -/
theorem Accounted.requestsOf_eq (hc : c = s.reader ∨ s.requestsOf s.reader = []) :
    s.requestsOf c = s.requestsOf s.reader := by
  rcases hc with hc | hc
  · rw [hc]
  · rw [hc]
    cases c with
    | none => rfl
    | some r =>
      by_cases hr : s.reader = some r
      · rw [← hr]
        exact hc
      · exact h.others r hr

omit h in
theorem shut_eq (s : Stream V) (ph : Phase V) (o : Outcome V) (c : Option ℕ) :
    s.shut ph o c = { s with
      phase := ph
      requests := fun r => if c = some r then [] else s.requests r
      settled := (s.settle (s.requestsOf c) o).settled } := by
  cases c with
  | none => simp [Stream.shut, Stream.clearRequests, Stream.settle]
  | some q =>
    have hreq : update s.requests q [] = fun r => if some q = some r then [] else s.requests r := by
      funext r
      by_cases h : q = r
      · simp [h]
      · simp [h, update_of_ne (Ne.symm h)]
    rw [← hreq]
    rfl

theorem Accounted.shut {ph : Phase V}
    (hc : c = s.reader ∨ s.requestsOf s.reader = []) (hnative : s.nativeReads = [])
    (o : Outcome V) :
    Accounted (s.shut ph o c) := by
  have hnone (r : ℕ) (hr : s.reader = some r) : (if c = some r then [] else s.requests r) = [] := by
    split_ifs with hcr
    · rfl
    · rcases hc with hc | hc
      · exact absurd (hc.trans hr) hcr
      · rwa [hr] at hc
  have hout : (s.shut ph o c).outstanding = [] := by
    rw [shut_eq]
    refine List.append_eq_nil_iff.mpr ⟨?_, hnative⟩
    unfold Stream.requestsOf
    cases hr : s.reader with
    | none => rfl
    | some r => exact hnone r hr
  rw [shut_eq] at hout ⊢
  refine h.settle rfl ?_ (fun r hr => ?_) (fun _ => hout)
  · rw [hout, h.requestsOf_eq hc, append_nil]
    unfold Stream.outstanding
    rw [hnative, append_nil]
  · show (if c = some r then [] else s.requests r) = []
    rw [h.others r hr, ite_self]

/-- Another reader, or none, for a stream with nothing outstanding. -/
theorem Accounted.swap {f : ℕ → List ℕ} {n : ℕ} (hout : s.outstanding = [])
    (hf : ∀ q, f q = []) (hc : ∀ q, c = some q → q < n) :
    Accounted { s with reader := c, requests := f, nextReader := n } := by
  have hnone :
      ({ s with reader := c, requests := f, nextReader := n } : Stream V).outstanding = [] := by
    refine List.append_eq_nil_iff.mpr ⟨?_, (List.append_eq_nil_iff.mp hout).2⟩
    cases c with
    | none => rfl
    | some q => exact hf q
  have hperm := h.perm
  rw [hout, ← hnone] at hperm
  exact { h with
    perm := hperm
    others := fun q _ => hf q
    issuer := fun p hp => by rw [hnone] at hp; cases hp
    readers := hc
    idle := fun _ => hnone }

theorem Accounted.acquire (hr : s.reader = none) :
    Accounted { s with reader := some s.nextReader, nextReader := s.nextReader + 1 } := by
  refine h.swap (List.eq_nil_iff_forall_not_mem.mpr fun p hp => ?_) (fun q => ?_) fun q hq => ?_
  · obtain ⟨r, hr', -⟩ := h.issuer p hp
    cases hr.symm.trans hr'
  · exact h.others q (by rw [hr]; simp)
  · cases hq
    exact Nat.lt_succ_self _

omit h in
/-- A reader that is released. Its requests are gone before they could be rejected. -/
theorem release_eq (s : Stream V) (r : ℕ) : s.readableStreamDefaultReaderRelease r =
    { s with reader := none, requests := update s.requests r [] } := by
  simp [Stream.readableStreamDefaultReaderRelease, Stream.setRequests,
    Stream.readableStreamDefaultReaderErrorReadRequests, Stream.settle]

theorem Accounted.release (hr : s.reader = some r) (hreq : s.requests r = [])
    (hnative : s.nativeReads = []) :
    Accounted (s.readableStreamDefaultReaderRelease r) := by
  rw [release_eq]
  refine h.swap ?_ (fun q => ?_) nofun
  · rw [outstanding_of_reader hr, hreq, hnative]
    rfl
  · by_cases hq : q = r
    · rw [hq, update_self]
    · rw [update_of_ne hq]
      exact h.others q (by rw [hr]; exact fun he => hq (Option.some_inj.mp he).symm)

end Books

end RasterRuntime.ReadableStream
