import RasterRuntime.Modules.Rollback

/-! # The file that a request comes from

A request is resolved against the file of a module. For the `require` of a CommonJS module that is
the module itself; its `require.resolve` passes the options that it was not given on to the global
function, which refuses them. The global `require` takes the current module, if a body runs, and
only otherwise the script that the engine reports.

* `Named`: the record in the cache for a name has the file name of it.
* `importOf_file`: the module that the `require` of a module loads, for a request for a file.
* `require_bases`: when `require` and `require.resolve` agree, and when an ES module's request is
  resolved in its own directory. -/

namespace RasterRuntime.Modules

open Loader
open Lexical (isAbsolute)
open Resolver (dirname)

/-! ### Requests for files -/

/-- What the resolver answers is an absolute path, and no built-in module has the name of one. -/
structure World.Paths (W : World) : Prop where
  resolved : ∀ {time x y path}, W.requireResolve time x y = some path → isAbsolute path = true
  ordinary : ∀ n ∈ W.names.ordinary, n ≠ [] ∧ isAbsolute n = false

/-- The request is not for a built-in module, nor the key of an import. -/
structure RequestsFile (W : World) (request : Text) : Prop where
  plain : cjsImportPrefix.isPrefixOf request = false
  enabled : W.names.disabledNodeBuiltinErrorRequest (trimBare request) = none
  notBuiltin : W.names.resolveBuiltinForResolve (trimBare request) = none

section Requests

variable {W : World} (hW : W.Paths) (time : ℕ)
include hW

omit hW in
theorem trimEnd_cons (c : Char) (s : Text) :
    trimEnd (c :: s) = [] ∨ (trimEnd (c :: s)).head? = some c := by
  have h : trimEnd (c :: s) <+: c :: s := by
    rw [trimEnd, ← List.reverse_suffix, List.reverse_reverse]
    exact List.dropWhile_suffix _
  obtain h | ⟨t, h, -⟩ := List.prefix_cons_iff.mp h
  · exact .inl h
  · exact .inr (h ▸ rfl)

omit hW in
theorem stripPrefix_node {path : Text} (h : isAbsolute path) :
    stripPrefix "node:".toList (trimEnd path) = none := by
  obtain ⟨s, rfl⟩ := List.head?_eq_some_iff.mp (of_decide_eq_true h)
  rcases trimEnd_cons '/' s with hnil | hhead
  · rw [hnil]
    rfl
  · obtain ⟨t, ht⟩ := List.head?_eq_some_iff.mp hhead
    rw [ht]
    rfl

theorem importOfResolved_path {x y path : Text} (h : W.requireResolve time x y = some path) :
    ∃ viaImport, importOfResolved W path = .ok ⟨path, viaImport⟩ := by
  have habs := hW.resolved h
  have hdisabled : W.names.disabledNodeBuiltinErrorRequest path = none := by
    rw [ModuleNames.disabledNodeBuiltinErrorRequest, stripPrefix_node habs]
  have hnot : trimEnd path ∉ W.names.ordinary := by
    intro hmem
    obtain ⟨hne, hrel⟩ := hW.ordinary _ hmem
    obtain ⟨s, rfl⟩ := List.head?_eq_some_iff.mp (of_decide_eq_true habs)
    rcases trimEnd_cons '/' s with hnil | hhead
    · exact hne hnil
    · cases hrel.symm.trans (decide_eq_true hhead)
  have hbuiltin : W.names.resolveBuiltin path = none := by
    rw [ModuleNames.resolveBuiltin, stripPrefix_node habs]
    split_ifs with hno hyes
    · rfl
    · exact absurd hyes.1 hnot
    · rfl
  unfold importOfResolved
  split_ifs
  · exact ⟨true, rfl⟩
  · rw [hdisabled, hbuiltin]
    exact ⟨false, rfl⟩

theorem importOf_file {request : Text} (h : RequestsFile W request) (base : Text) :
    (importOf W time request base).toOption.map Import.name =
      W.requireResolve time (trimBare request) base := by
  unfold importOf
  rw [h.plain, if_neg Bool.false_ne_true, h.enabled]
  rw [defaultResolveFilename, h.enabled, h.notBuiltin]
  cases hr : W.requireResolve time (trimBare request) base with
  | none => rfl
  | some path =>
    obtain ⟨viaImport, hi⟩ := importOfResolved_path hW time hr
    change (importOfResolved W path).toOption.map Import.name = some path
    rw [hi]
    rfl

end Requests

/-! ### The names of files -/

/-- The record in the cache for a name has the file name of it. -/
structure Named (W : World) (s : Loader) : Prop where
  filename : ∀ {n r}, s.cache n = some r → s.filenameOf r = moduleFilename W n

section Named

variable {W : World} {s s' : Loader}

theorem filenameOf_modify (r : Ref) {f : Record → Record}
    (hf : ∀ record, (f record).filename = record.filename) (r' : Ref) :
    (s.modify r f).filenameOf r' = s.filenameOf r' := by
  have hcomp : Record.filename ∘ f = Record.filename := funext hf
  rw [filenameOf, elim_modify, hcomp, ite_self]
  rfl

variable (h : Named W s)

include h

theorem Named.modify (r : Ref) {f : Record → Record}
    (hf : ∀ record, (f record).filename = record.filename) : Named W (s.modify r f) :=
  ⟨fun hr => (filenameOf_modify r hf _).trans (h.filename hr)⟩

theorem Named.setLoaded (r : Ref) (b : Bool) : Named W (s.setLoaded r b) :=
  h.modify r (f := fun record => { record with loaded := b }) fun _ => rfl

theorem Named.setExports (r : Ref) (v : Value) : Named W (s.setExports r v) :=
  h.modify r (f := fun record => { record with exports := v }) fun _ => rfl

/-- The loader with fewer modules in its cache and the same records. -/
theorem Named.of_records (hrecords : s'.records = s.records)
    (hcache : ∀ {n r}, s'.cache n = some r → s.cache n = some r) : Named W s' := by
  refine ⟨fun hr => ?_⟩
  rw [filenameOf, hrecords]
  exact h.filename (hcache hr)

theorem Named.construct (hs : s.WellFormed) (id : Text) (parent : Option Ref) :
    Named W (s.construct W id parent) := by
  refine ⟨fun {n r} hr => ?_⟩
  exact (elim_construct W id parent [] Record.filename (hs.bounded hr)).trans (h.filename hr)

theorem Named.enrol (hs : s.WellFormed) (n : Text) (parent : Option Ref) :
    Named W (s.enrol W n parent) := by
  refine ⟨fun {n' r} hr => ?_⟩
  rcases cache_enrol W parent hr with ⟨rfl, rfl⟩ | ⟨-, hr⟩
  · have hrecord : (s.enrol W n' parent).records[s.records.length]? =
        some ⟨moduleFilename W n', .object s.objects, false, [], parent⟩ :=
      List.getElem?_concat_length
    rw [filenameOf, hrecord]
    rfl
  · exact (h.construct hs n parent).filename hr

theorem Named.getOrCreate (hs : s.WellFormed) (n : Text) (parent : Option Ref) :
    Named W (s.getOrCreate W n parent).2 := by
  unfold Loader.getOrCreate
  cases s.cache n with
  | some r => exact h
  | none =>
    rw [create_eq]
    cases parent with
    | none => exact h.enrol hs n none
    | some p =>
      exact (h.enrol hs n (some p)).modify p
        (f := fun record => { record with children := record.children ++ [s.records.length] })
        fun _ => rfl

omit h in
theorem Begins.named {parent : Option Ref} {f : Frame} (hb : Begins W s parent f s') (h : Named W s)
    (hs : s.WellFormed) : Named W s' := by
  have hmade := (h.getOrCreate hs f.name parent).setLoaded f.record false
  obtain ⟨-, -, ⟨-, rfl⟩ | ⟨-, rfl⟩⟩ := hb
  all_goals exact hmade.of_records rfl id

theorem Named.endLoad (f : Frame) : Named W ((s.dropGuard f).complete f.name f.record) := by
  have hdrop : Named W (s.dropGuard f) :=
    h.of_records (records_dropGuard s f) fun hr => cache_dropGuard s f ▸ hr
  exact (hdrop.setLoaded f.record true).of_records rfl id

theorem Named.failLoad (f : Frame) : Named W ((s.dropGuard f).rollback f.name) := by
  refine h.of_records (records_dropGuard s f) fun {n r} hr => ?_
  rw [← cache_dropGuard s f]
  exact cache_rollback hr

end Named

section Step

variable {W : World} {m m' : Machine} {a : Action}

theorem Named.readStep {f : Frame} {rest : List Frame} (h : Named W m.loader)
    (hstep : readStep m f rest a = some m') : Named W m'.loader := by
  rcases readStep_cases hstep with ⟨-, rfl⟩ | ⟨v, -, rfl⟩ | ⟨-, rfl⟩
  · exact h.of_records rfl id
  · exact (h.setExports f.record v).endLoad f
  · exact h.failLoad f

theorem Named.otherStep (h : Named W m.loader) (hs : m.loader.WellFormed)
    (hstep : otherStep W m a = some m') : Named W m'.loader := by
  obtain ⟨s, rfl, hcases⟩ | ⟨r, v, rfl⟩ | ⟨f, rest, -, hend⟩ := otherStep_cases hstep
  · rcases hcases with rfl | ⟨n, rfl⟩ | ⟨id, parent, rfl⟩
    · exact h
    · exact h.getOrCreate hs n none
    · exact h.construct hs id parent
  · exact h.setExports r v
  · rcases hend with ⟨v, -, -, rfl⟩ | ⟨v, -, -, rfl⟩ | ⟨-, rfl⟩
    · exact (h.setExports f.record v).endLoad f
    · exact h.endLoad f
    · exact h.failLoad f

theorem Named.step (h : Named W m.loader) (hm : m.Sound) (hstep : Modules.step W m a = some m') :
    Named W m'.loader := by
  obtain ⟨f, rest, -, -, hread⟩ | ⟨-, ⟨parent, link, s, specifier, hcaller, rfl⟩ | ⟨-, hother⟩⟩ :=
    step_cases hstep
  · exact h.readStep hread
  · have hnamed : Named W s := by
      rcases callerOf_loader hcaller with rfl | ⟨n, rfl⟩
      · exact h
      · exact h.getOrCreate hm.simulating.wellFormed n none
    obtain ⟨hsim, -, -⟩ := hm.caller hcaller
    rcases hsim.require_cases W m.time parent specifier link with
      ⟨e, he⟩ | ⟨n, v, hr, -⟩ | ⟨f, s', hl, hb, -⟩
    · rw [he]
      exact hnamed
    · rw [hr]
      exact hnamed
    · rw [hl]
      exact hb.named hnamed hsim.wellFormed
  · exact h.otherStep hm.simulating.wellFormed hother

theorem named_of_run {acts : List Action}
    (h : Transition.run (Modules.step W) .initial acts = some m) :
    Named W m.loader := by
  have hboth : m.Sound ∧ Named W m.loader := by
    refine Transition.run_invariant (Modules.step W) (P := fun m => m.Sound ∧ Named W m.loader) ?_
      ⟨Machine.sound_initial, ⟨nofun⟩⟩ h
    rintro m₁ a m₂ ⟨hsound, hnamed⟩ hstep
    exact ⟨hsound.step hstep, Named.step hnamed hsound hstep⟩
  exact hboth.2

end Step

/-! ### The base of a request -/

/-- The file that the request of a call of `require` is resolved against. -/
def baseOf (W : World) (m : Machine) (a : Action) : Option Text :=
  (callerOf W m a).map fun (parent, _, s, _) => s.filenameOf parent

/-- The module whose body is the innermost one that runs. -/
def runningModule : List Frame → Option Text
  | [] => none
  | f :: rest => f.guard.elim (runningModule rest) fun _ => some f.name

/-- The current module is the one whose body runs. -/
theorem pointer_cases {s : Loader} {stack : List Frame}
    (hcache : ∀ f ∈ stack, s.cache f.name = some f.record) :
    runningModule stack = none ∧ pointer stack = none ∨
      ∃ n r, runningModule stack = some n ∧ pointer stack = some r ∧ s.cache n = some r := by
  induction stack with
  | nil => exact .inl ⟨rfl, rfl⟩
  | cons f rest ih =>
    rw [pointer, runningModule]
    cases f.guard with
    | none => exact ih fun g hg => hcache g (List.mem_cons_of_mem f hg)
    | some g => exact .inr ⟨f.name, f.record, rfl, rfl, hcache f (.head _)⟩

/-- The base of a global `require`: the module whose body runs, or else the script. -/
theorem baseOf_globalRequire {W : World} {acts : List Action} {m : Machine}
    (hrun : Transition.run (step W) .initial acts = some m) (script specifier : Text) :
    baseOf W m (.globalRequire script specifier) =
      some (moduleFilename W ((runningModule m.stack).getD (canonicalScript W script))) := by
  have hsound := sound_of_run hrun
  have hnamed := named_of_run hrun
  have hcache : ∀ f ∈ m.stack, m.loader.cache f.name = some f.record :=
    fun f hf => Simulates.cache_of_mem hsound.simulating hf
  have hcurrent := hsound.sound.pointed.current
  unfold baseOf callerOf
  rcases pointer_cases hcache with ⟨hn, hp⟩ | ⟨n, r, hn, hp, hr⟩
  · rw [hcurrent.trans hp, hn]
    have hwf := hsound.simulating.wellFormed
    obtain ⟨-, hr, -⟩ := getOrCreate_spec (n := canonicalScript W script) W none hwf
    exact congrArg some ((hnamed.getOrCreate hwf (canonicalScript W script) none).filename hr)
  · rw [hcurrent.trans hp, hn]
    exact congrArg some (hnamed.filename hr)

/-- **The files that requests come from.** The `require.resolve` of a module, called with a request
alone, agrees with its `require` exactly if the resolver finds no file for the request. The global
`require` of an ES module is resolved in the directory of the module exactly if no body runs, or the
innermost one that does is of a module there. -/
theorem require_bases (W : World) (hW : W.Paths) :
    (∀ time file request, RequestsFile W request →
      ((moduleRequireResolve W time request .missing).toOption =
          (importOf W time request file).toOption.map Import.name ↔
        W.requireResolve time (trimBare request) file = none)) ∧
      ∀ acts m, Transition.run (step W) .initial acts = some m →
        ∀ script specifier, canonicalScript W script = script →
          ((baseOf W m (.globalRequire script specifier)).map dirname = some (dirname script) ↔
            dirname (moduleFilename W ((runningModule m.stack).getD script)) = dirname script) := by
  refine ⟨fun time file request h => ?_, fun acts m hrun script specifier hscript => ?_⟩
  · -- the options that were not passed are `undefined` in the call of the global function
    have hfails : (moduleRequireResolve W time request .missing).toOption = none := rfl
    rw [hfails, importOf_file hW time h]
    exact eq_comm
  · rw [baseOf_globalRequire hrun, hscript, Option.map_some, Option.some_inj]

theorem twoFiles_paths : twoFiles.Paths where
  resolved := by
    intro time x y path h
    obtain ⟨hx, rfl⟩ : (x = "/a.js".toList ∨ x = "/b.js".toList) ∧ x = path := by
      rw [twoFiles] at h
      dsimp only at h
      split_ifs at h with hx
      exact ⟨hx, Option.some_inj.mp h⟩
    rcases hx with rfl | rfl <;> rfl
  ordinary := nofun

/-- A file that is not there, and the request of an ES module beside the module whose body runs. -/
theorem require_bases_twoFiles :
    (moduleRequireResolve twoFiles 0 "/c.js".toList .missing).toOption =
        (importOf twoFiles 0 "/c.js".toList "/b.js".toList).toOption.map Import.name ∧
      ∃ m, Transition.run (step twoFiles) .initial
          [.globalRequire "/n.mjs".toList "/a.js".toList, .begin] = some m ∧
        m.stack.length = 1 ∧
        (baseOf twoFiles m (.globalRequire "/n.mjs".toList "/b.js".toList)).map dirname =
          some (dirname "/n.mjs".toList) := by
  obtain ⟨hresolve, hbase⟩ := require_bases twoFiles twoFiles_paths
  have hfile : RequestsFile twoFiles "/c.js".toList := by
    refine ⟨?_, ?_, ?_⟩ <;> decide
  refine ⟨(hresolve 0 _ _ hfile).mpr (by decide), ?_⟩
  refine Transition.exists_of_run _ rfl fun hrun => ⟨rfl, ?_⟩
  exact (hbase _ _ hrun _ _ (by decide)).mpr (by decide)

/-- The files `/app/main.mjs` and `/app/b.js`, in a process that runs in `/work`. -/
def elsewhere : World :=
  World.ofFiles ⟨[], [], []⟩
    { json := fun _ => none
      home := []
      platform := "browser".toList
      cache := NodeModules.Table.empty }
    { fs :=
        { isFile := fun p => Path.normalize p ∈ ["/app/main.mjs".toList, "/app/b.js".toList]
          isDir := fun p => Path.normalize p ∈ ["/app".toList, "/lib".toList, "/work".toList]
          readLink := fun _ => none
          read := fun _ => .error [] }
      parseJson := fun _ => none
      registered := .ok defaultExtensions
      hooked := none
      isEsm := false }
    ⟨["work".toList], by decide⟩

/-- In `/app/b.js` a module can be required that `require.resolve` fails for, with an object of
options too; and while `/app/main.mjs` is loaded, requests of the module `/lib/n.mjs` that it
imports are resolved in `/app`. -/
theorem requests_from_elsewhere :
    moduleRequireResolve elsewhere 0 "./b".toList .missing = .error .notObject ∧
      (moduleRequireResolve elsewhere 0 "./b".toList .object).toOption = none ∧
      (importOf elsewhere 0 "./b".toList "/app/b.js".toList).toOption.map Import.name =
        some "/app/b.js".toList ∧
      ∃ m, Transition.run (step elsewhere) .initial
          [.globalRequire "/work/start.js".toList "/app/main.mjs".toList, .begin] = some m ∧
        baseOf elsewhere m (.globalRequire "/lib/n.mjs".toList "./b".toList) =
          some "/app/main.mjs".toList :=
  ⟨rfl, by decide, by decide, Option.map_eq_some_iff.mp (by decide)⟩

end RasterRuntime.Modules
