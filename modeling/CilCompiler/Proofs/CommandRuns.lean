import CilCompiler.Command.Run
import CilCompiler.Proofs.FileSystems

/-!
# What a run changes

A run looks at files, compiles, and only then makes directories and writes. So whatever goes wrong
before leaves no trace, and a run that ends well leaves the module and the directories on its path.

* `Keeps` says that a computation only looks. It holds of everything up to the compilation.
* `ComesToNothing` and `ComesToModule` are the two ways in which reading and compiling can go.
* `Adds` relates the states before and behind the making of directories, `Writes` those before and
  behind the storing of a module.
* `run_changes` says what a run changes on any file system.
-/

namespace CilCompiler.Command

open Wasm (Bytes)

/-! ## Outcomes -/

section Outcomes

variable {σ α β : Type} {x : ExceptT Failure (StateM σ) α} {f : α → ExceptT Failure (StateM σ) β}
  {s s' : σ} {a : α} {e : Failure}

/-- What a computation comes to in a state, and the state behind it. -/
def outcome (x : ExceptT Failure (StateM σ) α) (s : σ) : Except Failure α × σ := x s

theorem bind_state {y : StateM σ α} {g : α → StateM σ β} (h : y s = (a, s')) :
    (y >>= g) s = g a s' := by
  change g (y s).1 (y s).2 = _
  rw [h]

theorem outcome_bind_ok (h : outcome x s = (.ok a, s')) :
    outcome (x >>= f) s = outcome (f a) s' := by
  change (ExceptT.bindCont f (outcome x s).1) (outcome x s).2 = _
  rw [h]
  rfl

theorem outcome_bind_error (h : outcome x s = (.error e, s')) :
    outcome (x >>= f) s = (.error e, s') := by
  change (ExceptT.bindCont f (outcome x s).1) (outcome x s).2 = _
  rw [h]
  rfl

/-- The computation only looks. -/
def Keeps (x : ExceptT Failure (StateM σ) α) : Prop := ∀ s, (outcome x s).2 = s

theorem Keeps.outcome_eq (h : Keeps x) {result : Except Failure α}
    (hresult : (outcome x s).1 = result) : outcome x s = (result, s) :=
  Prod.ext hresult (h s)

theorem Keeps.bind (hx : Keeps x) (hf : ∀ a, Keeps (f a)) : Keeps (x >>= f) := by
  intro s
  have hstate := hx s
  rcases hout : outcome x s with ⟨result, s'⟩
  rw [hout] at hstate
  cases result with
  | error e =>
      rw [outcome_bind_error hout]
      exact hstate
  | ok a =>
      rw [outcome_bind_ok hout, hf a s']
      exact hstate

theorem outcome_lift {y : StateM σ α} (h : y s = (a, s')) :
    outcome (ExceptT.lift y) s = (.ok a, s') := by
  change (Except.ok (y s).1, (y s).2) = _
  rw [h]

theorem outcome_inContext_ok {context : Context} {y : StateM σ (Except FileFault α)}
    (h : y s = (.ok a, s')) : outcome (inContext context y) s = (.ok a, s') :=
  outcome_bind_ok (outcome_lift h)

theorem outcome_inContext_error {context : Context} {y : StateM σ (Except FileFault α)}
    {fault : FileFault} (h : y s = (.error fault, s')) :
    outcome (inContext context y) s = (.error ⟨[context], .file fault⟩, s') :=
  outcome_bind_ok (outcome_lift h)

end Outcomes

/-! ## Reading and compiling -/

section Runs

variable {σ : Type} (fs : FileSystem σ) (a : Arguments) {s s' : σ}

theorem keeps_readText (path : String) : Keeps (readText fs.files path) := by
  refine Keeps.bind ?_ fun bytes => ?_
  · intro s
    have hstate := fs.read_keeps path s
    rcases hread : fs.files.read path s with ⟨result, s'⟩
    rw [hread] at hstate
    cases result with
    | error fault =>
        rw [outcome_inContext_error hread]
        exact hstate
    | ok bytes =>
        rw [outcome_inContext_ok hread]
        exact hstate
  · split <;> exact fun _ => rfl

theorem keeps_loadBridge (manifest : Option String) : Keeps (loadBridge fs.files manifest) := by
  cases manifest with
  | none =>
      exact fun _ => rfl
  | some path =>
      refine Keeps.bind (keeps_readText fs path) fun text => ?_
      split <;> exact fun _ => rfl

/-- The run comes to nothing: the bridge or the listing cannot be read, or the listing cannot be
parsed or compiled. -/
inductive ComesToNothing (files : Files (StateM σ)) (a : Arguments) (s : σ) : Failure → Prop
  | bridge {f : Failure} :
      (outcome (loadBridge files a.manifest) s).1 = .error f → ComesToNothing files a s f
  | input {bridge : Host.Bridge} {f : Failure} :
      (outcome (loadBridge files a.manifest) s).1 = .ok bridge →
      (outcome (readText files a.input) s).1 = .error f → ComesToNothing files a s f
  | listing {bridge : Host.Bridge} {text : String} {e : Listing.SyntaxError} :
      (outcome (loadBridge files a.manifest) s).1 = .ok bridge →
      (outcome (readText files a.input) s).1 = .ok text → Listing.parse text = .error e →
      ComesToNothing files a s ⟨[.inFile a.input], .compile (.malformedListing e)⟩
  | compilation {bridge : Host.Bridge} {text : String} {source : Assembly} {f : Failure} :
      (outcome (loadBridge files a.manifest) s).1 = .ok bridge →
      (outcome (readText files a.input) s).1 = .ok text → Listing.parse text = .ok source →
      compile source (a.options bridge) = .error f → ComesToNothing files a s f

/-- The listing is the assembly `source`, and it is compiled to `bytes`. -/
inductive ComesToModule (files : Files (StateM σ)) (a : Arguments) (s : σ) :
    Assembly → Bytes → Prop
  | intro {bridge : Host.Bridge} {text : String} {source : Assembly} {bytes : Bytes} :
      (outcome (loadBridge files a.manifest) s).1 = .ok bridge →
      (outcome (readText files a.input) s).1 = .ok text → Listing.parse text = .ok source →
      compile source (a.options bridge) = .ok bytes → ComesToModule files a s source bytes

theorem comesTo_cases (files : Files (StateM σ)) (a : Arguments) (s : σ) :
    (∃ f, ComesToNothing files a s f) ∨ ∃ source bytes, ComesToModule files a s source bytes := by
  cases hbridge : (outcome (loadBridge files a.manifest) s).1 with
  | error f =>
      exact .inl ⟨f, .bridge hbridge⟩
  | ok bridge =>
      cases htext : (outcome (readText files a.input) s).1 with
      | error f =>
          exact .inl ⟨f, .input hbridge htext⟩
      | ok text =>
          cases hparse : Listing.parse text with
          | error e =>
              exact .inl ⟨_, .listing hbridge htext hparse⟩
          | ok source =>
              cases hcompile : compile source (a.options bridge) with
              | error f =>
                  exact .inl ⟨f, .compilation hbridge htext hparse hcompile⟩
              | ok bytes =>
                  exact .inr ⟨source, bytes, .intro hbridge htext hparse hcompile⟩

/-- If the run comes to nothing, preparing it fails and changes nothing. -/
theorem ComesToNothing.prepare_eq {f : Failure} (h : ComesToNothing fs.files a s f) :
    outcome (prepare fs.files a) s = (.error f, s) := by
  unfold prepare
  have hbridge := keeps_loadBridge fs a.manifest
  have htext := keeps_readText fs a.input
  cases h with
  | bridge hfails =>
      exact outcome_bind_error (hbridge.outcome_eq hfails)
  | input hloads hfails =>
      rw [outcome_bind_ok (hbridge.outcome_eq hloads)]
      exact outcome_bind_error (htext.outcome_eq hfails)
  | listing hloads hreads hparse =>
      rw [outcome_bind_ok (hbridge.outcome_eq hloads), outcome_bind_ok (htext.outcome_eq hreads),
        hparse]
      rfl
  | compilation hloads hreads hparse hcompile =>
      rw [outcome_bind_ok (hbridge.outcome_eq hloads), outcome_bind_ok (htext.outcome_eq hreads),
        hparse]
      dsimp only
      rw [hcompile]
      rfl

/-- If the run comes to a module, preparing it gives the module and changes nothing. -/
theorem ComesToModule.prepare_eq {source : Assembly} {bytes : Bytes}
    (h : ComesToModule fs.files a s source bytes) :
    outcome (prepare fs.files a) s = (.ok ⟨source.name, bytes⟩, s) := by
  rcases h with ⟨hloads, hreads, hparse, hcompile⟩
  unfold prepare
  rw [outcome_bind_ok ((keeps_loadBridge fs a.manifest).outcome_eq hloads),
    outcome_bind_ok ((keeps_readText fs a.input).outcome_eq hreads), hparse]
  dsimp only
  rw [hcompile]
  rfl

theorem outputPath_keeps (assembly : String) (s : σ) :
    (outputPath fs.files a assembly s).2 = s := by
  unfold outputPath
  cases a.output with
  | none =>
      rfl
  | some out =>
      have hstate := fs.isDirectory_keeps out s
      rcases hasked : fs.files.isDirectory out s with ⟨isThere, s'⟩
      rw [hasked] at hstate
      dsimp only
      rw [bind_state hasked]
      split <;> exact hstate

/-! ## Storing -/

/-- The two states differ only in directories that were missing and that these paths lead to. -/
structure Adds (v : View σ) (directories : List String) (s s' : σ) : Prop where
  entry (l : Location) : v.entry? s' l = v.entry? s l ∨
    v.entry? s l = none ∧ v.entry? s' l = some .directory ∧
      ∃ directory ∈ directories, v.locate s' directory = .ok l
  locate {path : String} {l : Location} : v.locate s path = .ok l → v.locate s' path = .ok l

variable {v : View σ} {directories : List String} {s s' s'' : σ}

theorem Adds.refl (v : View σ) (directories : List String) (s : σ) : Adds v directories s s :=
  ⟨fun _ => .inl rfl, id⟩

theorem Adds.trans (h : Adds v directories s s') (h' : Adds v directories s' s'') :
    Adds v directories s s'' := by
  refine ⟨fun l => ?_, fun hl => h'.locate (h.locate hl)⟩
  rcases h'.entry l with hkept' | ⟨hnone', hmade', hled'⟩
  · rcases h.entry l with hkept | ⟨hnone, hmade, directory, hmem, hled⟩
    · exact .inl (hkept'.trans hkept)
    · exact .inr ⟨hnone, hkept'.trans hmade, directory, hmem, h'.locate hled⟩
  · rcases h.entry l with hkept | ⟨-, hmade, -⟩
    · exact .inr ⟨hkept.symm.trans hnone', hmade', hled'⟩
    · rw [hmade] at hnone'
      cases hnone'

theorem Adds.mono {more : List String} (h : Adds v directories s s') (hsub : directories ⊆ more) :
    Adds v more s s' := by
  refine ⟨fun l => ?_, h.locate⟩
  rcases h.entry l with hkept | ⟨hnone, hmade, directory, hmem, hled⟩
  · exact .inl hkept
  · exact .inr ⟨hnone, hmade, directory, hsub hmem, hled⟩

/-- An attempt to make a directory adds it or changes nothing. -/
theorem adds_of_createDirectory {directory : String} {result : Except FileFault Unit}
    (h : fs.files.createDirectory directory s = (result, s')) :
    Adds fs.toView [directory] s s' := by
  cases result with
  | error fault =>
      cases fs.createDirectory_error h
      exact .refl _ _ _
  | ok =>
      rcases fs.createDirectory_ok h with ⟨place, hplace, hnone, hputs⟩
      refine ⟨fun l => ?_, hputs.locate⟩
      rw [hputs.entry]
      by_cases hl : l = place
      · exact .inr ⟨hl ▸ hnone, by rw [if_pos hl], directory, by simp, hl ▸ hputs.locate hplace⟩
      · exact .inl (if_neg hl)

theorem orPresent_keeps {directory : String} {result result' : Except FileFault Unit}
    (h : createAll.orPresent fs.files directory result s = (result', s')) : s' = s := by
  unfold createAll.orPresent at h
  cases result with
  | ok =>
      cases h
      rfl
  | error fault =>
      have hstate := fs.isDirectory_keeps directory s
      rcases hasked : fs.files.isDirectory directory s with ⟨isThere, s₁⟩
      rw [hasked] at hstate
      dsimp only at h hstate
      rw [bind_state hasked] at h
      cases isThere with
      | true =>
          cases h
          exact hstate
      | false =>
          cases h
          exact hstate

theorem adds_of_createAll (h : createAll fs.files directories s = (.ok (), s')) :
    Adds fs.toView directories s s' := by
  induction directories generalizing s s' with
  | nil =>
      cases h
      exact .refl _ _ _
  | cons directory above ih =>
      rcases hmade : fs.files.createDirectory directory s with ⟨result, s₁⟩
      have hadds : Adds fs.toView (directory :: above) s s₁ :=
        (adds_of_createDirectory fs hmade).mono (by simp)
      unfold createAll at h
      rw [bind_state hmade] at h
      cases result with
      | ok =>
          cases h
          exact hadds
      | error fault =>
          cases fault with
          | notFound =>
              -- the directories above are made first, and then this one is tried again
              rcases habove : createAll fs.files above s₁ with ⟨result, s₂⟩
              dsimp only at h
              rw [bind_state habove] at h
              cases result with
              | error fault =>
                  cases h
              | ok =>
                  rcases hagain : fs.files.createDirectory directory s₂ with ⟨result, s₃⟩
                  dsimp only at h
                  rw [bind_state hagain] at h
                  cases orPresent_keeps fs h
                  have habove' : Adds fs.toView (directory :: above) s₁ s₂ :=
                    (ih habove).mono (List.subset_cons_self _ _)
                  have hagain' : Adds fs.toView (directory :: above) s₂ s' :=
                    (adds_of_createDirectory fs hagain).mono (by simp)
                  exact (hadds.trans habove').trans hagain'
          | _ =>
              cases orPresent_keeps fs h
              exact hadds

/-- In `s'` the path leads to a file with these bytes. All else is as in `s`, but for directories
that were missing there, and ancestors of the path lead to them. -/
def Writes (v : View σ) (path : String) (bytes : Bytes) (s s' : σ) : Prop :=
  ∃ place, v.locate s' path = .ok place ∧ v.entry? s place ≠ some .directory ∧
    v.entry? s' place = some (.file bytes) ∧ ∀ l, l ≠ place → v.entry? s' l = v.entry? s l ∨
      v.entry? s l = none ∧ v.entry? s' l = some .directory ∧
        ∃ directory, Path.IsAncestor directory path ∧ v.locate s' directory = .ok l

theorem writes_of_adds {path : String} {bytes : Bytes}
    (hancestors : ∀ directory ∈ directories, Path.IsAncestor directory path)
    (hadds : Adds fs.toView directories s s')
    (h : fs.files.write path bytes s' = (.ok (), s'')) : Writes fs.toView path bytes s s'' := by
  rcases fs.write_ok h with ⟨place, hplace, hfree, hputs⟩
  refine ⟨place, hputs.locate hplace, ?_, by rw [hputs.entry, if_pos rfl], ?_⟩
  · intro hdirectory
    rcases hadds.entry place with hkept | ⟨hnone, -⟩
    · exact hfree (hkept.trans hdirectory)
    · rw [hnone] at hdirectory
      cases hdirectory
  · intro l hl
    rw [hputs.entry, if_neg hl]
    rcases hadds.entry l with hkept | ⟨hnone, hmade, directory, hmem, hled⟩
    · exact .inl hkept
    · exact .inr ⟨hnone, hmade, directory, hancestors directory hmem, hputs.locate hled⟩

/-- A failure in making directories or in writing. -/
inductive IsStoring : Failure → Prop
  | directory (path : String) (fault : FileFault) :
      IsStoring ⟨[.creatingDirectory path], .file fault⟩
  | file (path : String) (fault : FileFault) : IsStoring ⟨[.writing path], .file fault⟩

/-- Writing fails, or the file is written behind the directories that were added before. -/
theorem write_cases {path : String} {bytes : Bytes} {result : Except Failure Unit}
    (hancestors : ∀ directory ∈ directories, Path.IsAncestor directory path)
    (hadds : Adds fs.toView directories s s')
    (h : outcome (inContext (.writing path) (fs.files.write path bytes)) s' = (result, s'')) :
    (∃ f, result = .error f ∧ IsStoring f) ∨
      result = .ok () ∧ Writes fs.toView path bytes s s'' := by
  rcases hwrite : fs.files.write path bytes s' with ⟨written, s₁⟩
  cases written with
  | error fault =>
      rw [outcome_inContext_error hwrite] at h
      cases h
      exact .inl ⟨_, rfl, .file path fault⟩
  | ok =>
      rw [outcome_inContext_ok hwrite] at h
      cases h
      exact .inr ⟨rfl, writes_of_adds fs hancestors hadds hwrite⟩

theorem store_cases {path : String} {bytes : Bytes} {result : Except Failure Unit}
    (h : outcome (store fs.files path bytes) s = (result, s')) :
    (∃ f, result = .error f ∧ IsStoring f) ∨
      result = .ok () ∧ Writes fs.toView path bytes s s' := by
  unfold store at h
  dsimp only at h
  by_cases hparent : Path.parent path = ""
  · rw [if_pos hparent] at h
    exact write_cases fs (by simp) (Adds.refl fs.toView [] s) h
  · rw [if_neg hparent] at h
    have hancestors : ∀ directory ∈ Path.ancestors (Path.parent path),
        Path.IsAncestor directory path :=
      fun directory hmem => Path.isAncestor_of_mem_ancestors hparent hmem
    rcases hcreate : createAll fs.files (Path.ancestors (Path.parent path)) s with ⟨created, s₁⟩
    cases created with
    | error fault =>
        rw [outcome_bind_error (outcome_inContext_error hcreate)] at h
        cases h
        exact .inl ⟨_, rfl, .directory _ fault⟩
    | ok =>
        rw [outcome_bind_ok (outcome_inContext_ok hcreate)] at h
        exact write_cases fs hancestors (adds_of_createAll fs hcreate) h

/-! ## Runs -/

/-- A run that comes to a module stores it. -/
theorem ComesToModule.run_eq {source : Assembly} {bytes : Bytes}
    (h : ComesToModule fs.files a s source bytes) :
    outcome (run fs.files a) s =
      outcome (store fs.files (outputPath fs.files a source.name s).1 bytes) s := by
  have hpath : outputPath fs.files a source.name s =
      ((outputPath fs.files a source.name s).1, s) := Prod.ext rfl (outputPath_keeps fs a _ s)
  unfold run
  rw [outcome_bind_ok (h.prepare_eq fs a), outcome_bind_ok (outcome_lift hpath)]

/-- On every file system, a run for which the bridge or the listing cannot be read, or the listing
not parsed or compiled, fails and changes nothing. All other failures are those of making
directories and of writing. A run that succeeds has read and compiled the listing, and has written
the module to the output path; besides this file it only adds missing directories, all of them
ancestors of the path. -/
theorem run_changes (fs : FileSystem σ) (a : Arguments) (s : σ) :
    (∀ f, ComesToNothing fs.files a s f → outcome (run fs.files a) s = (.error f, s)) ∧
      (∀ f s', outcome (run fs.files a) s = (.error f, s') →
        ComesToNothing fs.files a s f ∨ IsStoring f) ∧
      ∀ s', outcome (run fs.files a) s = (.ok (), s') → ∃ source bytes,
        ComesToModule fs.files a s source bytes ∧
          Writes fs.toView (outputPath fs.files a source.name s).1 bytes s s' := by
  have hnothing : ∀ f, ComesToNothing fs.files a s f →
      outcome (run fs.files a) s = (.error f, s) := fun f h =>
    outcome_bind_error (h.prepare_eq fs a)
  refine ⟨hnothing, ?_, ?_⟩
  · intro f s' hrun
    rcases comesTo_cases fs.files a s with ⟨f', hf'⟩ | ⟨source, bytes, hmodule⟩
    · rw [hnothing f' hf'] at hrun
      cases hrun
      exact .inl hf'
    · rw [hmodule.run_eq fs a] at hrun
      rcases store_cases fs hrun with ⟨f', hf', hstoring⟩ | ⟨hok, -⟩
      · cases hf'
        exact .inr hstoring
      · cases hok
  · intro s' hrun
    rcases comesTo_cases fs.files a s with ⟨f', hf'⟩ | ⟨source, bytes, hmodule⟩
    · rw [hnothing f' hf'] at hrun
      cases hrun
    · rw [hmodule.run_eq fs a] at hrun
      rcases store_cases fs hrun with ⟨f', hf', -⟩ | ⟨-, hwrites⟩
      · cases hf'
      · exact ⟨source, bytes, hmodule, hwrites⟩

end Runs

namespace FreshOutput

/-! ### A module in a new directory -/

/-- A tree with a listing in the working directory. -/
def tree : FileTree where
  home := ["work"]
  entries := [(["work"], .directory), (["work", "a.il"], .file ".assembly L".toUTF8.toList)]

/-- The module goes into a directory that is not there yet. -/
def arguments : Arguments :=
  { input := "a.il", output := some "out/new/", manifest := none, headerSize := 8
    exportPolicy := .all, interopMethods := [], validate := true, verbosity := 0, quiet := false }

def behind : FileTree := (outcome (run FileTree.system.files arguments) tree).2

theorem run_ok : outcome (run FileTree.system.files arguments) tree = (.ok (), behind) := by
  have hok : (outcome (run FileTree.system.files arguments) tree).1.isOk = true := by
    decide +kernel
  refine Prod.ext ?_ rfl
  generalize (outcome (run FileTree.system.files arguments) tree).1 = result at hok ⊢
  cases result with
  | error f =>
      cases hok
  | ok =>
      rfl

/-- The directories are made and the module is stored, but a listing that is not there leaves the
tree as it is. -/
theorem stores_or_keeps :
    (∃ source bytes, ComesToModule FileTree.system.files arguments tree source bytes ∧
        Writes FileTree.system.toView
          (outputPath FileTree.system.files arguments source.name tree).1 bytes tree behind) ∧
      (behind.changesSince tree).map Prod.fst =
        [["work", "out"], ["work", "out", "new"], ["work", "out", "new", "L.wasm"]] ∧
      outcome (run FileTree.system.files { arguments with input := "b.il" }) tree =
        (.error ⟨[.reading "b.il"], .file .notFound⟩, tree) := by
  have hmissing : ComesToNothing FileTree.system.files { arguments with input := "b.il" } tree
      ⟨[.reading "b.il"], .file .notFound⟩ := .input rfl rfl
  exact ⟨(run_changes FileTree.system arguments tree).2.2 behind run_ok, by decide +kernel,
    (run_changes FileTree.system { arguments with input := "b.il" } tree).1 _ hmissing⟩

end FreshOutput

end CilCompiler.Command
