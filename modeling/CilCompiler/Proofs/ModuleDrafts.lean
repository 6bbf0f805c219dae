import CilCompiler.Proofs.MethodDrafts

/-!
# Drafts of modules

A whole module can be drafted, method by method, and building it numbers the names in the drafts.
Whatever the numbers do not show is therefore decided by the drafts, and the order of the numbers by
the order in which the drafts name things.

* `draftMethods` drafts a list of methods, and `draftMethods_ok_iff` says when it can.
* `Image.WrittenFrom` ties an image to the drafts of its methods.
* `build_drafted` says that a build ends as the drafts of the methods do, with the image that is
  written from them.
-/

namespace CilCompiler

open Host (ImportDecl)

/-! ## Lists of methods -/

/-- The drafts of methods one after the other, up to the first failure. -/
def draftMethods (x : Setting) (o : Options) (defined : List String) :
    List (TypeDef × MethodDef) → Except Failure (List FunctionDraft)
  | [] => .ok []
  | (t, m) :: rest =>
    match draftNext x o defined t.name m with
    | .error e => .error ⟨[.compilingMethod (m.ref t.name).fullName], .compile e⟩
    | .ok f => (f :: ·) <$> draftMethods x o (defined ++ [f.name]) rest

/-- The methods have these drafts, one each. -/
abbrev Drafted (x : Setting) (o : Options) : List (TypeDef × MethodDef) → List FunctionDraft → Prop :=
  List.Forall₂ fun tm f => draftMethod x o tm.1.name tm.2 = .ok f

section Lists

variable {x : Setting} {o : Options} {defined : List String}

theorem draftNext_ok_iff {declaring : TypeName} {m : MethodDef} {f : FunctionDraft} :
    draftNext x o defined declaring m = .ok f ↔
      draftMethod x o declaring m = .ok f ∧ f.name ∉ defined := by
  unfold draftNext
  cases draftMethod x o declaring m with
  | error e =>
      simp [bind, Except.bind]
  | ok f' =>
      by_cases hname : f'.name ∈ defined
      · have hfails : ∀ f, f' = f → f.name ∈ defined := fun f hf => hf ▸ hname
        simpa [bind, Except.bind, hname, throw, throwThe, MonadExceptOf.throw] using hfails f
      · have hnew : f' = f → f.name ∉ defined := fun hf => hf ▸ hname
        simpa [bind, Except.bind, hname, pure, Except.pure] using hnew

theorem draftMethods_cons_ok {t : TypeDef} {m : MethodDef} {f : FunctionDraft}
    (h : draftNext x o defined t.name m = .ok f) (ms : List (TypeDef × MethodDef)) :
    draftMethods x o defined ((t, m) :: ms) =
      (f :: ·) <$> draftMethods x o (defined ++ [f.name]) ms := by
  rw [draftMethods, h]

theorem draftMethods_cons_error {t : TypeDef} {m : MethodDef} {e : CompileError}
    (h : draftNext x o defined t.name m = .error e) (ms : List (TypeDef × MethodDef)) :
    draftMethods x o defined ((t, m) :: ms) =
      .error ⟨[.compilingMethod (m.ref t.name).fullName], .compile e⟩ := by
  rw [draftMethods, h]

/-- Methods are drafted one after the other if each of them can be and no name comes twice. -/
theorem draftMethods_ok_iff (hdefined : defined.Nodup) {ms : List (TypeDef × MethodDef)}
    {fs : List FunctionDraft} :
    draftMethods x o defined ms = .ok fs ↔
      Drafted x o ms fs ∧
        (defined ++ fs.map FunctionDraft.name).Nodup := by
  induction ms generalizing defined fs with
  | nil =>
      cases fs <;> simp [draftMethods, hdefined]
  | cons tm ms ih =>
      rcases tm with ⟨t, m⟩
      cases hnext : draftNext x o defined t.name m with
      | error e =>
          rw [draftMethods_cons_error hnext]
          refine iff_of_false (by simp) ?_
          rintro ⟨hall, hnames⟩
          cases hall with
          | @cons _ f _ fs hf _ =>
              have hnew : f.name ∉ defined := by
                intro hmem
                exact (List.nodup_append.1 hnames).2.2 _ hmem _ (by simp) rfl
              cases hnext.symm.trans (draftNext_ok_iff.2 ⟨hf, hnew⟩)
      | ok f =>
          rw [draftMethods_cons_ok hnext]
          rcases draftNext_ok_iff.1 hnext with ⟨hf, hnew⟩
          have hdefined' : (defined ++ [f.name]).Nodup := by
            refine List.nodup_append.2 ⟨hdefined, by simp, ?_⟩
            intro name hname name' hname' heq
            cases List.mem_singleton.1 hname'
            exact hnew (heq ▸ hname)
          constructor
          · intro h
            cases hrest : draftMethods x o (defined ++ [f.name]) ms with
            | error e =>
                rw [hrest] at h
                cases h
            | ok fs' =>
                rw [hrest] at h
                cases h
                rcases (ih hdefined').1 hrest with ⟨hall, hnames⟩
                exact ⟨.cons hf hall, by simpa using hnames⟩
          · rintro ⟨hall, hnames⟩
            cases hall with
            | @cons _ f' _ fs hf' hall =>
                cases hf.symm.trans hf'
                have hrest := (ih hdefined').2 ⟨hall, by simpa using hnames⟩
                rw [hrest]
                rfl

/-- Drafting fails at some method, for a reason of its own or because its name is taken. -/
theorem draftMethods_error {ms : List (TypeDef × MethodDef)} {failure : Failure}
    (h : draftMethods x o defined ms = .error failure) :
    ∃ tm ∈ ms, ∃ e,
      failure = ⟨[.compilingMethod (tm.2.ref tm.1.name).fullName], .compile e⟩ ∧
        (draftMethod x o tm.1.name tm.2 = .error e ∨ ∃ name, e = .duplicateFunction name) := by
  induction ms generalizing defined with
  | nil =>
      cases h
  | cons tm ms ih =>
      rcases tm with ⟨t, m⟩
      cases hnext : draftNext x o defined t.name m with
      | error e =>
          rw [draftMethods_cons_error hnext] at h
          cases h
          refine ⟨(t, m), by simp, e, rfl, ?_⟩
          unfold draftNext at hnext
          cases hf : draftMethod x o t.name m with
          | error e' =>
              rw [hf] at hnext
              cases hnext
              exact .inl rfl
          | ok f =>
              rw [hf] at hnext
              by_cases hname : f.name ∈ defined
              · simp only [bind, Except.bind, if_pos hname] at hnext
                cases hnext
                exact .inr ⟨f.name, rfl⟩
              · simp only [bind, Except.bind, if_neg hname] at hnext
                cases hnext
      | ok f =>
          rw [draftMethods_cons_ok hnext] at h
          cases hrest : draftMethods x o (defined ++ [f.name]) ms with
          | error e =>
              rw [hrest] at h
              cases h
              rcases ih hrest with ⟨tm, htm, hcause⟩
              exact ⟨tm, by simp [htm], hcause⟩
          | ok fs =>
              rw [hrest] at h
              cases h

end Lists

/-! ## Modules -/

section Modules

variable {a : Assembly} {o : Options} {s : BuildState}

/-- Compiling methods ends as drafting them does, and adds the drafts. -/
theorem compileMethods_drafted (hs : (BuildState.start a o).tables.Grows s.tables)
    (ms : List (TypeDef × MethodDef)) :
    (∃ fs s', draftMethods (a.setting o) o (s.tables.definitions.map (·.function.name)) ms = .ok fs ∧
        compileMethods a o ms s = (.ok (), s') ∧ Adds s.tables fs s'.tables) ∨
      ∃ f s', draftMethods (a.setting o) o (s.tables.definitions.map (·.function.name)) ms =
        .error f ∧ compileMethods a o ms s = (.error f, s') := by
  induction ms generalizing s with
  | nil =>
      exact .inl ⟨[], s, rfl, rfl, .nil s.tables⟩
  | cons tm ms ih =>
      rcases tm with ⟨t, m⟩
      have hmethod := compileMethod_endsAs (t := t) (m := m) hs
      unfold Build.EndsAs at hmethod
      unfold draftMethods compileMethods
      -- both outcomes are made variables, so that the agreement of the two can be taken apart
      revert hmethod
      generalize draftNext (a.setting o) o (s.tables.definitions.map (·.function.name)) t.name m =
        next
      generalize Build.run (compileMethod a o t m) s = outcome
      intro hmethod
      cases hmethod with
      | error e s₁ =>
          exact .inr ⟨_, s₁, rfl, rfl⟩
      | @ok r f s₁ hadds =>
          have hrest := ih (hs.trans hadds.grown)
          rw [hadds.names, List.map_singleton] at hrest
          rcases hrest with ⟨fs, s', hdrafts, hrun, hadds'⟩ | ⟨failure, s', hdrafts, hrun⟩
          · refine .inl ⟨f :: fs, s', ?_, hrun, hadds.append hadds'⟩
            simp only [hdrafts]
            rfl
          · refine .inr ⟨failure, s', ?_, hrun⟩
            simp only [hdrafts]
            rfl

/-- The image is written from the drafts `fs`: its tables list what the drafts name, behind what the
imports need and in the order of first mention, and its functions are those that they describe. -/
structure Image.WrittenFrom (o : Options) (fs : List FunctionDraft) (image : Image) : Prop where
  imports : (o.bridge.declared (!o.interopMethods.isEmpty)).Forall₂
    (ImportDecl.Describes image.types) image.imports
  types : image.types =
    ((o.bridge.declared (!o.interopMethods.isEmpty)).map ImportDecl.signature ++
      fs.map FunctionDraft.signature).eraseDups
  functions : image.functions.map (·.function.name) =
    (fs.flatMap FunctionDraft.functions).eraseDups
  globals : image.globals =
    (fs.flatMap FunctionDraft.globals).eraseDups.map GlobalImport.lateBound
  entry {f : FunctionDraft} : f ∈ fs → ∃ d ∈ image.functions, f.Realised image.toNames d
  origin {d : Definition} : d ∈ image.functions → ∃ f ∈ fs, f.Realised image.toNames d

/-- Tables to which drafts were added from the start on, and that can be finished, are finished as
the image of the drafts. -/
theorem Adds.writtenFrom {t : Tables} {fs : List FunctionDraft} {image : Image}
    (h : Adds (BuildState.start a o).tables fs t) (hnames : (fs.map FunctionDraft.name).Nodup)
    (hfinish : t.finish = .ok image) : image.WrittenFrom o fs := by
  have hprovides := provides_start a o
  have hdeclared : Tables.Declared (o.bridge.declared (!o.interopMethods.isEmpty))
      (BuildState.start a o).tables := Tables.declared_ofBridge _ _
  rcases finish_ok hfinish with ⟨hentries, htypes, himports, hglobals⟩
  have hfunctions : image.functions.map (·.function.name) = t.functions.keys :=
    map_name_of_definition hentries
  have hmeaning : image.toNames = t.toNames := by
    simp only [Image.toNames, Tables.toNames, htypes, himports, hglobals, hfunctions,
      map_name_lateBound]
  have hkeys : t.functions.keys = (fs.flatMap FunctionDraft.functions).eraseDups := by
    rw [h.functions]
    exact Numbering.keys_requestAll_of_nil hprovides.functions _
  rcases h.definitions with ⟨ds, hds, hdefs⟩
  rw [hprovides.definitions, List.nil_append] at hdefs
  have hdistinct : (t.definitions.map (·.function.name)).Nodup := by
    rw [h.names, hprovides.definitions]
    exact hnames
  have hasked : ∀ d ∈ t.definitions, d.function.name ∈ t.functions.keys := by
    intro d hd
    rw [hdefs] at hd
    rcases exists_of_forall₂_right hds hd with ⟨f, hf, hrealised⟩
    rw [hkeys, List.mem_eraseDups, hrealised.name]
    exact List.mem_flatMap.2 ⟨f, hf, List.mem_cons_self⟩
  -- the image lists the definitions in the order of their numbers, the tables as they were completed
  have hmem : ∀ d, d ∈ image.functions ↔ d ∈ ds := by
    intro d
    rw [← hdefs]
    exact mem_iff_of_definition hentries hdistinct hasked
  refine ⟨?_, ?_, hfunctions.trans hkeys, ?_, ?_, ?_⟩
  · rw [himports, htypes, h.grown.imports]
    exact hdeclared.imports.imp fun d f hd =>
      ⟨hd.module, hd.name, getElem?_of_isPrefix h.grown.types hd.signature⟩
  · rw [htypes, h.types]
    exact Numbering.keys_requestAll hdeclared.types _
  · rw [hglobals, h.globals, Numbering.keys_requestAll_of_nil hdeclared.globals]
  · intro f hf
    rcases exists_of_forall₂_left hds hf with ⟨d, hd, hrealised⟩
    exact ⟨d, (hmem d).2 hd, hmeaning ▸ hrealised⟩
  · intro d hd
    rcases exists_of_forall₂_right hds ((hmem d).1 hd) with ⟨f, hf, hrealised⟩
    exact ⟨f, hf, hmeaning ▸ hrealised⟩

theorem methodNames_of_drafted {fs : List FunctionDraft}
    (h : Drafted (a.setting o) o a.methods fs) :
    fs.map FunctionDraft.name = a.methodNames :=
  (map_eq_of_forall₂ (fun tm _ hf => ((draftMethod_proper tm.1.name tm.2).holds hf).1.symm) h).symm

/-- When all methods were added, every function that was asked for is complete. -/
theorem Adds.finish_ok {t : Tables} {fs : List FunctionDraft}
    (h : Adds (BuildState.start a o).tables fs t)
    (hall : Drafted (a.setting o) o a.methods fs) :
    ∃ image, t.finish = .ok image := by
  refine Tables.finish_ok_iff.2 fun name hname => ?_
  rw [h.names, (provides_start a o).definitions, methodNames_of_drafted hall]
  rw [h.functions, Numbering.keys_requestAll_of_nil (provides_start a o).functions,
    List.mem_eraseDups] at hname
  rcases List.mem_flatMap.1 hname with ⟨f, hf, hname⟩
  rcases exists_of_forall₂_right hall hf with ⟨⟨t, m⟩, htm, hdraft⟩
  exact mem_methodNames_of_drafted hdraft (List.mem_map.2 ⟨(t, m), htm, rfl⟩) name hname

/-- Building a module ends as drafting its methods does, with the image of the drafts. -/
theorem build_drafted (a : Assembly) (o : Options) :
    (∃ fs image, draftMethods (a.setting o) o [] a.methods = .ok fs ∧ build a o = .ok image ∧
        image.WrittenFrom o fs) ∨
      ∃ f, draftMethods (a.setting o) o [] a.methods = .error f ∧ build a o = .error f := by
  have hstart : (BuildState.start a o).tables.definitions.map (·.function.name) = [] := by
    rw [(provides_start a o).definitions]
    rfl
  have hcompiled := compileMethods_drafted (Tables.Extends.refl (BuildState.start a o).tables).toGrows
    a.methods
  rw [hstart] at hcompiled
  unfold build buildWithLog
  rcases hcompiled with ⟨fs, s, hdrafts, hrun, hadds⟩ | ⟨f, s, hdrafts, hrun⟩
  · rcases (draftMethods_ok_iff List.nodup_nil).1 hdrafts with ⟨hall, hnames⟩
    rcases hadds.finish_ok hall with ⟨image, himage⟩
    refine .inl ⟨fs, image, hdrafts, ?_, hadds.writtenFrom hnames himage⟩
    simp only [hrun, himage]
  · refine .inr ⟨f, hdrafts, ?_⟩
    rw [hrun]

/-- A module that was built is written from the drafts of its methods. -/
theorem build_ok_drafted {image : Image} (h : build a o = .ok image) :
    ∃ fs, Drafted (a.setting o) o a.methods fs ∧
      a.methodNames.Nodup ∧ image.WrittenFrom o fs := by
  rcases build_drafted a o with ⟨fs, image', hdrafts, hok, hwritten⟩ | ⟨failure, -, herror⟩
  · rw [hok] at h
    cases h
    rcases (draftMethods_ok_iff List.nodup_nil).1 hdrafts with ⟨hall, hnames⟩
    exact ⟨fs, hall, methodNames_of_drafted hall ▸ hnames, hwritten⟩
  · rw [herror] at h
    cases h

/-- A build fails at some method, because the method cannot be drafted or its name is taken. -/
theorem build_error {failure : Failure} (h : build a o = .error failure) :
    ∃ tm ∈ a.methods, ∃ e,
      failure = ⟨[.compilingMethod (tm.2.ref tm.1.name).fullName], .compile e⟩ ∧
        (draftMethod (a.setting o) o tm.1.name tm.2 = .error e ∨
          ∃ name, e = .duplicateFunction name) := by
  rcases build_drafted a o with ⟨fs, image, -, hok, -⟩ | ⟨failure', hdrafts, herror⟩
  · rw [hok] at h
    cases h
  · rw [herror] at h
    cases h
    exact draftMethods_error hdrafts

/-- A module can be built if every method can be drafted and no name comes twice. -/
theorem build_ok_iff_drafted :
    (∃ image, build a o = .ok image) ↔
      (∀ tm ∈ a.methods, ∃ f, draftMethod (a.setting o) o tm.1.name tm.2 = .ok f) ∧
        a.methodNames.Nodup := by
  constructor
  · rintro ⟨image, h⟩
    rcases build_ok_drafted h with ⟨fs, hall, hnames, -⟩
    refine ⟨?_, hnames⟩
    intro tm htm
    rcases exists_of_forall₂_left hall htm with ⟨f, -, hf⟩
    exact ⟨f, hf⟩
  · rintro ⟨hmethods, hnames⟩
    rcases mapM_ok_iff.2 hmethods with ⟨fs, hfs⟩
    have hall := forall₂_of_mapM_ok hfs
    have hdrafts : draftMethods (a.setting o) o [] a.methods = .ok fs :=
      (draftMethods_ok_iff List.nodup_nil).2 ⟨hall, (methodNames_of_drafted hall).symm ▸ hnames⟩
    rcases build_drafted a o with ⟨_, image, -, hok, -⟩ | ⟨failure, herror, -⟩
    · exact ⟨image, hok⟩
    · rw [hdrafts] at herror
      cases herror

end Modules

end CilCompiler
