import Mathlib.Data.List.Forall2
import Mathlib.Data.List.Nodup
import CilCompiler.Build
import CilCompiler.Proofs.Imports
import CilCompiler.Proofs.Linked

/-!
# Compiled modules

What is known of a module that was built, method by method and all at once under the tables that
the build ends with.

* `Compiles` says of a definition which method it comes from, with its name, its signature and its
  body; `compileMethod_ok` says that compiling a method appends such a definition.
* `Built` collects what a successful build leaves behind; `build_ok` is the inversion of `build`.
-/

namespace CilCompiler

open Wasm (Op Signature ValueKind)

section Inversion

variable {a : Assembly} {o : Options} {t : TypeDef} {m : MethodDef} {s s' : BuildState}
  {tables tables' : Tables} {image : Image}

/-! ## Methods -/

/-- The operators and the locals of a method: those of a thunk, of a missing body or of a body. -/
inductive BodyCompiled (a : Assembly) (o : Options) (tables : Tables) (m : MethodDef)
    (name : String) (signature : Signature) : List Op → List ValueKind → Prop
  | thunk {handle invoker : Nat} :
      o.isInterop name = true → signature.params.length ≤ Tables.maxInteropArgs →
      tables.invoker = some invoker →
      tables.globals.find? (Handle.methodHandle (Handle.qualified a.name name)) = some handle →
      BodyCompiled a o tables m name signature (thunkOps signature handle invoker) []
  | absent :
      o.isInterop name = false → m.body = none →
      BodyCompiled a o tables m name signature (epilogue signature.result.isSome) []
  | lowered {body : MethodBody} {slots : SlotTable} {ops : List Op} :
      o.isInterop name = false → m.body = some body →
      (SlotTable.ofParams signature.params).Grows slots →
      BodyLowered ⟨a, o.headerSize, slots, tables⟩ signature.result.isSome body ops →
      BodyCompiled a o tables m name signature ops slots.locals

theorem BodyCompiled.grows {name : String} {signature : Signature} {ops : List Op}
    {locals : List ValueKind} (hg : tables.Grows tables')
    (h : BodyCompiled a o tables m name signature ops locals) :
    BodyCompiled a o tables' m name signature ops locals := by
  cases h with
  | thunk hi hp hinvoker hhandle =>
      exact .thunk hi hp (hg.invoker.trans hinvoker)
        (Numbering.find?_of_isPrefix hg.globals hhandle)
  | absent hi hb =>
      exact .absent hi hb
  | @lowered body slots ops hi hb hslots hbody =>
      have hl : Linkage.Grows ⟨a, o.headerSize, slots, tables⟩ ⟨a, o.headerSize, slots, tables'⟩ :=
        ⟨rfl, rfl, .refl slots, hg⟩
      exact .lowered hi hb hslots (hbody.grows hl)

/-- The body of a method that has one and does not forward to the host was lowered. -/
theorem BodyCompiled.bodyLowered {name : String} {signature : Signature} {ops : List Op}
    {locals : List ValueKind} (h : BodyCompiled a o tables m name signature ops locals)
    (hown : o.isInterop name = false) {body : MethodBody} (hbody : m.body = some body) :
    ∃ slots, (SlotTable.ofParams signature.params).Grows slots ∧ locals = slots.locals ∧
      BodyLowered ⟨a, o.headerSize, slots, tables⟩ signature.result.isSome body ops := by
  cases h with
  | thunk hinterop _ _ _ =>
      rw [hinterop] at hown
      cases hown
  | absent _ hnone =>
      rw [hnone] at hbody
      cases hbody
  | @lowered body' slots ops _ hbody' hslots hlowered =>
      rw [hbody'] at hbody
      cases hbody
      exact ⟨slots, hslots, rfl, hlowered⟩

/-- The definition `d` is what the method `m` of `t` was compiled to: it has its name and its
signature, and the body and the locals that compiling it came to, at some point of the build. -/
structure CompiledFrom (a : Assembly) (o : Options) (t : TypeDef) (m : MethodDef)
    (d : Definition) : Prop where
  name : d.function.name = (m.ref t.name).fullName
  signature : methodSignature m = .ok d.function.signature
  exportName : d.function.exportName = o.exportName m.isPublic d.function.name
  code : ∃ s s' slots,
    Build.run (compileBody a o d.function.name d.function.signature m) s =
      (.ok (d.function.body, slots), s') ∧ d.function.locals = slots.locals

/-- The definition `d` is what the method `m` of `t` was compiled to, and all that it names is in
the tables. -/
structure Compiles (a : Assembly) (o : Options) (tables : Tables) (t : TypeDef) (m : MethodDef)
    (d : Definition) : Prop extends CompiledFrom a o t m d where
  type : tables.types.find? d.function.signature = some d.type
  reserved : tables.functions.find? d.function.name ≠ none
  body : BodyCompiled a o tables m d.function.name d.function.signature d.function.body
    d.function.locals

theorem Compiles.grows {d : Definition} (hg : tables.Grows tables')
    (h : Compiles a o tables t m d) : Compiles a o tables' t m d where
  toCompiledFrom := h.toCompiledFrom
  type := Numbering.find?_of_isPrefix hg.types h.type
  reserved := by
    rcases Option.ne_none_iff_exists'.1 h.reserved with ⟨i, hi⟩
    simp [Numbering.find?_of_isPrefix hg.functions hi]
  body := h.body.grows hg

theorem thunk_ok {name identifier : String} {signature : Signature} {ops : List Op}
    (h : Build.run (thunk name identifier signature) s = (.ok ops, s')) :
    s.tables.Extends s'.tables ∧ signature.params.length ≤ Tables.maxInteropArgs ∧
      ∃ handle invoker, s'.tables.invoker = some invoker ∧
        s'.tables.globals.find? (Handle.methodHandle identifier) = some handle ∧
        ops = thunkOps signature handle invoker := by
  unfold thunk at h
  by_cases hp : signature.params.length > Tables.maxInteropArgs
  · rw [if_pos hp, Build.run_throw] at h
    cases h
  · rw [if_neg hp] at h
    rcases Build.run_bind_ok.1 h with ⟨s₁, s₂, hget, h₁⟩
    rw [Build.run_get] at hget
    cases hget
    cases hinvoker : s.tables.invoker with
    | none =>
        rw [hinvoker, Build.run_throw] at h₁
        cases h₁
    | some invoker =>
        rw [hinvoker] at h₁
        rcases Build.run_bind_ok.1 h₁ with ⟨handle, s₃, hglobal, hpure⟩
        rw [Build.run_pure] at hpure
        cases hpure
        rcases Build.global_ok hglobal with ⟨rfl, ht⟩
        have hg : s.tables.Extends s'.tables := ht ▸ s.tables.extends_global _
        refine ⟨hg, Nat.le_of_not_gt hp, _, invoker, hg.invoker.trans hinvoker, ?_, rfl⟩
        rw [ht]
        exact Numbering.find?_request s.tables.globals _

theorem compileBody_ok {name : String} {signature : Signature} {ops : List Op} {slots : SlotTable}
    (h : Build.run (compileBody a o name signature m) s = (.ok (ops, slots), s')) :
    s.tables.Extends s'.tables ∧ BodyCompiled a o s'.tables m name signature ops slots.locals := by
  unfold compileBody at h
  cases hi : o.isInterop name with
  | true =>
      simp only [hi, if_true] at h
      rcases Build.run_bind_ok.1 h with ⟨_, s₁, hreport, h₁⟩
      rw [Build.run_report] at hreport
      cases hreport
      rcases Build.run_bind_ok.1 h₁ with ⟨ops', s₂, hthunk, hpure⟩
      rw [Build.run_pure] at hpure
      cases hpure
      rcases thunk_ok hthunk with ⟨hg, hp, handle, invoker, hinvoker, hhandle, rfl⟩
      exact ⟨hg, .thunk hi hp hinvoker hhandle⟩
  | false =>
      simp only [hi] at h
      rcases Build.run_bind_ok.1 h with ⟨_, s₁, hreport, h₁⟩
      rw [Build.run_report] at hreport
      cases hreport
      cases hb : m.body with
      | none =>
          rw [hb, Build.run_pure] at h₁
          cases h₁
          exact ⟨.refl _, .absent hi hb⟩
      | some body =>
          rw [hb] at h₁
          have hl := lowerBody_ok h₁
          exact ⟨hl.tables, .lowered hi hb hl.slots hl.related⟩

/-- Compiling a method completes one function, of a name that none had before. -/
theorem compileMethod_ok (h : Build.run (compileMethod a o t m) s = (.ok (), s')) :
    s.tables.Grows s'.tables ∧ ∃ d, Compiles a o s'.tables t m d ∧
      d.function.name ∉ s.tables.definitions.map (·.function.name) ∧
      s'.tables.definitions = s.tables.definitions ++ [d] := by
  unfold compileMethod at h
  rcases Build.run_bind_ok.1 h with ⟨_, s₁, hreserve, h₁⟩
  rcases Build.run_bind_ok.1 h₁ with ⟨signature, s₂, hsignature, h₂⟩
  rcases Build.run_ofExcept_ok.1 hsignature with ⟨hsig, rfl⟩
  rcases Build.run_bind_ok.1 h₂ with ⟨⟨ops, slots⟩, s₃, hbody, h₃⟩
  rcases Build.run_bind_ok.1 h₃ with ⟨_, s₄, hreport, h₄⟩
  rw [Build.run_report] at hreport
  cases hreport
  rcases Build.run_bind_ok.1 h₄ with ⟨index, s₅, hdefine, h₅⟩
  rw [Build.run_report] at h₅
  cases h₅
  have hstart : s.tables.Extends s₂.tables :=
    (Build.reserve_ok hreserve).2 ▸ s.tables.extends_reserve _
  rcases compileBody_ok hbody with ⟨hg, hcompiled⟩
  rcases Tables.define_ok (Build.define_ok hdefine) with ⟨hg', hnew, hfound, type, htype, hdefs⟩
  -- reserving indices and lowering the body complete no function
  have hsame : s₃.tables.definitions = s.tables.definitions :=
    hg.definitions.trans hstart.definitions
  refine ⟨(hstart.toGrows.trans hg.toGrows).trans hg', _, ?_, hsame ▸ hnew, hsame ▸ hdefs⟩
  exact
    { name := rfl
      signature := hsig
      exportName := rfl
      type := htype
      reserved := hfound
      code := ⟨s₂, s₃, slots, hbody, rfl⟩
      body := hcompiled.grows hg' }

/-! ## Modules -/

/-- Compiling methods completes one function for each of them, in their order. -/
theorem compileMethods_ok {ms : List (TypeDef × MethodDef)}
    (h : compileMethods a o ms s = (.ok (), s')) :
    s.tables.Grows s'.tables ∧ ∃ ds,
      ms.Forall₂ (fun tm d => Compiles a o s'.tables tm.1 tm.2 d) ds ∧
      s'.tables.definitions = s.tables.definitions ++ ds ∧
      ((s.tables.definitions.map (·.function.name)).Nodup →
        (s'.tables.definitions.map (·.function.name)).Nodup) := by
  induction ms generalizing s with
  | nil =>
      cases h
      exact ⟨(Tables.Extends.refl _).toGrows, [], .nil, by simp, id⟩
  | cons tm ms ih =>
      rcases tm with ⟨t, m⟩
      unfold compileMethods at h
      rcases hrun : Build.run (compileMethod a o t m) s with ⟨outcome, s₁⟩
      cases outcome with
      | error e =>
          rw [hrun] at h
          cases h
      | ok _ =>
          rw [hrun] at h
          rcases compileMethod_ok hrun with ⟨hg, d, hd, hnew, hdefs⟩
          rcases ih h with ⟨hg', ds, hds, hdefs', hnames⟩
          -- what the first method names is still there in the tables at the end
          refine ⟨hg.trans hg', d :: ds, .cons (hd.grows hg') hds, ?_, ?_⟩
          · rw [hdefs', hdefs, List.append_assoc]
            rfl
          · intro hn
            refine hnames ?_
            rw [hdefs, List.map_append]
            refine List.nodup_append.2 ⟨hn, by simp, ?_⟩
            intro x hx y hy hxy
            have hy' : y = d.function.name := by simpa using hy
            exact hnew (hy' ▸ hxy ▸ hx)

theorem definition_ok {name : String} {d : Definition} (h : tables.definition name = .ok d) :
    d ∈ tables.definitions ∧ d.function.name = name := by
  unfold Tables.definition at h
  cases hd : tables.definitions.find? (·.function.name == name) with
  | none =>
      rw [hd] at h
      cases h
  | some found =>
      rw [hd] at h
      cases h
      exact ⟨List.mem_of_find?_eq_some hd, by simpa using List.find?_some hd⟩

theorem forall₂_of_mapM_ok {α β ε : Type} {f : α → Except ε β} {xs : List α} {ys : List β}
    (h : xs.mapM f = .ok ys) : List.Forall₂ (fun x y => f x = .ok y) xs ys := by
  induction xs generalizing ys with
  | nil =>
      cases h
      exact .nil
  | cons x xs ih =>
      rw [List.mapM_cons] at h
      cases hx : f x with
      | error e =>
          rw [hx] at h
          cases h
      | ok y =>
          rw [hx] at h
          cases hxs : xs.mapM f with
          | error e =>
              simp [hxs, bind, Except.bind] at h
          | ok ys' =>
              have hys : y :: ys' = ys := by
                simpa [hxs, bind, Except.bind, pure, Except.pure] using h
              exact hys ▸ .cons hx (ih hxs)

theorem mapM_ok_of_forall₂ {α β ε : Type} {f : α → Except ε β} {xs : List α} {ys : List β}
    (h : List.Forall₂ (fun x y => f x = .ok y) xs ys) : xs.mapM f = .ok ys := by
  induction h with
  | nil =>
      rfl
  | cons hx _ ih =>
      rw [List.mapM_cons, hx, ih]
      rfl

theorem mapM_ok_iff {α β ε : Type} {f : α → Except ε β} {xs : List α} :
    (∃ ys, xs.mapM f = .ok ys) ↔ ∀ x ∈ xs, ∃ y, f x = .ok y := by
  induction xs with
  | nil =>
      simp [pure, Except.pure]
  | cons x xs ih =>
      rw [List.forall_mem_cons, ← ih, List.mapM_cons]
      cases f x with
      | error e =>
          simp [bind, Except.bind]
      | ok y =>
          cases xs.mapM f <;> simp [bind, Except.bind, pure, Except.pure]

theorem exists_of_mapM_error {α β ε : Type} {f : α → Except ε β} {xs : List α} {e : ε}
    (h : xs.mapM f = .error e) : ∃ x ∈ xs, f x = .error e := by
  induction xs with
  | nil =>
      cases h
  | cons x xs ih =>
      rw [List.mapM_cons] at h
      cases hx : f x with
      | error e' =>
          rw [hx] at h
          cases h
          exact ⟨x, by simp, hx⟩
      | ok y =>
          rw [hx] at h
          cases hxs : xs.mapM f with
          | error e' =>
              rw [hxs] at h
              cases h
              rcases ih hxs with ⟨x', hx', hfails⟩
              exact ⟨x', by simp [hx'], hfails⟩
          | ok ys =>
              rw [hxs] at h
              cases h

theorem Tables.definition_ok_iff {name : String} {d : Definition} :
    tables.definition name = .ok d ↔
      tables.definitions.find? (·.function.name == name) = some d := by
  unfold Tables.definition
  cases tables.definitions.find? (·.function.name == name) <;> simp

/-- A module is complete if every function that was asked for is. -/
theorem Tables.finish_ok_iff : (∃ image, tables.finish = .ok image) ↔
    ∀ name ∈ tables.functions.keys, name ∈ tables.definitions.map (·.function.name) := by
  have hcomplete : ∀ name, name ∈ tables.definitions.map (·.function.name) ↔
      ∃ d, tables.definition name = .ok d := by
    intro name
    simp only [Tables.definition_ok_iff, ← Option.isSome_iff_exists, List.find?_isSome,
      List.mem_map, beq_iff_eq]
  simp only [hcomplete, ← mapM_ok_iff]
  unfold Tables.finish
  cases tables.functions.keys.mapM tables.definition <;>
    simp [bind, Except.bind, pure, Except.pure]

theorem exists_of_forall₂_left {α β : Type} {R : α → β → Prop} {xs : List α} {ys : List β}
    (h : List.Forall₂ R xs ys) {x : α} (hx : x ∈ xs) : ∃ y ∈ ys, R x y := by
  induction h with
  | nil =>
      cases hx
  | @cons x' y xs ys hr _ ih =>
      rcases List.mem_cons.1 hx with rfl | hx
      · exact ⟨y, by simp, hr⟩
      · rcases ih hx with ⟨y', hy', hr'⟩
        exact ⟨y', by simp [hy'], hr'⟩

theorem exists_of_forall₂_right {α β : Type} {R : α → β → Prop} {xs : List α} {ys : List β}
    (h : List.Forall₂ R xs ys) {y : β} (hy : y ∈ ys) : ∃ x ∈ xs, R x y := by
  have hflip : List.Forall₂ (flip R) ys xs := List.Forall₂.flip h
  exact exists_of_forall₂_left hflip hy

theorem map_eq_of_forall₂ {α β γ : Type} {R : α → β → Prop} {f : α → γ} {g : β → γ} {xs : List α}
    {ys : List β} (hR : ∀ x y, R x y → f x = g y) (h : List.Forall₂ R xs ys) :
    xs.map f = ys.map g := by
  induction h with
  | nil =>
      rfl
  | cons hr _ ih =>
      rw [List.map_cons, List.map_cons, hR _ _ hr, ih]

/-- What a successful build leaves behind. -/
structure Built (a : Assembly) (o : Options) (image : Image) (tables : Tables) : Prop where
  grown : (BuildState.start a o).tables.Grows tables
  /-- One definition for each method, in the order of declaration. -/
  compiled : a.methods.Forall₂ (fun tm d => Compiles a o tables tm.1 tm.2 d) tables.definitions
  names : (tables.definitions.map (·.function.name)).Nodup
  /-- One function for each name that was asked for, in the order of the first request. -/
  functions : tables.functions.keys.Forall₂ (fun name d => tables.definition name = .ok d)
    image.functions
  types : image.types = tables.types.keys
  imports : image.imports = tables.imports
  globals : image.globals = tables.globals.keys.map GlobalImport.lateBound

theorem finish_ok (h : tables.finish = .ok image) :
    tables.functions.keys.Forall₂ (fun name d => tables.definition name = .ok d) image.functions ∧
      image.types = tables.types.keys ∧ image.imports = tables.imports ∧
      image.globals = tables.globals.keys.map GlobalImport.lateBound := by
  unfold Tables.finish at h
  cases hf : tables.functions.keys.mapM tables.definition with
  | error e =>
      rw [hf] at h
      cases h
  | ok functions =>
      rw [hf] at h
      cases h
      exact ⟨forall₂_of_mapM_ok hf, rfl, rfl, rfl⟩

/-- The functions of a finished module have the names that were asked for, in their order. -/
theorem map_name_of_definition {names : List String} {ds : List Definition}
    (h : names.Forall₂ (fun name d => tables.definition name = .ok d) ds) :
    ds.map (·.function.name) = names := by
  have hsame : names.map id = ds.map (·.function.name) :=
    map_eq_of_forall₂ (fun name d hd => (definition_ok hd).2.symm) h
  rw [← hsame, List.map_id]

/-- If no name was completed twice and all of them were asked for, then the functions of a finished
module are the ones that were completed. -/
theorem mem_iff_of_definition {ds : List Definition}
    (h : tables.functions.keys.Forall₂ (fun name d => tables.definition name = .ok d) ds)
    (hnames : (tables.definitions.map (·.function.name)).Nodup)
    (hasked : ∀ d ∈ tables.definitions, d.function.name ∈ tables.functions.keys) {d : Definition} :
    d ∈ ds ↔ d ∈ tables.definitions := by
  constructor
  · intro hd
    rcases exists_of_forall₂_right h hd with ⟨name, _, hfound⟩
    exact (definition_ok hfound).1
  · intro hd
    rcases exists_of_forall₂_left h (hasked d hd) with ⟨d', hd', hfound⟩
    rcases definition_ok hfound with ⟨hmem, hname⟩
    exact List.inj_on_of_nodup_map hnames hd hmem hname.symm ▸ hd'

/-- The number of imports in front of the methods of the host. -/
def Options.fixedImports (o : Options) : Nat := Tables.fixedCount (!o.interopMethods.isEmpty)

theorem provides_start (a : Assembly) (o : Options) :
    Tables.Provides o.fixedImports o.bridge.imports (BuildState.start a o).tables :=
  Tables.provides_ofBridge _ _

theorem build_ok (h : build a o = .ok image) : ∃ tables, Built a o image tables := by
  unfold build buildWithLog at h
  rcases hrun : compileMethods a o a.methods (BuildState.start a o) with ⟨outcome, s⟩
  rw [hrun] at h
  cases outcome with
  | error f =>
      cases h
  | ok _ =>
      cases hf : s.tables.finish with
      | error e =>
          simp [hf] at h
      | ok image' =>
          have himage : image' = image := by simpa [hf] using h
          subst himage
          rcases compileMethods_ok hrun with ⟨hg, ds, hds, hdefs, hnames⟩
          rcases finish_ok hf with ⟨hfunctions, htypes, himports, hglobals⟩
          have hstart := (provides_start a o).definitions
          rw [hstart, List.nil_append] at hdefs
          refine ⟨s.tables, hg, hdefs ▸ hds, ?_, hfunctions, htypes, himports, hglobals⟩
          exact hnames (by simp [hstart])

/-! ## Functions and methods -/

namespace Built

/-- The functions of a module have the names that were asked for, in their order. -/
theorem names_eq (h : Built a o image tables) :
    image.functions.map (·.function.name) = tables.functions.keys :=
  map_name_of_definition h.functions

theorem distinct (h : Built a o image tables) : tables.functions.keys.Nodup := by
  apply h.grown.distinct
  rw [(provides_start a o).functions]
  exact List.nodup_nil

/-- Completed functions of one name are one function. -/
theorem eq_of_name (h : Built a o image tables) {d d' : Definition} (hd : d ∈ tables.definitions)
    (hd' : d' ∈ tables.definitions) (hname : d.function.name = d'.function.name) : d = d' :=
  List.inj_on_of_nodup_map h.names hd hd' hname

/-- Functions of one name stand in one place. -/
theorem index_eq_of_name (h : Built a o image tables) {k k' : Nat} {d d' : Definition}
    (hd : image.functions[k]? = some d) (hd' : image.functions[k']? = some d')
    (hname : d.function.name = d'.function.name) : k = k' := by
  have hdistinct := h.distinct
  rw [← h.names_eq] at hdistinct
  rcases List.getElem?_eq_some_iff.1 hd with ⟨hlt, _⟩
  refine (List.getElem?_inj (by simpa using hlt) hdistinct).1 ?_
  simp [hd, hd', hname]

/-- The functions of a module are the ones that were completed. -/
theorem mem_functions_iff (h : Built a o image tables) {d : Definition} :
    d ∈ image.functions ↔ d ∈ tables.definitions := by
  refine mem_iff_of_definition h.functions h.names fun d hd => ?_
  rcases exists_of_forall₂_right h.compiled hd with ⟨tm, _, hcompiles⟩
  by_contra hnot
  exact hcompiles.reserved (Numbering.find?_eq_none_iff.2 hnot)

/-- Every method has a function. -/
theorem exists_function (h : Built a o image tables) {tm : TypeDef × MethodDef}
    (htm : tm ∈ a.methods) : ∃ d ∈ image.functions, Compiles a o tables tm.1 tm.2 d := by
  rcases exists_of_forall₂_left h.compiled htm with ⟨d, hd, hcompiles⟩
  exact ⟨d, h.mem_functions_iff.2 hd, hcompiles⟩

/-- Every function has a method. -/
theorem exists_method (h : Built a o image tables) {d : Definition} (hd : d ∈ image.functions) :
    ∃ tm ∈ a.methods, Compiles a o tables tm.1 tm.2 d :=
  exists_of_forall₂_right h.compiled (h.mem_functions_iff.1 hd)

/-! ## Index spaces -/

theorem importTyped (h : Built a o image tables) {f : FunctionImport} (hf : f ∈ image.imports) :
    ∃ signature, image.types[f.type]? = some signature := by
  have htyped : Tables.Typed (fun _ => True) (BuildState.start a o).tables :=
    Tables.typed_ofBridge _ (fun _ _ => trivial) fun _ _ => trivial
  rw [h.imports, h.grown.imports] at hf
  rcases htyped f hf with ⟨signature, hget, _⟩
  exact ⟨signature, h.types ▸ getElem?_of_isPrefix h.grown.types hget⟩

theorem functionTyped (h : Built a o image tables) {d : Definition} (hd : d ∈ image.functions) :
    image.types[d.type]? = some d.function.signature := by
  rcases h.exists_method hd with ⟨tm, _, hcompiles⟩
  rw [h.types]
  exact Numbering.getElem?_of_find? hcompiles.type

/-- What a call means: the function of its name, or the first method of that identifier among
those that the host provides, which has one slot. -/
theorem callee_cases (h : Built a o image tables) {r : MethodRef} {i : Nat}
    (hi : tables.callee a r = some i) :
    (∃ found k d, a.findMethod r = some found ∧ i = image.imports.length + k ∧
        image.functions[k]? = some d ∧ d.function.name = r.fullName) ∨
      (a.findMethod r = none ∧ o.fixedImports ≤ i ∧ ∃ decl type,
        o.bridge.imports.find? (·.name == Handle.methodIdentifier a.name r) = some decl ∧
        image.imports[i]? = some ⟨decl.module, Handle.methodIdentifier a.name r, type⟩ ∧
        image.types[type]? = some decl.signature ∧
        ∀ n f, o.fixedImports ≤ n → image.imports[n]? = some f →
          f.name = Handle.methodIdentifier a.name r → n = i) := by
  unfold Tables.callee at hi
  cases hr : a.findMethod r with
  | some found =>
      rw [hr] at hi
      rcases Option.map_eq_some_iff.1 hi with ⟨k, hk, rfl⟩
      have hkey := Numbering.getElem?_of_find? hk
      rw [← h.names_eq, List.getElem?_map] at hkey
      rcases Option.map_eq_some_iff.1 hkey with ⟨d, hd, hname⟩
      exact Or.inl ⟨found, k, d, rfl, by rw [h.imports], hd, hname⟩
  | none =>
      -- imports are all declared at the start, and the build only reads them
      simp only [hr, h.grown.hostMethods] at hi
      rcases (provides_start a o).found hi with ⟨hle, decl, type, hfirst, himport, htype⟩
      refine Or.inr ⟨rfl, hle, decl, type, hfirst, ?_, ?_, ?_⟩
      · rw [h.imports, h.grown.imports]
        exact himport
      · rw [h.types]
        exact getElem?_of_isPrefix h.grown.types htype
      · intro n f hn hf hname
        rw [h.imports, h.grown.imports] at hf
        have hlisted := (provides_start a o).listed hn hf
        rw [hname, hi] at hlisted
        exact (Option.some.inj hlisted).symm

theorem allocator_typed (h : Built a o image tables) :
    ∃ f, image.imports[Tables.allocator]? = some f ∧
      image.types[f.type]? = some ⟨[.i32], some .i32⟩ := by
  rcases (provides_start a o).allocator with ⟨f, hf, hsignature⟩
  refine ⟨f, ?_, ?_⟩
  · rw [h.imports, h.grown.imports]
    exact hf
  · rw [h.types]
    exact getElem?_of_isPrefix h.grown.types hsignature

theorem invoker_lt (h : Built a o image tables) {n : Nat} (hn : tables.invoker = some n) :
    n < image.imports.length := by
  have hstart := provides_start a o
  rw [h.grown.invoker] at hn
  rw [h.imports, h.grown.imports]
  exact Nat.lt_of_lt_of_le (hstart.invoker hn) hstart.bound

end Built

end Inversion

/-! ## A module

An assembly with every kind of callee: a method that is declared later and only forwards to the
host, a constructor, the constructor of the root, and a method that the host provides. -/

namespace Counting

def counter : TypeName := ⟨none, "Lib", "Counter"⟩

def lower : MethodDef :=
  { name := "Lower", result := .int32, params := [⟨none, .int32⟩], isStatic := true }

def rootConstructor : MethodRef :=
  ⟨⟨some "System.Runtime", "System", "Object"⟩, ".ctor", true, .void, []⟩

def constructor : MethodDef :=
  { name := ".ctor", result := .void, params := []
    body := some
      { instructions :=
          [⟨0, .ldarg0, .empty⟩, ⟨1, .call, .method rootConstructor⟩, ⟨6, .ret, .empty⟩] } }

def writeLine : MethodRef :=
  ⟨⟨some "System.Console", "System", "Console"⟩, "WriteLine", false, .void, [.int32]⟩

/-- Writes the numbers below the argument, and returns a new object. -/
def countBody : MethodBody where
  instructions :=
    [⟨0, .ldarg0, .empty⟩, ⟨1, .brfalse, .target 24⟩, ⟨6, .ldarg0, .empty⟩,
     ⟨7, .call, .method (lower.ref counter)⟩, ⟨12, .starg, .arg 0⟩, ⟨16, .ldarg0, .empty⟩,
     ⟨17, .call, .method writeLine⟩, ⟨22, .brS, .target 0⟩,
     ⟨24, .newobj, .method (constructor.ref counter)⟩, ⟨29, .ret, .empty⟩]

def count : MethodDef :=
  { name := "Count", result := .int32, params := [⟨none, .int32⟩], isPublic := true
    isStatic := true
    body := some countBody }

def type : TypeDef := { name := counter, methods := [count, constructor, lower] }

def assembly : Assembly := ⟨"Lib", [type]⟩

def options : Options := { interopMethods := [(lower.ref counter).fullName] }

def countFunction : Function where
  name := "System.Int32 Lib.Counter::Count(System.Int32)"
  signature := ⟨[.i32], some .i32⟩
  locals := [.i32, .i32]
  body :=
    [.loop, .block, .block,
     .block, .localGet 1, .brTable [0, 1] 2, .close,
     .close, .localGet 0, .eqz, .brIf 0,
     .localGet 0, .call 5, .localSet 0, .localGet 0, .call 3, .const 1, .localSet 1, .br 1,
     .close, .globalGet 0, .call 0, .localSet 2, .localGet 2, .call 6, .localGet 2, .ret,
     .close, .unreachable, .close]
  exportName := some "System.Int32 Lib.Counter::Count(System.Int32)"

def lowerFunction : Function where
  name := "System.Int32 Lib.Counter::Lower(System.Int32)"
  signature := ⟨[.i32], some .i32⟩
  locals := []
  body :=
    [.globalGet 1, .const 1, .localGet 0, .const 0, .const 0, .const 0, .call 2, .close]
  exportName := none

def constructorFunction : Function where
  name := "System.Void Lib.Counter::.ctor()"
  signature := ⟨[.i32], none⟩
  locals := []
  body := [.loop, .localGet 0, .drop, .ret, .close, .close]
  exportName := none

/-- The functions stand in the order in which they are asked for. -/
def image : Image where
  types := [⟨[.i32], some .i32⟩, ⟨[.i32], none⟩, Tables.invokerSignature]
  memory := ⟨"sys", "memory", 1⟩
  imports :=
    [⟨"sys", "object_new", 0⟩, ⟨"sys", "log", 1⟩, ⟨"interop", "invoke", 2⟩,
     ⟨"static", "System.Console|System.Void System.Console::WriteLine(System.Int32)", 1⟩]
  globals :=
    [⟨"global", "type:Lib|Lib.Counter"⟩,
     ⟨"global", "method:Lib|System~1Int32 Lib~1Counter::Lower(System~1Int32)"⟩]
  functions := [⟨0, countFunction⟩, ⟨0, lowerFunction⟩, ⟨1, constructorFunction⟩]

theorem build_eq : build assembly options = .ok image := by
  decide +kernel

end Counting

end CilCompiler
