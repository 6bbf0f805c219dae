import CilCompiler.Proofs.CallLinking

/-!
# Exports

Functions are exported by their place in the finished module, while calls take the indices that were
given out during the build. Both mean the same functions. Nothing else depends on the exports: a
build under another policy runs through the same steps.

* `Image.mem_exports_iff` and `Image.pairwise_exports` say what is exported, and in which order.
* `ListsMethods` says that exports are the methods that a policy admits, and `Built.listsMethods`
  that it holds of every module that was built.
* `Build.Mirrors` relates a step to one that runs on tables without exports. It is closed under
  `bind`, and `buildWithLog_withoutExports` carries it to whole builds.
* `build_exports_methods` joins the two.
-/

namespace CilCompiler

open Wasm (Op Signature)

/-! ## The list of exports -/

namespace Image

/-- An export is the place of a function with an export name, counted behind the imports. -/
theorem mem_exports_iff {image : Image} {name : String} {index : Nat} :
    (name, index) ∈ image.exports ↔
      ∃ k d, image.functions[k]? = some d ∧ d.function.exportName = some name ∧
        index = image.imports.length + k := by
  unfold exports
  rw [List.mem_filterMap]
  constructor
  · rintro ⟨⟨d, k⟩, hmem, hexport⟩
    rcases Option.map_eq_some_iff.1 hexport with ⟨name', hname, heq⟩
    cases heq
    exact ⟨k, d, List.mem_zipIdx_iff_getElem?.1 hmem, hname, rfl⟩
  · rintro ⟨k, d, hd, hname, rfl⟩
    exact ⟨(d, k), List.mem_zipIdx_iff_getElem?.2 hd, by simp [hname]⟩

/-- The exports stand in the order of their indices. -/
theorem pairwise_exports (image : Image) : image.exports.Pairwise (·.2 < ·.2) := by
  have hplaces : image.functions.zipIdx.Pairwise (·.2 < ·.2) := by
    rw [← List.pairwise_map, List.zipIdx_map_snd]
    exact List.pairwise_lt_range'
  -- leaving out functions without an export name keeps the order of the others
  refine List.pairwise_filterMap.2 (hplaces.imp ?_)
  intro p q hlt e he e' he'
  rcases Option.map_eq_some_iff.1 he with ⟨name, _, rfl⟩
  rcases Option.map_eq_some_iff.1 he' with ⟨name', _, rfl⟩
  exact Nat.add_lt_add_left hlt _

end Image

/-- Whether a method is exported under a policy. -/
def ExportPolicy.admits (policy : ExportPolicy) (m : MethodDef) : Bool :=
  match policy with
  | .all => true
  | .publicOnly => m.isPublic
  | .none => false

theorem exportName_eq_some_iff {o : Options} {m : MethodDef} {fullName name : String} :
    o.exportName m.isPublic fullName = some name ↔ o.exportPolicy.admits m ∧ fullName = name := by
  unfold Options.exportName ExportPolicy.admits
  cases o.exportPolicy with
  | all =>
      simp
  | publicOnly =>
      cases m.isPublic <;> simp
  | none =>
      simp

/-! ## Exports of a built module -/

/-- The exports are the methods that the policy admits, each under its full name and with the index
of its function: `entry` says where that stands. -/
structure ListsMethods (a : Assembly) (policy : ExportPolicy) (image : Image)
    (entry : Fin a.methods.length ≃ Fin image.functions.length) : Prop where
  ascending : image.exports.Pairwise (·.2 < ·.2)
  distinct : (image.exports.map (·.1)).Nodup
  mem_iff : ∀ name index, (name, index) ∈ image.exports ↔
    ∃ k, policy.admits (a.methods.get k).2 ∧
      ((a.methods.get k).2.ref (a.methods.get k).1.name).fullName = name ∧
      index = image.imports.length + entry k

section Built

variable {a : Assembly} {o : Options} {image : Image} {tables : Tables}

/-- A function is exported under its own name, if at all. -/
theorem Built.name_of_exportName (h : Built a o image tables) {d : Definition}
    (hd : d ∈ image.functions) {name : String} (hname : d.function.exportName = some name) :
    d.function.name = name := by
  rcases h.exists_method hd with ⟨tm, _, hcompiles⟩
  rw [hcompiles.exportName] at hname
  exact (exportName_eq_some_iff.1 hname).2

variable {entry : Fin a.methods.length ≃ Fin image.functions.length}
  (hentry : ∀ k, Compiles a o tables (a.methods.get k).1 (a.methods.get k).2
    (image.functions.get (entry k)))
include hentry

theorem exportName_entry_iff {k : Fin a.methods.length} {name : String} :
    (image.functions.get (entry k)).function.exportName = some name ↔
      o.exportPolicy.admits (a.methods.get k).2 ∧
        ((a.methods.get k).2.ref (a.methods.get k).1.name).fullName = name := by
  rw [(hentry k).exportName, (hentry k).name, exportName_eq_some_iff]

theorem Built.listsMethods (h : Built a o image tables) :
    ListsMethods a o.exportPolicy image entry where
  ascending := image.pairwise_exports
  distinct := by
    refine List.pairwise_map.2 (image.pairwise_exports.imp_of_mem ?_)
    rintro ⟨name, i⟩ ⟨name', i'⟩ hmem hmem' hlt rfl
    rcases Image.mem_exports_iff.1 hmem with ⟨k, d, hd, hname, rfl⟩
    rcases Image.mem_exports_iff.1 hmem' with ⟨k', d', hd', hname', rfl⟩
    -- both are functions of the name under which they are exported, and there is only one
    have hsame : d.function.name = d'.function.name :=
      (h.name_of_exportName (List.mem_of_getElem? hd) hname).trans
        (h.name_of_exportName (List.mem_of_getElem? hd') hname').symm
    rw [h.index_eq_of_name hd hd' hsame] at hlt
    exact absurd hlt (Nat.lt_irrefl _)
  mem_iff := by
    intro name index
    rw [Image.mem_exports_iff]
    constructor
    · rintro ⟨k, d, hd, hname, rfl⟩
      rcases List.getElem?_eq_some_iff.1 hd with ⟨hk, rfl⟩
      -- the function in that place is the entry of a method
      rcases entry.surjective ⟨k, hk⟩ with ⟨k', hk'⟩
      have hname' : (image.functions.get (entry k')).function.exportName = some name := by
        rw [hk']
        exact hname
      rcases (exportName_entry_iff hentry).1 hname' with ⟨hadmits, hfull⟩
      exact ⟨k', hadmits, hfull, by rw [hk']⟩
    · rintro ⟨k, hadmits, hfull, rfl⟩
      exact ⟨entry k, image.functions.get (entry k), List.getElem?_eq_getElem (entry k).isLt,
        (exportName_entry_iff hentry).2 ⟨hadmits, hfull⟩, rfl⟩

/-- A call of a method takes the index of its function. -/
theorem Built.callee_eq (h : Built a o image tables) {r : MethodRef} {n : Nat}
    (hn : tables.callee a r = some n) {k : Fin a.methods.length}
    (hk : a.findMethod r = some (a.methods.get k)) : n = image.imports.length + entry k := by
  cases h.linksTo hentry hn with
  | @own k' hk' =>
      have hget : a.methods.get k' = a.methods.get k := Option.some.inj (hk'.symm.trans hk)
      have hname : (image.functions.get (entry k')).function.name =
          (image.functions.get (entry k)).function.name := by
        rw [(hentry k').name, (hentry k).name, hget]
      rw [h.index_eq_of_name (List.getElem?_eq_getElem (entry k').isLt)
        (List.getElem?_eq_getElem (entry k).isLt) hname]
  | host hnone =>
      cases hnone.symm.trans hk

end Built

/-! ## Without exports -/

def Definition.withoutExport (d : Definition) : Definition :=
  { d with function := { d.function with exportName := none } }

def Tables.withoutExports (t : Tables) : Tables :=
  { t with definitions := t.definitions.map Definition.withoutExport }

def BuildState.withoutExports (s : BuildState) : BuildState :=
  { s with tables := s.tables.withoutExports }

def Options.withoutExports (o : Options) : Options :=
  { o with exportPolicy := .none }

def Image.withoutExports (image : Image) : Image :=
  { image with functions := image.functions.map Definition.withoutExport }

theorem mapM_map_ok {α β γ ε : Type} (f : α → Except ε β) (g : β → γ) (xs : List α) :
    xs.mapM (fun x => (f x).map g) = (xs.mapM f).map (List.map g) := by
  induction xs with
  | nil =>
      rfl
  | cons x xs ih =>
      rw [List.mapM_cons, List.mapM_cons, ih]
      cases f x with
      | error e =>
          rfl
      | ok y =>
          cases xs.mapM f with
          | error e =>
              rfl
          | ok ys =>
              rfl

section Tables

variable (t : Tables)

theorem isDefined_withoutExports (name : String) :
    t.withoutExports.isDefined name = t.isDefined name := by
  simp [Tables.isDefined, Tables.withoutExports, Definition.withoutExport, Function.comp_def]

/-- Completing a function looks at names only. -/
theorem define_withoutExports (f : Function) :
    t.withoutExports.define { f with exportName := none } =
      ((t.define f).1, (t.define f).2.withoutExports) := by
  -- giving out indices does not look at the completed functions
  have hsame : ((t.withoutExports.reserve f.name).2.intern f.signature).2 =
      ((t.reserve f.name).2.intern f.signature).2.withoutExports := rfl
  unfold Tables.define
  simp only [hsame, isDefined_withoutExports]
  split
  · rfl
  · simp [Tables.withoutExports, Definition.withoutExport, Tables.reserve, Tables.intern]

/-- Functions are looked up by their names. -/
theorem definition_of_map {t t' : Tables} {g : Definition → Definition}
    (hg : ∀ d, (g d).function.name = d.function.name)
    (h : t'.definitions = t.definitions.map g) (name : String) :
    t'.definition name = (t.definition name).map g := by
  unfold Tables.definition
  rw [h, List.find?_map]
  have hnames : (fun d : Definition => d.function.name == name) ∘ g =
      fun d => d.function.name == name := funext fun d => by rw [Function.comp_apply, hg]
  rw [hnames]
  cases t.definitions.find? (·.function.name == name) with
  | none =>
      rfl
  | some d =>
      rfl

/-- Completed functions that are changed, but not in their names, are put in order alike. -/
theorem mapM_definition_of_map {t t' : Tables} {g : Definition → Definition}
    (hg : ∀ d, (g d).function.name = d.function.name)
    (h : t'.definitions = t.definitions.map g) (names : List String) :
    names.mapM t'.definition = (names.mapM t.definition).map (List.map g) := by
  rw [← mapM_map_ok]
  exact congrArg (names.mapM ·) (funext (definition_of_map hg h))

theorem finish_withoutExports : t.withoutExports.finish = t.finish.map Image.withoutExports := by
  have hkeys : t.withoutExports.functions.keys.mapM t.withoutExports.definition =
      (t.functions.keys.mapM t.definition).map (List.map Definition.withoutExport) :=
    mapM_definition_of_map (g := Definition.withoutExport) (fun _ => rfl) rfl t.functions.keys
  unfold Tables.finish
  rw [hkeys]
  cases t.functions.keys.mapM t.definition with
  | error e =>
      rfl
  | ok functions =>
      rfl

end Tables

/-! ## Steps that mirror each other -/

namespace Build

variable {α β : Type}

/-- On tables without exports, `y` does what `x` does with them: it has the same result and the same
events, and leaves the same tables without exports. -/
def Mirrors (x y : Build α) : Prop :=
  ∀ s, Build.run y s.withoutExports = ((Build.run x s).1, (Build.run x s).2.withoutExports)

theorem Mirrors.pure (r : α) : Mirrors (pure r) (pure r) :=
  fun _ => rfl

theorem Mirrors.throw (e : CompileError) : Mirrors (throw e : Build α) (throw e) :=
  fun _ => rfl

theorem Mirrors.report (event : Event) : Mirrors (report event) (report event) :=
  fun _ => rfl

theorem Mirrors.ofExcept (r : Except CompileError α) : Mirrors (ofExcept r) (ofExcept r) := by
  cases r with
  | error e =>
      exact .throw e
  | ok r =>
      exact .pure r

theorem Mirrors.bind {x y : Build α} {f g : α → Build β} (h : Mirrors x y)
    (hf : ∀ r, Mirrors (f r) (g r)) : Mirrors (x >>= f) (y >>= g) := by
  intro s
  rw [run_bind, run_bind, h s]
  -- both go on with the same result, or stop with the same error
  rcases Build.run x s with ⟨outcome, s₁⟩
  cases outcome with
  | error e =>
      rfl
  | ok r =>
      exact hf r s₁

/-- What is read from the state must not depend on the exports. -/
theorem Mirrors.get_bind {f g : BuildState → Build β}
    (h : ∀ s, Mirrors (f s) (g s.withoutExports)) : Mirrors (get >>= f) (get >>= g) :=
  fun s => h s s

theorem Mirrors.reserve (name : String) : Mirrors (reserve name) (reserve name) := by
  intro s
  rw [run_reserve_eq, run_reserve_eq]
  rfl

theorem Mirrors.global (name : String) : Mirrors (global name) (global name) := by
  intro s
  rw [run_global_eq, run_global_eq]
  rfl

theorem Mirrors.define (f : Function) :
    Mirrors (define f) (define { f with exportName := none }) := by
  intro s
  rw [run_define, run_define]
  have hdefine := define_withoutExports s.tables f
  simp only [BuildState.withoutExports, hdefine]

theorem Mirrors.callIndex (a : Assembly) (m : MethodRef) :
    Mirrors (callIndex a m) (callIndex a m) := by
  unfold Build.callIndex
  cases a.findMethod m with
  | some found =>
      exact .reserve m.fullName
  | none =>
      exact .get_bind fun s => .ofExcept _

end Build

namespace Linker

open Build (Mirrors)

variable {α β : Type}

/-- The step runs on tables without exports as it does with them. -/
def IsBlind (x : Linker α) : Prop :=
  ∀ slots, Mirrors (StateT.run x slots) (StateT.run x slots)

theorem IsBlind.pure (r : α) : IsBlind (pure r) :=
  fun slots => .pure (r, slots)

theorem IsBlind.bind {x : Linker α} {f : α → Linker β} (h : IsBlind x) (hf : ∀ r, IsBlind (f r)) :
    IsBlind (x >>= f) :=
  fun slots => (h slots).bind fun p => hf p.1 p.2

theorem IsBlind.lift {x : Build α} (h : Mirrors x x) : IsBlind (liftM x) :=
  fun slots => h.bind fun r => .pure (r, slots)

theorem IsBlind.slot (z : Slot) : IsBlind (slot z) := by
  intro slots s
  have hrun : ∀ s, Build.run (StateT.run (Linker.slot z) slots) s =
      Build.run (Build.ofExcept (slots.resolved z .i32)) s := by
    intro s
    have hexec := exec_slot z slots s
    unfold exec at hexec
    rw [hexec]
    cases slots.resolved z .i32 with
    | error e =>
        rfl
    | ok place =>
        rfl
  rw [hrun, hrun]
  exact Mirrors.ofExcept (slots.resolved z .i32) s

end Linker

/-! ## Bodies and methods -/

section Lowering

open Build (Mirrors)
open Linker (IsBlind)

variable (a : Assembly) (o : Options)

theorem link_isBlind (cursor : Cursor) (e : Emit) : IsBlind (e.link a cursor) := by
  cases e with
  | op operator =>
      exact .pure _
  | load z =>
      exact (IsBlind.slot z).bind fun _ => .pure _
  | store z =>
      exact (IsBlind.slot z).bind fun _ => .pure _
  | branch target conditional =>
      refine (IsBlind.lift (.ofExcept (cursor.reach target))).bind fun reach => ?_
      cases reach with
      | forward label =>
          exact .pure _
      | backward resume label =>
          exact (IsBlind.slot .resumeSelector).bind fun _ => .pure _
  | handle name =>
      exact (IsBlind.lift (.global name)).bind fun _ => .pure _
  | allocate =>
      exact .pure _
  | call m =>
      exact (IsBlind.lift (.callIndex a m)).bind fun _ => .pure _

theorem linkAll_isBlind (cursor : Cursor) (es : List Emit) : IsBlind (linkAll a cursor es) := by
  induction es with
  | nil =>
      exact .pure _
  | cons e es ih =>
      exact (link_isBlind a cursor e).bind fun _ => ih.bind fun _ => .pure _

theorem lowerInstructions_isBlind (headerSize : UInt32) (cursor : Cursor)
    (is : List Instruction) : IsBlind (lowerInstructions a headerSize cursor is) := by
  -- the cursor moves on with the instructions
  induction is generalizing cursor with
  | nil =>
      exact .pure _
  | cons i is ih =>
      refine (IsBlind.lift (.report _)).bind fun _ => ?_
      refine (IsBlind.lift (.ofExcept (select a headerSize i))).bind fun es => ?_
      exact (linkAll_isBlind a _ es).bind fun _ => (ih _).bind fun _ => .pure _

theorem dispatch_isBlind (size : Nat) : IsBlind (dispatch size) := by
  unfold dispatch
  split
  · exact .pure _
  · exact (IsBlind.slot .resumeSelector).bind fun _ => .pure _

theorem lowerBody_isBlind (headerSize : UInt32) (hasResult : Bool) (body : MethodBody) :
    IsBlind (lowerBody a headerSize hasResult body) := by
  unfold lowerBody
  split
  · exact .pure _
  · refine (IsBlind.lift (.ofExcept (Schedule.analyze body))).bind fun schedule => ?_
    refine (dispatch_isBlind schedule.size).bind fun _ => ?_
    exact (lowerInstructions_isBlind a headerSize _ body.instructions).bind fun _ => .pure _

theorem thunk_mirrors (name identifier : String) (signature : Signature) :
    Mirrors (thunk name identifier signature) (thunk name identifier signature) := by
  unfold thunk
  split
  · exact .throw _
  · refine .get_bind fun s => ?_
    have hinvoker : s.withoutExports.tables.invoker = s.tables.invoker := rfl
    rw [hinvoker]
    cases s.tables.invoker with
    | none =>
        exact .throw _
    | some invoker =>
        exact (Mirrors.global _).bind fun _ => .pure _

theorem compileBody_mirrors (fullName : String) (signature : Signature) (m : MethodDef) :
    Mirrors (compileBody a o fullName signature m)
      (compileBody a o.withoutExports fullName signature m) := by
  have hinterop : o.withoutExports.isInterop fullName = o.isInterop fullName := rfl
  have hheader : o.withoutExports.headerSize = o.headerSize := rfl
  unfold compileBody
  simp only [hinterop, hheader]
  split
  · refine (Mirrors.report _).bind fun _ => ?_
    exact (thunk_mirrors fullName _ signature).bind fun _ => .pure _
  · refine (Mirrors.report _).bind fun _ => ?_
    cases m.body with
    | some body =>
        exact lowerBody_isBlind a o.headerSize signature.result.isSome body _
    | none =>
        exact .pure _

/-- A method is compiled without its export name, and otherwise as before. -/
theorem compileMethod_mirrors (t : TypeDef) (m : MethodDef) :
    Mirrors (compileMethod a o t m) (compileMethod a o.withoutExports t m) := by
  refine (Mirrors.reserve _).bind fun _ => ?_
  refine (Mirrors.ofExcept (methodSignature m)).bind fun signature => ?_
  refine (compileBody_mirrors a o _ signature m).bind fun compiled => ?_
  refine (Mirrors.report _).bind fun _ => ?_
  -- the policy decides the export name, and nothing else of the function
  exact (Mirrors.define _).bind fun _ => .report _

/-! ## Modules -/

theorem compileMethods_withoutExports (ms : List (TypeDef × MethodDef)) (s : BuildState) :
    compileMethods a o.withoutExports ms s.withoutExports =
      ((compileMethods a o ms s).1, (compileMethods a o ms s).2.withoutExports) := by
  induction ms generalizing s with
  | nil =>
      rfl
  | cons tm ms ih =>
      rcases tm with ⟨t, m⟩
      unfold compileMethods
      rw [compileMethod_mirrors a o t m s]
      rcases Build.run (compileMethod a o t m) s with ⟨outcome, s₁⟩
      cases outcome with
      | error e =>
          rfl
      | ok _ =>
          exact ih s₁

theorem start_withoutExports :
    BuildState.start a o.withoutExports = (BuildState.start a o).withoutExports := by
  -- nothing is complete yet
  have hnone := (provides_start a o).definitions
  unfold BuildState.withoutExports Tables.withoutExports
  rw [hnone, List.map_nil, ← hnone]
  rfl

/-- A build that exports nothing has the same outcome and the same events as any other, but for the
exports. -/
theorem buildWithLog_withoutExports :
    buildWithLog a o.withoutExports =
      ((buildWithLog a o).1.map Image.withoutExports, (buildWithLog a o).2) := by
  unfold buildWithLog
  rw [start_withoutExports, compileMethods_withoutExports]
  rcases compileMethods a o a.methods (BuildState.start a o) with ⟨outcome, s⟩
  cases outcome with
  | error f =>
      rfl
  | ok _ =>
      have hfinish : s.withoutExports.tables.finish = s.tables.finish.map Image.withoutExports :=
        finish_withoutExports s.tables
      simp only [hfinish]
      cases s.tables.finish with
      | error e =>
          rfl
      | ok image =>
          rfl

theorem build_withoutExports :
    build a o.withoutExports = (build a o).map Image.withoutExports :=
  congrArg Prod.fst (buildWithLog_withoutExports a o)

end Lowering

/-- The exports of a module are the methods that the policy admits, with the indices that calls
take: `entry` is the function of each method, and `index` numbers the references in the code. Under
another policy the build ends with the same error, or with the same module but for the exports. -/
theorem build_exports_methods (a : Assembly) (o : Options) :
    (∀ image, build a o = .ok image →
      ∃ (entry : Fin a.methods.length ≃ Fin image.functions.length) (index : MethodRef → Nat),
        (∀ k, CompiledFrom a o (a.methods.get k).1 (a.methods.get k).2
          (image.functions.get (entry k))) ∧
        ListsMethods a o.exportPolicy image entry ∧
        ∀ k body, o.isInterop ((a.methods.get k).2.ref (a.methods.get k).1.name).fullName = false →
          (a.methods.get k).2.body = some body →
          callIndices (image.functions.get (entry k)).function.body =
              body.instructions.flatMap (Instruction.calls index) ∧
            ∀ i ∈ body.instructions, ∀ r, i.callee? = some r →
              ∀ k', a.findMethod r = some (a.methods.get k') →
                index r = image.imports.length + entry k') ∧
    ∀ policy, (build a { o with exportPolicy := policy }).map Image.withoutExports =
      (build a o).map Image.withoutExports := by
  constructor
  · intro image himage
    rcases build_ok himage with ⟨tables, hbuilt⟩
    rcases hbuilt.exists_entry with ⟨entry, hentry⟩
    refine ⟨entry, tables.index a, fun k => (hentry k).toCompiledFrom,
      hbuilt.listsMethods hentry, ?_⟩
    intro k body hown hbody
    rw [← (hentry k).name] at hown
    rcases (hentry k).body.bodyLowered hown hbody with ⟨slots, _, _, hlowered⟩
    refine ⟨hlowered.callIndices_eq fun r n hn => index_of_callee hn, ?_⟩
    -- a call in the code takes the index that the tables know at the end
    intro i hi r hr k' hk'
    rcases hlowered.callee_ok hi hr with ⟨n, hn⟩
    rw [index_of_callee hn]
    exact hbuilt.callee_eq hentry hn hk'
  · intro policy
    calc (build a { o with exportPolicy := policy }).map Image.withoutExports
        = build a ({ o with exportPolicy := policy } : Options).withoutExports :=
          (build_withoutExports a _).symm
      _ = build a o.withoutExports := rfl
      _ = (build a o).map Image.withoutExports := build_withoutExports a o

/-- Of the three methods one is exported, the forwarding one is called by its index, and exporting
all of them gives the same module but for the exports. -/
theorem Counting.exports_agree :
    image.exports = [(countFunction.name, 4)] ∧
      (∃ (entry : Fin assembly.methods.length ≃ Fin image.functions.length)
        (index : MethodRef → Nat), ListsMethods assembly .publicOnly image entry ∧
          index (lower.ref counter) = 4 + entry ⟨2, by decide⟩) ∧
      ∃ image', build assembly { options with exportPolicy := .all } = .ok image' ∧
        image'.withoutExports = image.withoutExports := by
  rcases build_exports_methods assembly options with ⟨hexports, hpolicy⟩
  rcases hexports image build_eq with ⟨entry, index, _, hlists, hcalls⟩
  refine ⟨by decide, ⟨entry, index, hlists, ?_⟩, ?_⟩
  · rcases hcalls ⟨0, by decide⟩ countBody (by decide +kernel) rfl with ⟨_, hcallees⟩
    exact hcallees ⟨7, .call, .method (lower.ref counter)⟩ (by decide) _ (by decide +kernel)
      ⟨2, by decide⟩ (by decide +kernel)
  · have hall := hpolicy .all
    rw [build_eq] at hall
    cases hbuild : build assembly { options with exportPolicy := .all } with
    | error f =>
        rw [hbuild] at hall
        cases hall
    | ok image' =>
        rw [hbuild] at hall
        exact ⟨image', rfl, Except.ok.inj hall⟩

end CilCompiler
