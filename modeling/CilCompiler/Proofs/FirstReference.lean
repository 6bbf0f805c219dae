import CilCompiler.Proofs.ModuleDrafts

/-!
# First references

The tables of a module list what its methods refer to, in the order of the first reference. The order
can be read off the assembly: walk over the types, their methods and the instructions of these, and
write down every reference.

* `Assembly.functionsOf` and `Assembly.globalsOf` are the references of one method.
* `build_numbers_first_references` says that functions, globals and types stand in the order of such
  a walk.
-/

namespace CilCompiler

open Host (ImportDecl)

/-! ## References of a method -/

/-- The function of the module that an instruction calls. -/
def Instruction.ownCallee? (a : Assembly) (i : Instruction) : Option String :=
  i.callee?.bind fun r => if (a.findMethod r).isSome then some r.fullName else none

/-- The functions of the module that a method refers to: itself, and what it calls unless it only
forwards to the host. -/
def Assembly.functionsOf (a : Assembly) (o : Options) (t : TypeDef) (m : MethodDef) :
    List String :=
  (m.ref t.name).fullName ::
    if o.isInterop (m.ref t.name).fullName then []
    else m.instructions.filterMap (Instruction.ownCallee? a)

/-- The globals that a method refers to: its own handle if it only forwards to the host, and else
the handles of the types that it makes objects of. -/
def Assembly.globalsOf (a : Assembly) (o : Options) (t : TypeDef) (m : MethodDef) : List String :=
  if o.isInterop (m.ref t.name).fullName then
    [Handle.methodHandle (Handle.qualified a.name (m.ref t.name).fullName)]
  else m.instructions.filterMap fun i => i.constructed?.map (Handle.typeHandle a.name)

section References

variable {a : Assembly} {o : Options}

/-- A call names a function of the module if its reference means a method. -/
theorem filterMap_function?_call (r : MethodRef) :
    (Emit.named (a.setting o) (.call r)).filterMap NamedOp.function? =
      (if (a.findMethod r).isSome then some r.fullName else none).toList := by
  by_cases hsome : (a.findMethod r).isSome
  · have hcallee : (a.setting o).callee r = .ok (.own r.fullName) :=
      callee_eq_own_iff.2 ⟨hsome, rfl⟩
    rw [named_call_ok hcallee, if_pos hsome]
    rfl
  · rw [if_neg hsome]
    cases hcallee : (a.setting o).callee r with
    | ok callee =>
        rw [named_call_ok hcallee]
        cases callee with
        | own name =>
            exact absurd (callee_eq_own_iff.1 hcallee).1 hsome
        | host d =>
            rfl
    | error e =>
        rw [named_call_error hcallee]
        rfl

theorem filterMap_function?_named (i : Instruction) :
    (i.named (a.setting o)).filterMap NamedOp.function? = (i.ownCallee? a).toList := by
  unfold Instruction.named Instruction.references Instruction.ownCallee?
  rw [List.flatMap_append, List.filterMap_append]
  -- making an object names a global and an import, but no function of the module
  have hobject : (((i.constructed?.map fun t =>
      [Emit.handle (Handle.typeHandle (a.setting o).home t), .allocate]).getD []).flatMap
      (Emit.named (a.setting o))).filterMap NamedOp.function? = [] := by
    cases i.constructed? <;> rfl
  rw [hobject, List.nil_append]
  cases i.callee? with
  | none =>
      rfl
  | some r =>
      have hcall := filterMap_function?_call (a := a) (o := o) r
      simpa using hcall

theorem filterMap_global?_call (r : MethodRef) :
    (Emit.named (a.setting o) (.call r)).filterMap NamedOp.global? = [] := by
  cases hcallee : (a.setting o).callee r with
  | ok callee =>
      rw [named_call_ok hcallee]
      rfl
  | error e =>
      rw [named_call_error hcallee]
      rfl

theorem filterMap_global?_named (i : Instruction) :
    (i.named (a.setting o)).filterMap NamedOp.global? =
      (i.constructed?.map (Handle.typeHandle a.name)).toList := by
  unfold Instruction.named Instruction.references
  rw [List.flatMap_append, List.filterMap_append]
  have hcallee : ((i.callee?.map Emit.call).toList.flatMap
      (Emit.named (a.setting o))).filterMap NamedOp.global? = [] := by
    cases i.callee? with
    | none =>
        rfl
    | some r =>
        have hcall := filterMap_global?_call (a := a) (o := o) r
        simpa using hcall
  rw [hcallee, List.append_nil]
  cases i.constructed? <;> rfl

variable {t : TypeDef} {m : MethodDef} {f : FunctionDraft}

/-- The draft of a method asks for the functions that the method refers to. -/
theorem functions_of_drafted (hf : draftMethod (a.setting o) o t.name m = .ok f) :
    f.functions = a.functionsOf o t m := by
  rcases (draftMethod_proper t.name m).holds hf with ⟨hname, -, hnamed⟩
  rw [FunctionDraft.functions, Assembly.functionsOf, hname,
    ← filterMap_filter_isNamed (fun _ => rfl), hnamed, MethodDef.named]
  split
  · rfl
  · rw [List.filterMap_flatMap, List.filterMap_eq_flatMap_toList (Instruction.ownCallee? a)]
    simp only [filterMap_function?_named]

/-- The draft of a method asks for the globals that the method refers to. -/
theorem globals_of_drafted (hf : draftMethod (a.setting o) o t.name m = .ok f) :
    f.globals = a.globalsOf o t m := by
  rcases (draftMethod_proper t.name m).holds hf with ⟨-, -, hnamed⟩
  rw [FunctionDraft.globals, Assembly.globalsOf,
    ← filterMap_filter_isNamed (fun _ => rfl), hnamed, MethodDef.named]
  split
  · rfl
  · rw [List.filterMap_flatMap, List.filterMap_eq_flatMap_toList fun i : Instruction =>
      i.constructed?.map (Handle.typeHandle a.name)]
    simp only [filterMap_global?_named]

end References

/-! ## Modules -/

section Modules

variable {a : Assembly} {o : Options} {image : Image}

/-- The functions and the globals of a module stand in the order in which its methods refer to them,
each at its first reference. The types start with those of the imports, and go on with the
signatures of the methods, each once. -/
theorem build_numbers_first_references (h : build a o = .ok image) :
    image.functions.map (·.function.name) =
        (a.methods.flatMap fun tm => a.functionsOf o tm.1 tm.2).eraseDups ∧
      image.globals = (a.methods.flatMap fun tm => a.globalsOf o tm.1 tm.2).eraseDups.map
        GlobalImport.lateBound ∧
      (o.bridge.declared (!o.interopMethods.isEmpty)).Forall₂
        (ImportDecl.Describes image.types) image.imports ∧
      ∃ signatures, a.methods.mapM (fun tm => methodSignature tm.2) = .ok signatures ∧
        image.types = ((o.bridge.declared (!o.interopMethods.isEmpty)).map ImportDecl.signature ++
          signatures).eraseDups := by
  rcases build_ok_drafted h with ⟨fs, hall, -, hwritten⟩
  have hfunctions : (a.methods.flatMap fun tm => a.functionsOf o tm.1 tm.2) =
      fs.flatMap FunctionDraft.functions :=
    congrArg List.flatten (map_eq_of_forall₂ (fun tm f hf => (functions_of_drafted hf).symm) hall)
  have hglobals : (a.methods.flatMap fun tm => a.globalsOf o tm.1 tm.2) =
      fs.flatMap FunctionDraft.globals :=
    congrArg List.flatten (map_eq_of_forall₂ (fun tm f hf => (globals_of_drafted hf).symm) hall)
  have hsignatures : a.methods.mapM (fun tm => methodSignature tm.2) =
      .ok (fs.map FunctionDraft.signature) := by
    refine mapM_ok_of_forall₂ (List.forall₂_map_right_iff.2 ?_)
    exact hall.imp fun tm f hf => ((draftMethod_proper tm.1.name tm.2).holds hf).2.1
  rw [hfunctions, hglobals]
  exact ⟨hwritten.functions, hwritten.globals, hwritten.imports, _, hsignatures, hwritten.types⟩

end Modules

/-- The callees of the first method come before the methods that are declared behind it. -/
theorem Counting.first_references :
    build assembly options = .ok image ∧
      image.functions.map (·.function.name) =
        ["System.Int32 Lib.Counter::Count(System.Int32)",
          "System.Int32 Lib.Counter::Lower(System.Int32)", "System.Void Lib.Counter::.ctor()",
          "System.Void Lib.Counter::.ctor()",
          "System.Int32 Lib.Counter::Lower(System.Int32)"].eraseDups := by
  have hreferences : (assembly.methods.flatMap fun tm => assembly.functionsOf options tm.1 tm.2) =
      ["System.Int32 Lib.Counter::Count(System.Int32)",
        "System.Int32 Lib.Counter::Lower(System.Int32)", "System.Void Lib.Counter::.ctor()",
        "System.Void Lib.Counter::.ctor()",
        "System.Int32 Lib.Counter::Lower(System.Int32)"] := by
    decide +kernel
  refine ⟨build_eq, ?_⟩
  rw [← hreferences]
  exact (build_numbers_first_references build_eq).1

end CilCompiler
