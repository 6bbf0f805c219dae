import CilCompiler.Proofs.DraftOutcomes

/-!
# Drafts of methods

A method can be drafted as a whole: its signature, its locals and its code with names. Compiling it
numbers the names in the draft and completes the function that the draft describes.

* `draftMethod` is the draft of a method; `FunctionDraft.Realised` says that a definition is the
  function of a draft.
* `compileMethod_endsAs` says that compiling a method ends as its draft does, and adds it.
* `draftMethod_proper` says what the draft of a method names.
-/

namespace CilCompiler

open Host (ImportDecl)
open Wasm (Op Signature ValueKind)

/-! ## Drafts of functions -/

/-- A function with names in the place of the indices of the module. -/
structure FunctionDraft where
  name : String
  signature : Signature
  locals : List ValueKind
  body : List NamedOp
  exportName : Option String
  deriving DecidableEq

namespace FunctionDraft

/-- The functions of the module that a draft asks for, its own one first. -/
def functions (f : FunctionDraft) : List String :=
  f.name :: f.body.filterMap NamedOp.function?

/-- The globals that a draft asks for. -/
def globals (f : FunctionDraft) : List String :=
  f.body.filterMap NamedOp.global?

/-- The definition `d` is the function that the draft describes, in a module with these names. -/
structure Realised (n : Names) (f : FunctionDraft) (d : Definition) : Prop where
  name : d.function.name = f.name
  signature : d.function.signature = f.signature
  locals : d.function.locals = f.locals
  exportName : d.function.exportName = f.exportName
  type : n.types[d.type]? = some f.signature
  body : d.function.body.mapM n.name? = some f.body

theorem Realised.grows {n n' : Names} {f : FunctionDraft} {d : Definition} (hg : n.Grows n')
    (h : f.Realised n d) : f.Realised n' d :=
  { h with
    type := getElem?_of_isPrefix hg.types h.type
    body := Names.mapM_name?_of_grows hg h.body }

end FunctionDraft

/-- The draft of a thunk for the method that the host knows as `identifier`. -/
def draftThunk (identifier : String) (invoker : ImportDecl) (signature : Signature) :
    List NamedOp :=
  let argc := signature.params.length
  [.globalGet (Handle.methodHandle identifier)] ++
    (Op.const (Int32.ofNat argc) :: (List.range argc).map Op.localGet ++
      List.replicate (Tables.maxInteropArgs - argc) (Op.const 0)).map .plain ++
    [.call (.host invoker)] ++
    ((if signature.result.isNone then [Op.drop] else []) ++ [Op.close]).map .plain

/-- The draft of the operators of a method, with its slots. -/
def draftCode (x : Setting) (o : Options) (fullName : String) (signature : Signature)
    (m : MethodDef) : Except CompileError (List NamedOp × SlotTable) :=
  let slots := SlotTable.ofParams signature.params
  if o.isInterop fullName then
    if signature.params.length > Tables.maxInteropArgs then
      .error (.arityExceeded fullName signature.params.length Tables.maxInteropArgs)
    else .ok (draftThunk (Handle.qualified x.home fullName) x.invoker signature, slots)
  else
    match m.body with
    | some body => (draftBody x signature.result.isSome body).run slots
    | none => .ok ((epilogue signature.result.isSome).map .plain, slots)

/-- The draft of a method of `declaring`. -/
def draftMethod (x : Setting) (o : Options) (declaring : TypeName) (m : MethodDef) :
    Except CompileError FunctionDraft := do
  let fullName := (m.ref declaring).fullName
  let signature ← methodSignature m
  let code ← draftCode x o fullName signature m
  return { name := fullName, signature, locals := code.2.locals, body := code.1,
           exportName := o.exportName m.isPublic fullName }

/-- The draft of a method that comes behind functions of the given names. -/
def draftNext (x : Setting) (o : Options) (defined : List String) (declaring : TypeName)
    (m : MethodDef) : Except CompileError FunctionDraft := do
  let f ← draftMethod x o declaring m
  if f.name ∈ defined then throw (.duplicateFunction f.name) else return f

/-! ## Methods -/

/-- The functions `fs` were drafted, numbered and completed one after the other, on the way from the
tables `t` to the tables `t'`. -/
structure Adds (t : Tables) (fs : List FunctionDraft) (t' : Tables) : Prop where
  grown : t.Grows t'
  functions : t'.functions = t.functions.requestAll (fs.flatMap FunctionDraft.functions)
  globals : t'.globals = t.globals.requestAll (fs.flatMap FunctionDraft.globals)
  types : t'.types = t.types.requestAll (fs.map FunctionDraft.signature)
  definitions : ∃ ds, fs.Forall₂ (FunctionDraft.Realised t'.toNames) ds ∧
    t'.definitions = t.definitions ++ ds

theorem Adds.nil (t : Tables) : Adds t [] t :=
  ⟨(Tables.Extends.refl t).toGrows, rfl, rfl, rfl, [], .nil, by simp⟩

theorem Adds.append {t t' t'' : Tables} {fs fs' : List FunctionDraft} (h : Adds t fs t')
    (h' : Adds t' fs' t'') : Adds t (fs ++ fs') t'' where
  grown := h.grown.trans h'.grown
  functions := by
    rw [List.flatMap_append, Numbering.requestAll_append, ← h.functions, h'.functions]
  globals := by
    rw [List.flatMap_append, Numbering.requestAll_append, ← h.globals, h'.globals]
  types := by
    rw [List.map_append, Numbering.requestAll_append, ← h.types, h'.types]
  definitions := by
    rcases h.definitions with ⟨ds, hds, hdefs⟩
    rcases h'.definitions with ⟨ds', hds', hdefs'⟩
    -- the numbers in the earlier bodies keep their meaning while the tables grow
    have hkept := hds.imp fun f d hd => hd.grows h'.grown.toNames
    exact ⟨ds ++ ds', List.rel_append hkept hds', by rw [hdefs', hdefs, List.append_assoc]⟩

theorem Adds.names {t t' : Tables} {fs : List FunctionDraft} (h : Adds t fs t') :
    t'.definitions.map (·.function.name) =
      t.definitions.map (·.function.name) ++ fs.map FunctionDraft.name := by
  rcases h.definitions with ⟨ds, hds, hdefs⟩
  rw [hdefs, List.map_append, map_eq_of_forall₂ (fun f d hd => hd.name.symm) hds]

section Methods

variable {a : Assembly} {o : Options} {t : TypeDef} {m : MethodDef} {s : BuildState}

/-- Behind the request for its handle, a thunk is written as its draft says: the invoker stands where
it was declared. -/
theorem Writes.thunkOps (hs : (BuildState.start a o).tables.Grows s.tables) {name : String}
    (hinterop : o.isInterop name) {identifier : String} (signature : Signature) {handle : Nat}
    {s' : BuildState} (hhandle : Writes s.tables [.globalGet handle]
      [.globalGet (Handle.methodHandle identifier)] s') :
    Writes s.tables (thunkOps signature handle 2)
      (draftThunk identifier o.bridge.invokerDecl signature) s' := by
  have hcall : s'.tables.toNames.callee? 2 = some (.host o.bridge.invokerDecl) := by
    refine callee?_of_declared (hs.trans hhandle.grown.toGrows) ?_
    rw [interopMethods_ne_nil hinterop]
    rfl
  have hargs : (Op.const (Int32.ofNat signature.params.length) ::
      (List.range signature.params.length).map Op.localGet ++
      List.replicate (Tables.maxInteropArgs - signature.params.length)
        (Op.const 0)).all Op.isPlain := by
    simp [Op.isPlain]
  have hend : ((if signature.result.isNone then [Op.drop] else []) ++ [Op.close]).all
      Op.isPlain := by
    cases signature.result <;> rfl
  have hwhole := ((hhandle.append (.plain _ hargs)).append (.host hcall)).append (.plain _ hend)
  have hops : CilCompiler.thunkOps signature handle 2 = [.globalGet handle] ++
      (Op.const (Int32.ofNat signature.params.length) ::
        (List.range signature.params.length).map Op.localGet ++
        List.replicate (Tables.maxInteropArgs - signature.params.length) (Op.const 0)) ++
      [.call 2] ++ ((if signature.result.isNone then [Op.drop] else []) ++ [.close]) := by
    simp [CilCompiler.thunkOps]
  rw [hops]
  exact hwhole

/-- The thunk of a method that forwards to the host ends as its draft does. -/
theorem thunk_endsAs (hs : (BuildState.start a o).tables.Grows s.tables) {name : String}
    (hinterop : o.isInterop name) (identifier : String) (signature : Signature) :
    Build.EndsAs (thunk name identifier signature) s (Writes s.tables)
      (if signature.params.length > Tables.maxInteropArgs then
        .error (.arityExceeded name signature.params.length Tables.maxInteropArgs)
      else .ok (draftThunk identifier o.bridge.invokerDecl signature)) := by
  unfold thunk
  split
  · exact .throw _
  · have hinvoker : s.tables.invoker = some 2 := hs.invoker.trans (invoker_start hinterop)
    refine .get_bind ?_
    -- the guard for a missing invoker is passed by
    simp only [hinvoker]
    refine (global_endsAs _).bind_of_ok fun handle s' hhandle => .pure ?_
    exact .thunkOps hs hinterop signature hhandle

/-- The operators of a method end as their draft does. -/
theorem compileBody_endsAs (hs : (BuildState.start a o).tables.Grows s.tables)
    (fullName : String) (signature : Signature) (m : MethodDef) :
    Build.EndsAs (compileBody a o fullName signature m) s
      (fun p q s' => p.2 = q.2 ∧ Writes s.tables p.1 q.1 s')
      (draftCode (a.setting o) o fullName signature m) := by
  unfold compileBody draftCode
  by_cases hinterop : o.isInterop fullName
  · simp only [if_pos hinterop]
    refine .report_bind fun s₁ hs₁ => ?_
    rw [← hs₁] at hs ⊢
    have hthunk := thunk_endsAs hs hinterop (Handle.qualified a.name fullName) signature
    have hpair : Build.EndsAs (do
        return (← thunk fullName (Handle.qualified a.name fullName) signature,
          SlotTable.ofParams signature.params)) s₁
        (fun p q s' => p.2 = q.2 ∧ Writes s₁.tables p.1 q.1 s')
        (_ >>= fun named => .ok (named, SlotTable.ofParams signature.params)) :=
      hthunk.bind fun ops named s' hw => .pure ⟨rfl, hw⟩
    split
    · next hmany =>
      rw [if_pos hmany] at hpair
      exact hpair
    · next hfew =>
      rw [if_neg hfew] at hpair
      exact hpair
  · simp only [if_neg hinterop]
    refine .report_bind fun s₁ hs₁ => ?_
    rw [← hs₁] at hs ⊢
    cases m.body with
    | none =>
        exact .pure ⟨rfl, .plain _ (all_isPlain_epilogue _)⟩
    | some body =>
        exact lowerBody_endsAs hs signature.result.isSome body

theorem reserve_endsAs (name : String) :
    Build.EndsAs (Build.reserve name) s (fun _ _ s' => s'.tables = (s.tables.reserve name).2)
      (.ok ()) := by
  rcases Build.run_reserve name s with ⟨log, hrun⟩
  unfold Build.EndsAs
  rw [hrun]
  exact .ok rfl

/-- Completing a function fails if one of its name is complete, and else appends it. -/
theorem define_endsAs (f : Function) :
    Build.EndsAs (Build.define f) s
      (fun _ _ s' => s'.tables = { s.tables.prepared f with
        definitions := s.tables.definitions ++
          [⟨((s.tables.reserve f.name).2.intern f.signature).1, f⟩] })
      (if f.name ∈ s.tables.definitions.map (·.function.name) then
        .error (.duplicateFunction f.name)
      else .ok ()) := by
  have hdefined : s.tables.isDefined f.name ↔
      f.name ∈ s.tables.definitions.map (·.function.name) := by
    simp [Tables.isDefined]
  unfold Build.EndsAs
  rw [Build.run_define, Tables.define_eq]
  by_cases hd : s.tables.isDefined f.name
  · rw [if_pos hd, if_pos (hdefined.1 hd)]
    exact .error _ _
  · rw [if_neg hd, if_neg (mt hdefined.2 hd)]
    exact .ok rfl

/-- A draft of a function is its signature and its code, given that its name is new. -/
theorem draftNext_eq (x : Setting) (o : Options) (defined : List String) (declaring : TypeName)
    (m : MethodDef) :
    draftNext x o defined declaring m =
      (methodSignature m >>= fun signature =>
        draftCode x o (m.ref declaring).fullName signature m >>= fun code =>
        (if (m.ref declaring).fullName ∈ defined then
          .error (.duplicateFunction (m.ref declaring).fullName)
        else .ok ()) >>= fun _ =>
        .ok { name := (m.ref declaring).fullName, signature, locals := code.2.locals,
              body := code.1, exportName := o.exportName m.isPublic (m.ref declaring).fullName }) := by
  unfold draftNext draftMethod
  cases methodSignature m with
  | error e =>
      rfl
  | ok signature =>
      cases hcode : draftCode x o (m.ref declaring).fullName signature m with
      | error e =>
          simp only [bind, Except.bind, hcode]
      | ok code =>
          simp only [bind, Except.bind, hcode, pure, Except.pure]
          split <;> rfl

/-- Reserving a name, linking a body and completing the function add its draft. -/
theorem Adds.single (f : Function) {named : List NamedOp} {s₁ s₂ s₃ : BuildState}
    (hreserve : s₁.tables = (s.tables.reserve f.name).2)
    (hbody : Writes s₁.tables f.body named s₂)
    (hdefine : s₃.tables = { s₂.tables.prepared f with
      definitions := s₂.tables.definitions ++
        [⟨((s₂.tables.reserve f.name).2.intern f.signature).1, f⟩] }) :
    Adds s.tables [⟨f.name, f.signature, f.locals, named, f.exportName⟩] s₃.tables := by
  have hlinked : s.tables.Extends s₂.tables :=
    (hreserve ▸ s.tables.extends_reserve f.name).trans hbody.grown
  have hgrown : s₂.tables.Grows s₃.tables := by
    rw [hdefine]
    exact { (s₂.tables.extends_prepared f).toGrows with }
  have htables : s₂.tables = (s.tables.reserve f.name).2.requested named := hreserve ▸ hbody.tables
  -- the name has its number since before the body, so asking for it again changes nothing
  have hknown : f.name ∈ s₂.tables.functions.keys := by
    rw [htables]
    have hprefix := Numbering.prefix_requestAll (s.tables.functions.request f.name).2
      (named.filterMap NamedOp.function?)
    exact hprefix.subset Numbering.mem_keys_request
  refine ⟨hlinked.toGrows.trans hgrown, ?_, ?_, ?_, ?_⟩
  · have hsame : s₃.tables.functions = s₂.tables.functions := by
      rw [hdefine]
      exact Numbering.request_of_mem hknown
    rw [hsame, htables]
    simp only [List.flatMap_cons, List.flatMap_nil, List.append_nil]
    rfl
  · rw [hdefine]
    simp only [List.flatMap_cons, List.flatMap_nil, List.append_nil]
    rw [FunctionDraft.globals, show (s₂.tables.prepared f).globals = s₂.tables.globals from rfl,
      htables]
    rfl
  · rw [hdefine, show (s₂.tables.prepared f).types = (s₂.tables.types.request f.signature).2 from
      rfl, htables]
    rfl
  · have htype : s₃.tables.toNames.types[((s₂.tables.reserve f.name).2.intern f.signature).1]? =
        some f.signature := by
      rw [hdefine]
      exact Numbering.getElem?_of_find? (Numbering.find?_request s₂.tables.types f.signature)
    have hrealised : FunctionDraft.Realised s₃.tables.toNames
        ⟨f.name, f.signature, f.locals, named, f.exportName⟩
        ⟨((s₂.tables.reserve f.name).2.intern f.signature).1, f⟩ :=
      ⟨rfl, rfl, rfl, rfl, htype, Names.mapM_name?_of_grows hgrown.toNames hbody.names⟩
    refine ⟨_, .cons hrealised .nil, ?_⟩
    rw [hdefine, hlinked.definitions]

/-- Compiling a method ends as its draft does, and adds it. -/
theorem compileMethod_endsAs (hs : (BuildState.start a o).tables.Grows s.tables) :
    Build.EndsAs (compileMethod a o t m) s (fun _ f s' => Adds s.tables [f] s'.tables)
      (draftNext (a.setting o) o (s.tables.definitions.map (·.function.name)) t.name m) := by
  rw [draftNext_eq]
  refine (reserve_endsAs _).bind_of_ok fun _ _ hreserve => ?_
  refine (Build.EndsAs.ofExcept (methodSignature m)).bind ?_
  rintro signature _ s₁ ⟨rfl, rfl⟩
  have hreserved : s.tables.Extends s₁.tables := hreserve ▸ s.tables.extends_reserve _
  refine (compileBody_endsAs (hs.trans hreserved.toGrows) _ signature m).bind ?_
  rintro ⟨ops, slots⟩ ⟨named, _⟩ s₂ ⟨rfl, hbody⟩
  refine .report_bind fun s₃ hs₃ => ?_
  -- no function was completed since the start
  have hdefinitions : s₃.tables.definitions = s.tables.definitions := by
    rw [hs₃, hbody.grown.definitions, hreserved.definitions]
  rw [← hdefinitions]
  refine (define_endsAs _).bind fun index _ s₄ hdefine => ?_
  rw [hs₃] at hdefine
  have hadds := Adds.single
    ⟨(m.ref t.name).fullName, signature, slots.locals, ops,
      o.exportName m.isPublic (m.ref t.name).fullName⟩ hreserve hbody hdefine
  exact .ok hadds

end Methods

/-! ## Names in the draft of a method -/

/-- The instructions of a method, none if it has no body. -/
def MethodDef.instructions (m : MethodDef) : List Instruction :=
  (m.body.map MethodBody.instructions).getD []

/-- The operators with names that a method comes to. -/
def MethodDef.named (x : Setting) (o : Options) (fullName : String) (m : MethodDef) :
    List NamedOp :=
  if o.isInterop fullName then
    [.globalGet (Handle.methodHandle (Handle.qualified x.home fullName)), .call (.host x.invoker)]
  else m.instructions.flatMap (Instruction.named x)

section Names

variable {a : Assembly} {o : Options} {declaring : TypeName} {m : MethodDef}

theorem filter_draftThunk (identifier : String) (invoker : ImportDecl) (signature : Signature) :
    (draftThunk identifier invoker signature).filter NamedOp.isNamed =
      [.globalGet (Handle.methodHandle identifier), .call (.host invoker)] := by
  simp only [draftThunk, List.filter_append, filter_isNamed_plain, List.append_nil]
  rfl

theorem draftCode_proper {signature : Signature} (h : methodSignature m = .ok signature)
    (fullName : String) :
    Proper (fun code => code.1.filter NamedOp.isNamed = m.named (a.setting o) o fullName)
      (draftCode (a.setting o) o fullName signature m) := by
  have hslots : (SlotTable.ofParams signature.params).HoldsWords m.arity :=
    params_of_methodSignature h ▸ SlotTable.holdsWords_ofParams
  unfold draftCode MethodDef.named MethodDef.instructions
  split
  · split
    · exact .error rfl
    · exact .ok (filter_draftThunk _ _ _)
  · cases m.body with
    | none =>
        exact .ok (filter_isNamed_plain _)
    | some body =>
        exact (draftBody_proper signature.result.isSome body _ hslots).of_ok fun p _ hp => hp.1

/-- The draft of a method fails for reasons that lie in the input, or else has the name and the
signature of the method and names what the method does. -/
theorem draftMethod_proper (declaring : TypeName) (m : MethodDef) :
    Proper (fun f => f.name = (m.ref declaring).fullName ∧ methodSignature m = .ok f.signature ∧
        f.body.filter NamedOp.isNamed = m.named (a.setting o) o (m.ref declaring).fullName)
      (draftMethod (a.setting o) o declaring m) := by
  have hsignature : Proper (fun signature => methodSignature m = .ok signature)
      (methodSignature m) := by
    cases h : methodSignature m with
    | ok signature =>
        exact .ok rfl
    | error e =>
        rcases methodSignature_error h with ⟨type, rfl⟩
        exact .error rfl
  refine hsignature.bind fun signature h => ?_
  exact (draftCode_proper h _).bind fun code hcode => .ok ⟨rfl, h, hcode⟩

theorem callee_eq_own_iff {r : MethodRef} {name : String} :
    a.callee o r = .ok (.own name) ↔ (a.findMethod r).isSome ∧ name = r.fullName := by
  unfold Assembly.callee
  cases a.findMethod r with
  | some found =>
      simp [eq_comm]
  | none =>
      cases o.bridge.imports.find? (·.name == Handle.methodIdentifier a.name r) <;> simp

/-- A function of the module is named by a call. -/
theorem mem_named_own {x : Setting} {e : Emit} {name : String}
    (h : .call (.own name) ∈ e.named x) : ∃ r, e = .call r ∧ x.callee r = .ok (.own name) := by
  cases e with
  | call r =>
      cases hr : x.callee r with
      | ok callee =>
          rw [named_call_ok hr] at h
          cases List.mem_singleton.1 h
          exact ⟨r, rfl, hr⟩
      | error e =>
          rw [named_call_error hr] at h
          cases h
  | allocate =>
      simp [Emit.named] at h
  | handle name =>
      simp [Emit.named] at h
  | _ =>
      cases h

theorem mem_methodNames_of_named {name : String} {fullName : String}
    (h : .call (.own name) ∈ m.named (a.setting o) o fullName) : name ∈ a.methodNames := by
  unfold MethodDef.named at h
  split at h
  · simp at h
  · rcases List.mem_flatMap.1 h with ⟨i, -, hi⟩
    rcases List.mem_flatMap.1 hi with ⟨e, -, he⟩
    rcases mem_named_own he with ⟨r, rfl, hr⟩
    rcases callee_eq_own_iff.1 hr with ⟨hsome, rfl⟩
    rcases Option.isSome_iff_exists.1 hsome with ⟨found, hfound⟩
    rcases findMethod_ok hfound with ⟨hmem, hname⟩
    exact hname ▸ List.mem_map_of_mem hmem

/-- A draft asks only for functions that are methods. -/
theorem mem_methodNames_of_drafted {f : FunctionDraft}
    (hf : draftMethod (a.setting o) o declaring m = .ok f)
    (hmem : (m.ref declaring).fullName ∈ a.methodNames) : ∀ name ∈ f.functions,
    name ∈ a.methodNames := by
  rcases (draftMethod_proper declaring m).holds hf with ⟨hname, -, hnamed⟩
  intro name h
  rcases List.mem_cons.1 h with rfl | h
  · exact hname ▸ hmem
  · rcases List.mem_filterMap.1 h with ⟨op, hop, hfunction⟩
    have hnamed' : op ∈ m.named (a.setting o) o (m.ref declaring).fullName := by
      rw [← hnamed]
      refine List.mem_filter.2 ⟨hop, ?_⟩
      cases op with
      | plain op =>
          cases hfunction
      | _ =>
          rfl
    cases op with
    | call callee =>
        cases callee with
        | own name' =>
            cases hfunction
            exact mem_methodNames_of_named hnamed'
        | host d =>
            cases hfunction
    | plain op =>
        cases hfunction
    | globalGet name' =>
        cases hfunction

end Names

end CilCompiler
