import Mathlib.Data.List.NodupEquivFin
import CilCompiler.Proofs.Compiled
import CilCompiler.Proofs.Expansion

/-!
# Call linking

Calls are resolved by the parts of a reference, but functions are numbered by their full names, and
before their bodies exist. Here the two are brought together.

* `Instruction.callee?` is the method that an instruction calls; `Instruction.calls` are all
  functions that its operators call, given a numbering of methods.
* `Instruction.references` is all that an instruction names outside of its body, and
  `filter_of_select` says that its sequence names just that.
* `BodyLowered.callIndices_eq` says that the calls in lowered code are those of the instructions, in
  their order.
* `Built.exists_entry` is the bijection between methods and functions, and `build_links_calls` says
  where each call leads.
-/

namespace CilCompiler

open Wasm (Op)

/-! ## Calls of an instruction -/

/-- The method that an instruction calls. The constructor of the root is never called. -/
def Instruction.callee? (i : Instruction) : Option MethodRef :=
  match i.opcode, i.operand with
  | .call, .method r | .callvirt, .method r | .newobj, .method r =>
    if r.fullName = objectConstructor then none else some r
  | _, _ => none

/-- The functions that the operators of an instruction call, under a numbering of methods. -/
def Instruction.calls (index : MethodRef → Nat) (i : Instruction) : List Nat :=
  (if i.opcode = .newobj then [Tables.allocator] else []) ++ (i.callee?.map index).toList

/-- The functions that a step of a sequence calls. -/
def Emit.calls (index : MethodRef → Nat) : Emit → List Nat
  | .allocate => [Tables.allocator]
  | .call r => [index r]
  | _ => []

/-- The functions that operators call, in order. -/
def callIndices (ops : List Op) : List Nat :=
  ops.filterMap fun
    | .call index => some index
    | _ => none

theorem action_eq_call_iff {opcode : Opcode} :
    opcode.action = .call ↔ opcode = .call ∨ opcode = .callvirt := by
  cases opcode <;> decide

theorem action_eq_construct_iff {opcode : Opcode} :
    opcode.action = .construct ↔ opcode = .newobj := by
  cases opcode <;> decide

/-- The type that an instruction makes an object of. -/
def Instruction.constructed? (i : Instruction) : Option TypeName :=
  match i.opcode, i.operand with
  | .newobj, .method r => some r.declaring
  | _, _ => none

/-- Whether a step of a sequence names something outside of the body. -/
def Emit.isNaming : Emit → Bool
  | .handle _ | .allocate | .call _ => true
  | _ => false

/-- What an instruction in the assembly `home` names outside of the body, in order. -/
def Instruction.references (home : String) (i : Instruction) : List Emit :=
  (i.constructed?.map fun t => [.handle (Handle.typeHandle home t), .allocate]).getD [] ++
    (i.callee?.map .call).toList

section Selection

variable {i : Instruction} {home : String}

theorem references_eq_nil (hcall : i.opcode.action ≠ .call)
    (hconstruct : i.opcode.action ≠ .construct) : i.references home = [] := by
  rcases i with ⟨offset, opcode, operand⟩
  have hne := mt action_eq_call_iff.2 hcall
  have hne' := mt action_eq_construct_iff.2 hconstruct
  simp only [not_or] at hne
  have hnone : Instruction.callee? ⟨offset, opcode, operand⟩ = none := by
    unfold Instruction.callee?
    split
    · next h _ => exact absurd h hne.1
    · next h _ => exact absurd h hne.2
    · next h _ => exact absurd h hne'
    · rfl
  have hnone' : Instruction.constructed? ⟨offset, opcode, operand⟩ = none := by
    unfold Instruction.constructed?
    split
    · next h _ => exact absurd h hne'
    · rfl
  rw [Instruction.references, hnone, hnone']
  rfl

theorem references_of_call {r : MethodRef} (haction : i.opcode.action = .call)
    (hoperand : i.operand = .method r) :
    i.references home = (callSequence r).filter Emit.isNaming := by
  rcases i with ⟨offset, opcode, operand⟩
  cases hoperand
  rcases action_eq_call_iff.1 haction with rfl | rfl <;>
    by_cases hr : r.fullName = objectConstructor <;>
    simp only [Instruction.references, Instruction.callee?, callSequence, hr, if_true, if_false] <;>
    rfl

theorem filter_isNaming_map {α : Type} {f : α → Emit} (h : ∀ x, (f x).isNaming = false)
    (xs : List α) : (xs.map f).filter Emit.isNaming = [] := by
  refine List.filter_eq_nil_iff.2 ?_
  intro e he
  rcases List.mem_map.1 he with ⟨x, _, rfl⟩
  simp [h x]

theorem references_of_construct {r : MethodRef} (haction : i.opcode.action = .construct)
    (hoperand : i.operand = .method r) :
    i.references home = (constructSequence home r).filter Emit.isNaming := by
  rcases i with ⟨offset, opcode, operand⟩
  cases hoperand
  cases action_eq_construct_iff.1 haction
  have hstores : ((constructorArgs r).reverse.map Emit.store).filter Emit.isNaming = [] :=
    filter_isNaming_map (fun _ => rfl) _
  have hloads : (Emit.load .newObject :: (constructorArgs r).map Emit.load).filter
      Emit.isNaming = [] :=
    filter_isNaming_map (f := Emit.load) (fun _ => rfl) (.newObject :: constructorArgs r)
  by_cases hr : r.fullName = objectConstructor <;>
    simp only [Instruction.references, Instruction.callee?, constructSequence, hr, if_true,
      if_false, List.filter_append, hstores, hloads] <;>
    rfl

theorem filter_switchSequence (targets : List UInt32) :
    (switchSequence targets).filter Emit.isNaming = [] := by
  refine List.filter_eq_nil_iff.2 ?_
  intro e he
  rcases List.mem_cons.1 he with rfl | he
  · simp [Emit.isNaming]
  · rcases List.mem_flatMap.1 he with ⟨⟨target, n⟩, _, he⟩
    simp only [List.mem_cons, List.not_mem_nil, or_false] at he
    rcases he with rfl | rfl | rfl | rfl <;> simp [Emit.isNaming]

theorem exists_of_bind_pure_ok {α β ε : Type} {x : Except ε α} {f : α → β} {y : β}
    (h : (x >>= fun a => pure (f a)) = .ok y) : ∃ a, f a = y := by
  cases x with
  | error e =>
      cases h
  | ok a =>
      cases h
      exact ⟨a, rfl⟩

/-- Only calls and constructions select steps that name something. -/
theorem filter_of_select_eq_nil {a : Assembly} {headerSize : UInt32} {es : List Emit}
    (h : select a headerSize i = .ok es) (hcall : i.opcode.action ≠ .call)
    (hconstruct : i.opcode.action ≠ .construct) : es.filter Emit.isNaming = [] := by
  cases haction : i.opcode.action with
  | call =>
      exact absurd haction hcall
  | construct =>
      exact absurd haction hconstruct
  | fixed ops =>
      have hes : ops.map .op = es := by simpa [select, haction] using h
      rw [← hes]
      exact filter_isNaming_map (fun _ => rfl) ops
  | switch =>
      cases hoperand : i.operand with
      | targets ts =>
          have hes : switchSequence ts = es := by simpa [select, haction, hoperand] using h
          rw [← hes]
          exact filter_switchSequence ts
      | _ =>
          simp [select, haction, hoperand] at h
  | branch test conditional =>
      cases hoperand : i.operand with
      | target t =>
          have hes : test.map .op ++ [.branch t conditional] = es := by
            simpa [select, haction, hoperand] using h
          rw [← hes, List.filter_append, filter_isNaming_map (fun _ => rfl) test]
          rfl
      | _ =>
          simp [select, haction, hoperand] at h
  | loadField =>
      cases hoperand : i.operand with
      | field f =>
          simp only [select, haction, hoperand] at h
          rcases exists_of_bind_pure_ok h with ⟨offset, rfl⟩
          rfl
      | _ =>
          simp [select, haction, hoperand] at h
  | storeField =>
      cases hoperand : i.operand with
      | field f =>
          simp only [select, haction, hoperand] at h
          rcases exists_of_bind_pure_ok h with ⟨offset, rfl⟩
          rfl
      | _ =>
          simp [select, haction, hoperand] at h
  | _ =>
      -- a fixed sequence, or one with the operand in it
      cases hoperand : i.operand <;> simp only [select, haction, hoperand] at h <;> cases h <;> rfl

/-- The sequence of an instruction names what the instruction does. -/
theorem filter_of_select {a : Assembly} {headerSize : UInt32} {es : List Emit}
    (h : select a headerSize i = .ok es) : es.filter Emit.isNaming = i.references a.name := by
  cases haction : i.opcode.action with
  | call =>
      cases hoperand : i.operand with
      | method r =>
          have hes : callSequence r = es := by simpa [select, haction, hoperand] using h
          rw [references_of_call haction hoperand, hes]
      | _ =>
          simp [select, haction, hoperand] at h
  | construct =>
      cases hoperand : i.operand with
      | method r =>
          have hes : constructSequence a.name r = es := by
            simpa [select, haction, hoperand] using h
          rw [references_of_construct haction hoperand, hes]
      | _ =>
          simp [select, haction, hoperand] at h
  | _ =>
      have hcall : i.opcode.action ≠ .call := by simp [haction]
      have hconstruct : i.opcode.action ≠ .construct := by simp [haction]
      rw [filter_of_select_eq_nil h hcall hconstruct, references_eq_nil hcall hconstruct]

/-- What is read off the naming steps of a sequence can be read off the references. -/
theorem flatMap_of_select {α : Type} {f : Emit → List α} (hf : ∀ e, e.isNaming = false → f e = [])
    {a : Assembly} {headerSize : UInt32} {es : List Emit} (h : select a headerSize i = .ok es) :
    es.flatMap f = (i.references a.name).flatMap f := by
  rw [← filter_of_select h]
  clear h
  induction es with
  | nil =>
      rfl
  | cons e es ih =>
      cases he : e.isNaming with
      | true =>
          rw [List.filter_cons_of_pos he, List.flatMap_cons, List.flatMap_cons, ih]
      | false =>
          rw [List.filter_cons_of_neg (by simp [he]), List.flatMap_cons, hf e he, ih]
          rfl

/-- An object is made only of a type that is named. -/
theorem constructed?_of_select {a : Assembly} {headerSize : UInt32} {es : List Emit}
    (h : select a headerSize i = .ok es) : i.constructed?.isSome ↔ i.opcode = .newobj := by
  rcases i with ⟨offset, opcode, operand⟩
  constructor
  · intro hsome
    unfold Instruction.constructed? at hsome
    split at hsome
    · assumption
    · cases hsome
  · rintro rfl
    cases operand with
    | method r =>
        rfl
    | _ =>
        cases h

/-- The sequence of an instruction calls what the instruction calls. -/
theorem calls_of_select {a : Assembly} {headerSize : UInt32} {es : List Emit}
    (h : select a headerSize i = .ok es) (index : MethodRef → Nat) :
    es.flatMap (Emit.calls index) = i.calls index := by
  have hlocal : ∀ e : Emit, e.isNaming = false → e.calls index = [] := by
    intro e he
    cases e with
    | allocate =>
        cases he
    | call r =>
        cases he
    | _ =>
        rfl
  rw [flatMap_of_select hlocal h, Instruction.references, Instruction.calls, List.flatMap_append]
  congr 1
  · cases hc : i.constructed? with
    | none =>
        have hne : i.opcode ≠ .newobj := by
          rw [Ne, ← constructed?_of_select h, hc]
          simp
        rw [if_neg hne]
        rfl
    | some t =>
        rw [if_pos ((constructed?_of_select h).1 (by simp [hc]))]
        rfl
  · cases i.callee? with
    | none =>
        rfl
    | some r =>
        rfl

/-- The method that an instruction calls is called in its sequence. -/
theorem call_mem_of_select {a : Assembly} {headerSize : UInt32} {es : List Emit}
    (h : select a headerSize i = .ok es) {r : MethodRef} (hr : i.callee? = some r) :
    .call r ∈ es := by
  have hmem : .call r ∈ es.filter Emit.isNaming := by
    rw [filter_of_select h, Instruction.references, hr]
    simp
  exact (List.mem_filter.1 hmem).1

end Selection

/-! ## Calls of lowered code -/

/-- The numbering that tables give, zero for methods without an index. -/
def Tables.index (tables : Tables) (a : Assembly) (r : MethodRef) : Nat :=
  (tables.callee a r).getD 0

theorem index_of_callee {tables : Tables} {a : Assembly} {r : MethodRef} {n : Nat}
    (h : tables.callee a r = some n) : tables.index a r = n := by
  rw [Tables.index, h, Option.getD_some]

section Lowered

variable {l : Linkage} {c : Cursor} {index : MethodRef → Nat}

theorem callIndices_append (ops ops' : List Op) :
    callIndices (ops ++ ops') = callIndices ops ++ callIndices ops' := by
  simp [callIndices]

theorem callIndices_replicate {op : Op} (h : callIndices [op] = []) (n : Nat) :
    callIndices (List.replicate n op) = [] := by
  induction n with
  | zero =>
      rfl
  | succ n ih =>
      have hsplit := callIndices_append [op] (List.replicate n op)
      rw [h, ih] at hsplit
      exact hsplit

theorem callIndices_jump (conditional : Bool) (label : Nat) :
    callIndices [jump conditional label] = [] := by
  cases conditional <;> rfl

theorem callIndices_of_isSimple {op : Op} (h : op.isSimple) : callIndices [op] = [] := by
  cases op <;> first | rfl | cases h

theorem callIndices_epilogue (hasResult : Bool) : callIndices (epilogue hasResult) = [] := by
  cases hasResult <;> rfl

/-- The numbering agrees with the linkage. -/
def Numbers (index : MethodRef → Nat) (l : Linkage) : Prop :=
  ∀ r i, l.tables.callee l.assembly r = some i → index r = i

theorem Emit.Linked.callIndices_eq (hn : Numbers index l) {e : Emit} {ops : List Op}
    (h : e.Linked l c ops) (he : e.isSimple) : callIndices ops = e.calls index := by
  cases h with
  | op o =>
      exact callIndices_of_isSimple he
  | forward _ =>
      exact callIndices_jump _ _
  | @backward target conditional resume label i _ _ =>
      have hsplit := callIndices_append [.const (Int32.ofNat resume), .localSet i]
        [jump conditional label]
      rw [callIndices_jump] at hsplit
      exact hsplit
  | call hr =>
      simp [callIndices, Emit.calls, hn _ _ hr]
  | _ =>
      rfl

theorem LinkedAll.callIndices_eq (hn : Numbers index l) {es : List Emit} {ops : List Op}
    (h : LinkedAll l c es ops) (hes : ∀ e ∈ es, e.isSimple) :
    callIndices ops = es.flatMap (Emit.calls index) := by
  induction h with
  | nil =>
      rfl
  | cons he _ ih =>
      rw [callIndices_append, List.flatMap_cons, he.callIndices_eq hn (hes _ (by simp)),
        ih fun e h => hes e (by simp [h])]

theorem LoweredFrom.callIndices_eq (hn : Numbers index l) {is : List Instruction} {ops : List Op}
    (h : LoweredFrom l c is ops) : callIndices ops = is.flatMap (Instruction.calls index) := by
  induction h with
  | nil c =>
      exact callIndices_replicate rfl c.openRegions
  | @cons c i is es ops rest hselect hlinked _ ih =>
      rw [callIndices_append, callIndices_append, callIndices_replicate rfl, List.nil_append, ih,
        hlinked.callIndices_eq hn (isSimple_of_select hselect), calls_of_select hselect index,
        List.flatMap_cons]

theorem LinkedAll.callee_ok {es : List Emit} {ops : List Op} (h : LinkedAll l c es ops)
    {r : MethodRef} (hr : .call r ∈ es) : ∃ n, l.tables.callee l.assembly r = some n := by
  induction h with
  | nil =>
      cases hr
  | cons he _ ih =>
      rcases List.mem_cons.1 hr with rfl | hr
      · cases he with
        | call hn =>
            exact ⟨_, hn⟩
      · exact ih hr

/-- Every method that lowered code calls has an index. -/
theorem LoweredFrom.callee_ok {is : List Instruction} {ops : List Op} (h : LoweredFrom l c is ops)
    {i : Instruction} (hi : i ∈ is) {r : MethodRef} (hr : i.callee? = some r) :
    ∃ n, l.tables.callee l.assembly r = some n := by
  induction h with
  | nil c =>
      cases hi
  | cons hselect hlinked _ ih =>
      rcases List.mem_cons.1 hi with rfl | hi
      · exact hlinked.callee_ok (call_mem_of_select hselect hr)
      · exact ih hi

theorem BodyLowered.callee_ok {hasResult : Bool} {body : MethodBody} {ops : List Op}
    (h : BodyLowered l hasResult body ops) {i : Instruction} (hi : i ∈ body.instructions)
    {r : MethodRef} (hr : i.callee? = some r) : ∃ n, l.tables.callee l.assembly r = some n := by
  cases h with
  | empty hnil =>
      rw [hnil] at hi
      cases hi
  | code _ _ _ hlowered =>
      exact hlowered.callee_ok hi hr

theorem Dispatched.callIndices_eq {size : Nat} {table : List Op} (h : Dispatched l size table) :
    callIndices table = [] := by
  cases h <;> rfl

/-- Lowered code calls what the instructions call, in their order. -/
theorem BodyLowered.callIndices_eq (hn : Numbers index l) {hasResult : Bool} {body : MethodBody}
    {ops : List Op} (h : BodyLowered l hasResult body ops) :
    callIndices ops = body.instructions.flatMap (Instruction.calls index) := by
  cases h with
  | empty hnil =>
      rw [hnil]
      exact callIndices_epilogue hasResult
  | @code schedule table code _ _ hdispatched hlowered =>
      have hloop : ∀ ops : List Op, callIndices (.loop :: ops) = callIndices ops := fun _ => rfl
      have hblock : callIndices [.block] = [] := rfl
      have hclose : callIndices [.close] = [] := rfl
      simp only [List.cons_append]
      rw [hloop]
      simp only [callIndices_append, callIndices_replicate hblock, hdispatched.callIndices_eq,
        hlowered.callIndices_eq hn, hclose, callIndices_epilogue, List.nil_append, List.append_nil]

end Lowered

/-! ## Methods and functions -/

theorem exists_equiv_of_nodup {α : Type} [DecidableEq α] {xs ys : List α} (hxs : xs.Nodup)
    (hys : ys.Nodup) (h : ∀ x, x ∈ xs ↔ x ∈ ys) :
    ∃ e : Fin xs.length ≃ Fin ys.length, ∀ k, ys.get (e k) = xs.get k := by
  let same : { x // x ∈ xs } ≃ { x // x ∈ ys } := Equiv.subtypeEquivRight h
  refine ⟨((hxs.getEquiv xs).trans same).trans (hys.getEquiv ys).symm, ?_⟩
  intro k
  have hback := (hys.getEquiv ys).apply_symm_apply (same (hxs.getEquiv xs k))
  exact congrArg Subtype.val hback

section Modules

variable {a : Assembly} {o : Options} {tables : Tables} {image : Image}

/-- Methods and functions correspond one to one. -/
theorem Built.exists_entry (h : Built a o image tables) :
    ∃ entry : Fin a.methods.length ≃ Fin image.functions.length, ∀ k,
      Compiles a o tables (a.methods.get k).1 (a.methods.get k).2
        (image.functions.get (entry k)) := by
  have hdefinitions : tables.definitions.Nodup := List.Nodup.of_map _ h.names
  have hfunctions : image.functions.Nodup := by
    have hnames := h.distinct
    rw [← h.names_eq] at hnames
    exact List.Nodup.of_map _ hnames
  rcases exists_equiv_of_nodup hdefinitions hfunctions fun d => h.mem_functions_iff.symm with
    ⟨e, he⟩
  -- definitions stand in the order of the methods, functions in the order of the requests
  have hlength := h.compiled.length_eq
  refine ⟨(finCongr hlength).trans e, ?_⟩
  intro k
  have hcompiles := (List.forall₂_iff_get.1 h.compiled).2 k k.isLt (hlength ▸ k.isLt)
  have hentry : image.functions.get (e (finCongr hlength k)) =
      tables.definitions.get (finCongr hlength k) := he _
  rw [Equiv.trans_apply, hentry]
  exact hcompiles

/-- A reference that means a method means one of its own full name. -/
theorem findMethod_ok {r : MethodRef} {t : TypeDef} {m : MethodDef}
    (h : a.findMethod r = some (t, m)) :
    (t, m) ∈ a.methods ∧ (m.ref t.name).fullName = r.fullName := by
  unfold Assembly.findMethod at h
  cases ht : a.findType r.declaring with
  | none =>
      rw [ht] at h
      cases h
  | some t' =>
      rw [ht] at h
      rcases Option.map_eq_some_iff.1 h with ⟨m', hm', heq⟩
      cases heq
      have htypes : t ∈ a.types := by
        unfold Assembly.findType at ht
        split at ht
        · exact List.mem_of_find?_eq_some ht
        · cases ht
      have hnamed := List.find?_some hm'
      simp only [MethodDef.isNamedBy, Bool.and_eq_true, beq_iff_eq] at hnamed
      rcases hnamed with ⟨⟨⟨hname, hdeclaring⟩, hresult⟩, hparams⟩
      refine ⟨?_, ?_⟩
      · refine List.mem_flatMap.2 ⟨t, htypes, ?_⟩
        exact List.mem_map_of_mem (List.mem_of_find?_eq_some hm')
      · simp only [MethodRef.fullName, MethodDef.ref, hname, hdeclaring, hresult, hparams]

/-- Where a call of `r` leads: to the entry of the method that it means, or to the slot that holds
the first method of the host with its identifier, and no other does. -/
inductive LinksTo (a : Assembly) (o : Options) (image : Image)
    (entry : Fin a.methods.length ≃ Fin image.functions.length) (r : MethodRef) : Nat → Prop
  | own {k : Fin a.methods.length} :
      a.findMethod r = some (a.methods.get k) →
      LinksTo a o image entry r (image.imports.length + entry k)
  | host {decl : Host.ImportDecl} {type index : Nat} :
      a.findMethod r = none →
      o.bridge.imports.find? (·.name == Handle.methodIdentifier a.name r) = some decl →
      image.imports[index]? = some ⟨decl.module, decl.name, type⟩ →
      image.types[type]? = some decl.signature → o.fixedImports ≤ index →
      (∀ n f, o.fixedImports ≤ n → image.imports[n]? = some f → f.name = decl.name → n = index) →
      LinksTo a o image entry r index

/-- Every call leads where the reference says. -/
theorem Built.linksTo (h : Built a o image tables)
    {entry : Fin a.methods.length ≃ Fin image.functions.length}
    (hentry : ∀ k, Compiles a o tables (a.methods.get k).1 (a.methods.get k).2
      (image.functions.get (entry k)))
    {r : MethodRef} {n : Nat} (hn : tables.callee a r = some n) : LinksTo a o image entry r n := by
  rcases h.callee_cases hn with ⟨⟨t, m⟩, k, d, hfound, rfl, hd, hname⟩ |
    ⟨hnone, hle, decl, type, hfirst, himport, htype, hunique⟩
  · -- the reference and the method it means have one full name, and so has one function
    rcases findMethod_ok hfound with ⟨hmem, hfull⟩
    rcases List.mem_iff_get.1 hmem with ⟨k', hk'⟩
    have hget : image.functions[(entry k' : Nat)]? = some (image.functions.get (entry k')) :=
      List.getElem?_eq_getElem (entry k').isLt
    have hname' : (image.functions.get (entry k')).function.name = r.fullName := by
      rw [(hentry k').name, hk']
      exact hfull
    have hk : k = entry k' := h.index_eq_of_name hd hget (hname.trans hname'.symm)
    rw [hk]
    exact .own (hfound.trans (congrArg some hk'.symm))
  · have hdecl : decl.name = Handle.methodIdentifier a.name r := by
      simpa using List.find?_some hfirst
    rw [← hdecl] at himport hunique
    exact .host hnone hfirst himport htype hle hunique

/-- The functions of a module are the methods of its assembly, in some order, and every call in the
code of a method leads to the function that its reference means: `index` numbers the references,
and the operators of a body call just the numbers of what its instructions call. -/
theorem build_links_calls (h : build a o = .ok image) :
    ∃ (entry : Fin a.methods.length ≃ Fin image.functions.length) (index : MethodRef → Nat),
      (∀ k, CompiledFrom a o (a.methods.get k).1 (a.methods.get k).2
        (image.functions.get (entry k))) ∧
      ∀ k body, o.isInterop ((a.methods.get k).2.ref (a.methods.get k).1.name).fullName = false →
        (a.methods.get k).2.body = some body →
        callIndices (image.functions.get (entry k)).function.body =
            body.instructions.flatMap (Instruction.calls index) ∧
          ∀ i ∈ body.instructions, ∀ r, i.callee? = some r →
            LinksTo a o image entry r (index r) := by
  rcases build_ok h with ⟨tables, hbuilt⟩
  rcases hbuilt.exists_entry with ⟨entry, hentry⟩
  refine ⟨entry, tables.index a, fun k => (hentry k).toCompiledFrom, ?_⟩
  intro k body hown hbody
  rw [← (hentry k).name] at hown
  rcases (hentry k).body.bodyLowered hown hbody with ⟨slots, _, _, hlowered⟩
  refine ⟨hlowered.callIndices_eq fun r n hn => index_of_callee hn, ?_⟩
  intro i hi r hr
  rcases hlowered.callee_ok hi hr with ⟨n, hn⟩
  rw [index_of_callee hn]
  exact hbuilt.linksTo hentry hn

end Modules

theorem Counting.links_calls :
    ∃ (entry : Fin assembly.methods.length ≃ Fin image.functions.length) (index : MethodRef → Nat),
      callIndices (image.functions.get (entry ⟨0, by decide⟩)).function.body =
          [index (lower.ref counter), index writeLine, 0, index (constructor.ref counter)] ∧
        LinksTo assembly options image entry (lower.ref counter) (index (lower.ref counter)) ∧
        LinksTo assembly options image entry writeLine (index writeLine) ∧
        LinksTo assembly options image entry (constructor.ref counter)
          (index (constructor.ref counter)) := by
  rcases build_links_calls build_eq with ⟨entry, index, _, hlinks⟩
  rcases hlinks ⟨0, by decide⟩ countBody (by decide +kernel) rfl with ⟨hcalls, hcallees⟩
  refine ⟨entry, index, ?_, ?_, ?_, ?_⟩
  · rw [hcalls]
    rfl
  · exact hcallees ⟨7, .call, .method (lower.ref counter)⟩ (by decide) _ (by decide +kernel)
  · exact hcallees ⟨17, .call, .method writeLine⟩ (by decide) _ (by decide +kernel)
  · exact hcallees ⟨24, .newobj, .method (constructor.ref counter)⟩ (by decide) _
      (by decide +kernel)

end CilCompiler
