import CilCompiler.Image.Validation
import CilCompiler.Proofs.CallLinking
import CilCompiler.Proofs.Shapes
import CilCompiler.Proofs.WellFormed

/-!
# Valid bodies

The validator follows operators through nested regions, with the jumps out of them and the code that
no jump gets to. For compiled bodies all of this comes down to one walk over the instructions.

* `Types` says that the validator knows the kinds of everything that lowered code names.
* `LoweredFrom.run_eq` is the invariant: between instructions the validator is in the state of a
  shape, and moves as the walk does.
* `BodyLowered.isValidBody_eq` draws the conclusion for bodies, `isValidBody_iff_balances` for the
  functions of a module.
-/

namespace CilCompiler

open Wasm
open Shape

/-! ## Running the validator -/

section Run

variable {typing : Typing}

theorem run_cons (c : Checker) (op : Op) (ops : List Op) :
    Checker.run typing c (op :: ops) =
      (Checker.step typing c op).bind fun c => Checker.run typing c ops := by
  unfold Checker.run
  rw [List.foldlM_cons]
  rfl

theorem run_append (c : Checker) (ops ops' : List Op) :
    Checker.run typing c (ops ++ ops') =
      (Checker.run typing c ops).bind fun c => Checker.run typing c ops' := by
  unfold Checker.run
  rw [List.foldlM_append]
  rfl

theorem run_singleton (c : Checker) (op : Op) :
    Checker.run typing c [op] = Checker.step typing c op := by
  rw [run_cons]
  exact Option.bind_fun_some _

end Run

/-! ## Lowered code -/

/-- The validator knows the kinds of what lowered code names, and the walk the signatures of what
it calls. -/
structure Types (x : Walk) (typing : Typing) (l : Linkage) : Prop where
  assembly : x.assembly = l.assembly
  headerSize : x.headerSize = l.headerSize
  slot {y : Slot} {i : Nat} : l.slots.find? y = some ⟨i, .i32⟩ → typing.locals[i]? = some .i32
  global {name : String} {i : Nat} : l.tables.globals.find? name = some i → i < typing.globals
  allocator : typing.functions[Tables.allocator]? = some ⟨[.i32], some .i32⟩
  callee {r : MethodRef} {i : Nat} :
    l.tables.callee l.assembly r = some i → x.callee r = typing.functions[i]?
  words : ∀ s ∈ typing.functions, s.isWords

section Lowered

variable {x : Walk} {typing : Typing} {l : Linkage} {c : Cursor} {result : Option ValueKind}

theorem emit_op {op : Op} (h : op ≠ .ret) (w : Shape) :
    x.emit w (.op op) = (w.pops op.taken).map (Shape.push op.left) := by
  cases op with
  | ret =>
      exact absurd rfl h
  | _ =>
      rfl

theorem run_jump {conditional : Bool} {label n : Nat} (h : label ≤ n) (target : UInt32)
    (w : Shape) :
    Checker.run typing (w.checker result n) [jump conditional label] =
      (x.emit w (.branch target conditional)).map (checker result n) := by
  rw [run_singleton]
  cases conditional with
  | false =>
      exact step_br h w
  | true =>
      exact step_brIf h w

/-- The validator goes through the operators of one step as the walk does. -/
theorem Emit.Linked.run_eq (ht : Types x typing l) (hx : x.hasResult = result.isSome)
    (hresult : ∀ kind ∈ result, kind = .i32) {e : Emit} {ops : List Op} (h : e.Linked l c ops)
    (he : e.isSimple) (w : Shape) :
    Checker.run typing (w.checker result c.openRegions) ops =
      (x.emit w e).map (checker result c.openRegions) := by
  cases h with
  | op operator =>
      rw [run_singleton]
      by_cases hret : operator = .ret
      · subst hret
        have hemit : x.emit w (.op .ret) =
            (w.pops (if result.isSome then 1 else 0)).map fun _ => .dead := by
          rw [← hx]
          rfl
        rw [hemit]
        exact step_ret hresult w
      · rw [emit_op hret]
        exact step_simple he hret w
  | load hslot =>
      rw [run_singleton]
      exact step_localGet (ht.slot hslot) w
  | store hslot =>
      rw [run_singleton]
      exact step_localSet (ht.slot hslot) w
  | @forward target conditional label hreach =>
      rcases Cursor.reach_cases hreach with ⟨t, hget, ⟨hle, heq⟩ | ⟨_, heq⟩⟩
      · cases heq
        rcases List.getElem?_eq_some_iff.1 hget with ⟨hlt, _⟩
        have hlabel : t - c.next ≤ c.openRegions := Nat.sub_le_sub_right (Nat.le_of_lt hlt) _
        exact run_jump hlabel target w
      · cases heq
  | @backward target conditional resume label i hreach hslot =>
      rcases Cursor.reach_cases hreach with ⟨t, _, ⟨_, heq⟩ | ⟨_, heq⟩⟩
      · cases heq
      · cases heq
        -- the number that is stored goes onto the operands and comes off again
        have hconst : Checker.step typing (w.checker result c.openRegions)
            (.const (Int32.ofNat (t + 1))) = some ((w.push 1).checker result c.openRegions) := rfl
        rw [run_cons, hconst, Option.bind_some, run_cons, step_localSet (ht.slot hslot)]
        exact run_jump (Nat.le_refl _) target w
  | handle hglobal =>
      rw [run_singleton]
      exact step_globalGet (ht.global hglobal) w
  | allocate =>
      rw [run_singleton, Shape.step_call ht.words, ht.allocator, Option.bind_some]
      have hpops : w.pops [ValueKind.i32].length = w.pops 1 := rfl
      rw [hpops]
      cases h : w.pops 1 with
      | none =>
          simp [Walk.emit, h]
      | some w' =>
          simp [Walk.emit, h]
  | call hcallee =>
      rw [run_singleton, Shape.step_call ht.words, ← ht.callee hcallee]
      rfl

theorem LinkedAll.run_eq (ht : Types x typing l) (hx : x.hasResult = result.isSome)
    (hresult : ∀ kind ∈ result, kind = .i32) {es : List Emit} {ops : List Op}
    (h : LinkedAll l c es ops) (hes : ∀ e ∈ es, e.isSimple) (w : Shape) :
    Checker.run typing (w.checker result c.openRegions) ops =
      (es.foldlM x.emit w).map (checker result c.openRegions) := by
  induction h generalizing w with
  | nil =>
      rfl
  | @cons e es ops rest he _ ih =>
      rw [run_append, he.run_eq ht hx hresult (hes e (by simp)), List.foldlM_cons]
      cases x.emit w e with
      | none =>
          rfl
      | some w' =>
          exact ih (fun e' h => hes e' (by simp [h])) w'

/-- Moving to the next instruction closes a region exactly at a branch target. -/
theorem run_closes {i : Instruction} {is : List Instruction} (hstands : c.Stands (i :: is))
    (w : Shape) :
    Checker.run typing (w.checker result c.openRegions)
        (List.replicate (c.closing i.offset) .close) =
      (w.before c.schedule.targets i.offset).map
        (checker result (c.advance i.offset).openRegions) := by
  have hopen := c.openRegions_advance i.offset
  rcases hstands.advance.2 with ⟨hmem, hclosing, _⟩ | ⟨hmem, hclosing⟩
  · -- the region around is one that nothing has stopped in
    rw [before, if_pos hmem, ← hopen, hclosing, List.replicate_one, run_singleton]
    exact leave_checker w
  · rw [before, if_neg hmem, ← hopen, hclosing]
    rfl

/-- The validator goes through lowered code as the walk goes through the instructions, and ends
inside the loop. -/
theorem LoweredFrom.run_eq (ht : Types x typing l) (hx : x.hasResult = result.isSome)
    (hresult : ∀ kind ∈ result, kind = .i32) {is : List Instruction} {code : List Op}
    (h : LoweredFrom l c is code) (hstands : c.Stands is) (w : Shape) :
    Checker.run typing (w.checker result c.openRegions) code =
      (x.instructions c.schedule.targets w is).map (checker result 0) := by
  -- the induction is on the instructions that are left; before each of them the innermost region
  -- holds all the operands there are
  induction h generalizing w with
  | nil c =>
      rw [hstands.openRegions_nil]
      rfl
  | @cons c i is es ops rest hselect hlinked _ ih =>
      have hsequence : (select x.assembly x.headerSize i).toOption = some es := by
        rw [ht.assembly, ht.headerSize, hselect]
        rfl
      have hinstruction : x.instruction c.schedule.targets w i =
          (w.before c.schedule.targets i.offset).bind (es.foldlM x.emit) := by
        unfold Walk.instruction
        rw [hsequence]
        rfl
      have hinstructions : x.instructions c.schedule.targets w (i :: is) =
          (x.instruction c.schedule.targets w i).bind fun w =>
            x.instructions c.schedule.targets w is := by
        unfold Walk.instructions
        rw [List.foldlM_cons]
        rfl
      rw [run_append, run_append, run_closes hstands, hinstructions, hinstruction]
      cases w.before c.schedule.targets i.offset with
      | none =>
          rfl
      | some w₁ =>
          simp only [Option.map_some, Option.bind_some]
          rw [hlinked.run_eq ht hx hresult (isSimple_of_select hselect)]
          cases es.foldlM x.emit w₁ with
          | none =>
              rfl
          | some w₂ =>
              exact ih hstands.advance.1 w₂

/-! ## Bodies -/

theorem run_blocks (k n : Nat) (ops : List Op) :
    Checker.run typing (start.checker result n) (List.replicate k .block ++ ops) =
      Checker.run typing (start.checker result (n + k)) ops := by
  induction k generalizing n with
  | zero =>
      rfl
  | succ k ih =>
      have hstep : Checker.step typing (start.checker result n) .block =
          some (start.checker result (n + 1)) := rfl
      rw [List.replicate_succ, List.cons_append, run_cons, hstep, Option.bind_some, ih,
        Nat.add_right_comm]
      rfl

/-- The dispatch leaves everything as it was. -/
theorem Dispatched.run_eq (ht : Types x typing l) {size : Nat} {table : List Op}
    (h : Dispatched l size table) :
    Checker.run typing (start.checker result size) table = some (start.checker result size) := by
  cases h with
  | none =>
      rfl
  | @table size i _ hslot =>
      have hblock : Checker.step typing (start.checker result size) .block =
          some (start.checker result (size + 1)) := rfl
      have hget : Checker.step typing (start.checker result (size + 1)) (.localGet i) =
          some ((start.push 1).checker result (size + 1)) := step_localGet (ht.slot hslot) start
      have htable : Checker.step typing ((start.push 1).checker result (size + 1))
          (.brTable (List.range size) size) = some (dead.checker result (size + 1)) := by
        refine step_brTable ?_ (Nat.le_succ size) rfl
        intro label hlabel
        exact Nat.le_succ_of_le (Nat.le_of_lt (List.mem_range.1 hlabel))
      have hclose : Checker.step typing (dead.checker result (size + 1)) .close =
          some (start.checker result size) := leave_checker dead
      rw [run_cons, hblock, Option.bind_some, run_cons, hget, Option.bind_some, run_cons, htable,
        Option.bind_some, run_singleton, hclose]

/-- Behind the loop the validator is back where it started. -/
theorem leave_loop (w : Shape) :
    (w.checker result 0).leave = if w.height = 0 then some (Checker.start result) else none := by
  rcases w with ⟨_ | height, live⟩
  · rfl
  · rfl

theorem isValidBody_epilogue (typing : Typing) (result : Option ValueKind) :
    isValidBody typing result (epilogue result.isSome) = true := by
  cases result with
  | none =>
      rfl
  | some kind =>
      rfl

/-- The validator on a whole body: what matters is the walk. -/
theorem run_code (ht : Types x typing l) (hx : x.hasResult = result.isSome)
    (hresult : ∀ kind ∈ result, kind = .i32) {body : MethodBody} {schedule : Schedule}
    {table code : List Op} (hanalyzed : Schedule.analyze body = .ok schedule)
    (hdispatched : Dispatched l schedule.size table)
    (hlowered : LoweredFrom l { schedule } body.instructions code) (ops : List Op) :
    Checker.run typing (Checker.start result)
        (.loop :: (List.replicate schedule.size .block ++ (table ++ (code ++ .close :: ops)))) =
      (x.instructions schedule.targets start body.instructions).bind fun w =>
        (w.checker result 0).leave.bind fun c => Checker.run typing c ops := by
  have hloop : Checker.step typing (Checker.start result) .loop =
      some (start.checker result 0) := rfl
  have hcode : Checker.run typing (start.checker result schedule.size) code =
      (x.instructions schedule.targets start body.instructions).map (checker result 0) :=
    hlowered.run_eq ht hx hresult (Cursor.stands_start hanalyzed) start
  calc
    Checker.run typing (Checker.start result)
        (.loop :: (List.replicate schedule.size .block ++ (table ++ (code ++ .close :: ops))))
        = Checker.run typing (start.checker result schedule.size)
            (table ++ (code ++ .close :: ops)) := by
          rw [run_cons, hloop, Option.bind_some, run_blocks, Nat.zero_add]
    _ = (Checker.run typing (start.checker result schedule.size) code).bind fun c =>
          Checker.run typing c (.close :: ops) := by
          rw [run_append, hdispatched.run_eq ht, Option.bind_some, run_append]
    _ = (x.instructions schedule.targets start body.instructions).bind fun w =>
          (w.checker result 0).leave.bind fun c => Checker.run typing c ops := by
          rw [hcode, Option.bind_map]
          rfl

/-- A body is valid if the walk over its instructions succeeds, and only then. -/
theorem BodyLowered.isValidBody_eq (ht : Types x typing l) (hx : x.hasResult = result.isSome)
    (hresult : ∀ kind ∈ result, kind = .i32) {body : MethodBody} {ops : List Op}
    (h : BodyLowered l result.isSome body ops) :
    isValidBody typing result ops = x.balances body := by
  cases h with
  | empty hnil =>
      have hbalances : x.balances body = true := by
        simp [Walk.balances, hnil, Walk.instructions, Shape.start]
      rw [hbalances]
      exact isValidBody_epilogue typing result
  | @code schedule table code _ hanalyzed hdispatched hlowered =>
      have htargets : body.targets = schedule.targets := by
        rw [MethodBody.targets, hanalyzed]
      have hrun := run_code ht hx hresult hanalyzed hdispatched hlowered (epilogue result.isSome)
      have hops : .loop :: List.replicate schedule.size .block ++ table ++ code ++ [.close] ++
          epilogue result.isSome = .loop :: (List.replicate schedule.size .block ++
          (table ++ (code ++ .close :: epilogue result.isSome))) := by
        simp
      rw [hops, isValidBody, hrun, Walk.balances, htargets]
      cases x.instructions schedule.targets start body.instructions with
      | none =>
          rfl
      | some w =>
          simp only [Option.bind_some, leave_loop]
          by_cases hheight : w.height = 0
          · have hepilogue := isValidBody_epilogue typing result
            rw [isValidBody] at hepilogue
            rw [if_pos hheight, Option.bind_some, hepilogue]
            simp [hheight]
          · rw [if_neg hheight]
            simp [hheight]

end Lowered

/-! ## Modules -/

/-- What the body of a function of a module can name, as the validation of the module has it. -/
def Image.typing (image : Image) (f : Function) : Typing where
  locals := f.signature.params ++ f.locals
  functions := image.functionSignatures
  globals := image.globals.length

section Modules

variable {a : Assembly} {o : Options} {tables : Tables} {image : Image} {m : MethodDef}

theorem valueKind_ok {type : TypeSig} {kind : ValueKind} (h : valueKind type = .ok kind) :
    kind = .i32 := by
  cases type <;> cases h <;> rfl

theorem resultKind_ok {type : TypeSig} {result : Option ValueKind}
    (h : resultKind type = .ok result) : ∀ kind ∈ result, kind = .i32 := by
  unfold resultKind at h
  split at h
  · cases h
    intro kind hkind
    cases hkind
  · cases hv : valueKind type with
    | error e =>
        rw [hv] at h
        cases h
    | ok kind' =>
        rw [hv] at h
        cases h
        intro kind hkind
        cases hkind
        exact valueKind_ok hv

/-- Methods take and return nothing but words. -/
theorem isWords_methodSignature {s : Signature} (h : methodSignature m = .ok s) : s.isWords := by
  unfold methodSignature at h
  cases hp : m.params.mapM (valueKind ·.type) with
  | error e =>
      rw [hp] at h
      cases h
  | ok params =>
      rw [hp] at h
      cases hr : resultKind m.result with
      | error e =>
          simp [hr, bind, Except.bind] at h
      | ok result =>
          have hs : ⟨(if m.hasThis then [.i32] else []) ++ params, result⟩ = s := by
            simpa [hr, bind, Except.bind, pure, Except.pure] using h
          have hparams : ∀ kind ∈ params, kind = .i32 := by
            intro kind hkind
            rcases exists_of_forall₂_right (forall₂_of_mapM_ok hp) hkind with ⟨param, _, hv⟩
            exact valueKind_ok hv
          subst hs
          refine isWords_iff.2 ⟨?_, resultKind_ok hr⟩
          intro kind hkind
          rcases List.mem_append.1 hkind with hthis | hkind
          · split at hthis
            · exact List.mem_singleton.1 hthis
            · cases hthis
          · exact hparams kind hkind

/-- Everything that a module calls takes and returns words, if the methods of the host do. -/
theorem Built.isWords (h : Built a o image tables)
    (hbridge : ∀ d ∈ o.bridge.imports, d.signature.isWords) :
    ∀ s ∈ image.functionSignatures, s.isWords := by
  intro s hs
  rcases List.mem_filterMap.1 hs with ⟨type, htype, hget⟩
  rcases List.mem_append.1 htype with himport | hfunction
  · rcases List.mem_map.1 himport with ⟨f, hf, rfl⟩
    have htyped : Tables.Typed (fun s => s.isWords = true) (BuildState.start a o).tables :=
      Tables.typed_ofBridge _ (by decide) hbridge
    rw [h.imports, h.grown.imports] at hf
    rcases htyped f hf with ⟨s', hs', hwords⟩
    have hsame := getElem?_of_isPrefix h.grown.types hs'
    rw [← h.types, hget] at hsame
    cases hsame
    exact hwords
  · rcases List.mem_map.1 hfunction with ⟨d, hd, rfl⟩
    rw [h.functionTyped hd] at hget
    cases hget
    rcases h.exists_method hd with ⟨tm, _, hcompiles⟩
    exact isWords_methodSignature hcompiles.signature

theorem Built.types_lowered (h : Built a o image tables)
    (hbridge : ∀ d ∈ o.bridge.imports, d.signature.isWords) {f : Function} {slots : SlotTable}
    (hslots : (SlotTable.ofParams f.signature.params).Grows slots)
    (hlocals : f.locals = slots.locals) (hasResult : Bool) :
    Types ⟨a, o.headerSize, hasResult, fun r => image.functionSignatures[tables.index a r]?⟩
      (image.typing f) ⟨a, o.headerSize, slots, tables⟩ where
  assembly := rfl
  headerSize := rfl
  slot := by
    intro x i hx
    have hw := (SlotTable.wellPlaced_ofParams f.signature.params).grows hslots
    have hkind := hw.kind hx
    rw [← hlocals] at hkind
    exact hkind
  global := h.global_lt
  allocator := by
    rcases h.allocator_typed with ⟨f, hf, htype⟩
    cases himports : image.imports with
    | nil =>
        rw [himports] at hf
        cases hf
    | cons f' fs =>
        rw [himports] at hf
        cases hf
        simp [Image.typing, Image.functionSignatures, himports, htype, Tables.allocator]
  callee := by
    intro r i hr
    exact congrArg (image.functionSignatures[·]?) (index_of_callee hr)
  words := h.isWords hbridge

/-- The body of a function is valid if, and only if, the walk over the instructions of its method
succeeds, with the signatures of the functions that its operators call. -/
theorem isValidBody_iff_balances (h : build a o = .ok image)
    (hbridge : ∀ d ∈ o.bridge.imports, d.signature.isWords) {t : TypeDef} {body : MethodBody}
    (hm : (t, m) ∈ a.methods) (hown : o.isInterop (m.ref t.name).fullName = false)
    (hbody : m.body = some body) :
    ∃ d ∈ image.functions, CompiledFrom a o t m d ∧ ∃ index : MethodRef → Nat,
      callIndices d.function.body = body.instructions.flatMap (Instruction.calls index) ∧
      (isValidBody (image.typing d.function) d.function.signature.result d.function.body = true ↔
        Walk.balances
          { assembly := a
            headerSize := o.headerSize
            hasResult := d.function.signature.result.isSome
            callee := fun r => image.functionSignatures[index r]? } body = true) := by
  rcases build_ok h with ⟨tables, hbuilt⟩
  rcases hbuilt.exists_function hm with ⟨d, hd, hcompiles⟩
  rw [← hcompiles.name] at hown
  rcases hcompiles.body.bodyLowered hown hbody with ⟨slots, hslots, hlocals, hlowered⟩
  refine ⟨d, hd, hcompiles.toCompiledFrom, tables.index a, ?_, ?_⟩
  · exact hlowered.callIndices_eq fun r n hn => index_of_callee hn
  · have htypes := hbuilt.types_lowered hbridge hslots hlocals d.function.signature.result.isSome
    have hwords := isWords_methodSignature hcompiles.signature
    rw [hlowered.isValidBody_eq htypes rfl (isWords_iff.1 hwords).2]

end Modules

theorem Counting.balances_count :
    ∃ index : MethodRef → Nat,
      callIndices countFunction.body = countBody.instructions.flatMap (Instruction.calls index) ∧
      Walk.balances
        { assembly := assembly
          headerSize := options.headerSize
          hasResult := true
          callee := fun r => image.functionSignatures[index r]? } countBody = true := by
  have hmem : (type, count) ∈ assembly.methods := List.Mem.head _
  rcases isValidBody_iff_balances build_eq (by decide) hmem (by decide +kernel) rfl with
    ⟨d, hd, hfrom, index, hcalls, hiff⟩
  have hname := hfrom.name
  simp only [image, List.mem_cons, List.not_mem_nil, or_false] at hd
  -- the validator accepts the body, so the walk over it succeeds
  rcases hd with rfl | rfl | rfl
  · exact ⟨index, hcalls, hiff.1 (by decide +kernel)⟩
  · exact absurd hname (by decide +kernel)
  · exact absurd hname (by decide +kernel)

end CilCompiler
