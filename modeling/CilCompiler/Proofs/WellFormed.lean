import CilCompiler.Proofs.Compiled
import CilCompiler.Proofs.Regions

/-!
# Well-formed modules

Every module that is built hangs together: its bodies are properly bracketed, and whatever they
name is there.

* `Scope.admits` reads a body from its first operator to the one that closes it, and counts the
  regions that are open.
* `Image.WellFormed` asks this of every body, and of every type that it is in the type table.
* `LoweredFrom.admits` is the invariant of lowered code: at a cursor, the open regions are those of
  the cursor and the loop around them. `build_wellFormed` draws the conclusion for modules.
-/

namespace CilCompiler

open Wasm (Op Signature ValueKind)

/-! ## Scopes -/

/-- How many locals, functions and globals a body can name. -/
structure Scope where
  locals : Nat
  functions : Nat
  globals : Nat

/-- Whether an operator names only what is there, with `labels` regions open. -/
def Wasm.Op.isWithin (s : Scope) (labels : Nat) : Op → Bool
  | .br label | .brIf label => label < labels
  | .brTable targets otherwise => targets.all (· < labels) && otherwise < labels
  | .localGet slot | .localSet slot => slot < s.locals
  | .call function => function < s.functions
  | .globalGet global => global < s.globals
  | _ => true

namespace Scope

/-- Whether the rest of a body, with some regions open, closes them all and then the body itself
with its last operator. The label of the body is not counted, so no jump may use it. -/
def admits (s : Scope) : Nat → List Op → Bool
  | _, [] => false
  | labels, .block :: ops => s.admits (labels + 1) ops
  | labels, .loop :: ops => s.admits (labels + 1) ops
  | 0, .close :: ops => ops.isEmpty
  | labels + 1, .close :: ops => s.admits labels ops
  | labels, op :: ops => op.isWithin s labels && s.admits labels ops

variable {s : Scope}

theorem admits_cons {op : Op} (h : op.isBracket = false) {labels : Nat}
    (hw : op.isWithin s labels = true) (ops : List Op) :
    s.admits labels (op :: ops) = s.admits labels ops := by
  have heq : s.admits labels (op :: ops) = (op.isWithin s labels && s.admits labels ops) := by
    cases op with
    | block =>
        cases h
    | loop =>
        cases h
    | close =>
        cases h
    | _ =>
        cases labels <;> rfl
  rw [heq, hw, Bool.true_and]

/-- Operators without brackets, read over. -/
theorem admits_append {code : List Op} {labels : Nat}
    (h : ∀ op ∈ code, op.isBracket = false ∧ op.isWithin s labels = true) (ops : List Op) :
    s.admits labels (code ++ ops) = s.admits labels ops := by
  induction code with
  | nil =>
      rfl
  | cons op code ih =>
      rcases h op (by simp) with ⟨hb, hw⟩
      rw [List.cons_append, admits_cons hb hw, ih fun o ho => h o (by simp [ho])]

theorem admits_blocks (n labels : Nat) (ops : List Op) :
    s.admits labels (List.replicate n .block ++ ops) = s.admits (labels + n) ops := by
  induction n generalizing labels with
  | zero =>
      rfl
  | succ n ih =>
      have hstep := ih (labels + 1)
      rw [Nat.add_right_comm] at hstep
      exact hstep

theorem admits_closes (n labels : Nat) (ops : List Op) :
    s.admits (labels + n) (List.replicate n .close ++ ops) = s.admits labels ops := by
  induction n with
  | zero =>
      rfl
  | succ n ih =>
      exact ih

end Scope

/-! ## Lowered code -/

theorem Cursor.openRegions_advance (c : Cursor) (offset : UInt32) :
    (c.advance offset).openRegions + c.closing offset = c.openRegions := by
  have hle : c.closing offset ≤ c.openRegions := by
    have hprefix := List.takeWhile_prefix (l := c.schedule.targets.drop c.next) (· ≤ offset)
    have hlen := hprefix.length_le
    rw [List.length_drop] at hlen
    exact hlen
  have hadvance : (c.advance offset).openRegions = c.openRegions - c.closing offset :=
    Nat.sub_add_eq _ _ _
  omega

/-- The linkage names nothing outside of the scope. -/
structure Covers (s : Scope) (l : Linkage) : Prop where
  slot {x : Slot} {i : Nat} : l.slots.find? x = some ⟨i, .i32⟩ → i < s.locals
  global {name : String} {i : Nat} : l.tables.globals.find? name = some i → i < s.globals
  callee {m : MethodRef} {i : Nat} : l.tables.callee l.assembly m = some i → i < s.functions
  allocator : Tables.allocator < s.functions

section Lowered

variable {s : Scope} {l : Linkage} {c : Cursor}

theorem isWithin_of_isSimple {op : Op} (h : op.isSimple) (labels : Nat) :
    op.isWithin s labels = true := by
  cases op <;> first | rfl | cases h

theorem isWithin_jump {label labels : Nat} (h : label < labels) (conditional : Bool) :
    (jump conditional label).isWithin s labels = true := by
  cases conditional <;> simp [jump, Op.isWithin, h]

/-- One step names only what is there, if all regions of the cursor are open inside the loop. -/
theorem Emit.Linked.isWithin (hs : Covers s l) {e : Emit} {ops : List Op} (h : e.Linked l c ops)
    (he : e.isSimple) : ∀ op ∈ ops, op.isWithin s (c.openRegions + 1) = true := by
  cases h with
  | op o =>
      intro op hop
      cases List.mem_singleton.1 hop
      exact isWithin_of_isSimple he _
  | load hx =>
      have hlt := hs.slot hx
      simp [Op.isWithin, hlt]
  | store hx =>
      have hlt := hs.slot hx
      simp [Op.isWithin, hlt]
  | forward hr =>
      intro op hop
      cases List.mem_singleton.1 hop
      -- a region of the cursor, which closes at an entry of the schedule
      rcases Cursor.reach_cases hr with ⟨t, ht, ⟨hle, heq⟩ | ⟨_, heq⟩⟩
      · cases heq
        rcases List.getElem?_eq_some_iff.1 ht with ⟨hlt, _⟩
        have hsize : t < c.schedule.size := hlt
        refine isWithin_jump ?_ _
        simp only [Cursor.openRegions]
        omega
      · cases heq
  | backward hr hx =>
      have hlt := hs.slot hx
      rcases Cursor.reach_cases hr with ⟨t, _, ⟨_, heq⟩ | ⟨_, heq⟩⟩
      · cases heq
      · cases heq
        -- the loop is the first region around those of the cursor
        intro op hop
        simp only [List.mem_cons, List.not_mem_nil, or_false] at hop
        rcases hop with rfl | rfl | rfl
        · rfl
        · simp [Op.isWithin, hlt]
        · exact isWithin_jump (Nat.lt_succ_self c.openRegions) _
  | handle hn =>
      have hlt := hs.global hn
      simp [Op.isWithin, hlt]
  | allocate =>
      have hlt := hs.allocator
      simp [Op.isWithin, hlt]
  | call hm =>
      have hlt := hs.callee hm
      simp [Op.isWithin, hlt]

theorem LinkedAll.isWithin (hs : Covers s l) {es : List Emit} {ops : List Op}
    (h : LinkedAll l c es ops) (hes : ∀ e ∈ es, e.isSimple) :
    ∀ op ∈ ops, op.isWithin s (c.openRegions + 1) = true :=
  h.forall_op fun e he _ hlinked => hlinked.isWithin hs (hes e he)

/-- Lowered code closes the regions of its cursor, and leaves the loop open. -/
theorem LoweredFrom.admits (hs : Covers s l) {is : List Instruction} {code : List Op}
    (h : LoweredFrom l c is code) (ops : List Op) :
    s.admits (c.openRegions + 1) (code ++ ops) = s.admits 1 ops := by
  -- the induction is on the instructions that are left: each closes the regions that end before
  -- it, and names labels only of those that are still open
  induction h with
  | nil c =>
      rw [Nat.add_comm]
      exact Scope.admits_closes c.openRegions 1 ops
  | @cons c i is es code rest hselect hlinked _ ih =>
      have hsimple := isSimple_of_select hselect
      have hplain : ∀ op ∈ code, op.isBracket = false ∧
          op.isWithin s ((c.advance i.offset).openRegions + 1) = true := fun op hop =>
        ⟨hlinked.isBracket hsimple op hop, hlinked.isWithin hs hsimple op hop⟩
      have hopen : c.openRegions + 1 =
          (c.advance i.offset).openRegions + 1 + c.closing i.offset := by
        have hadvance := c.openRegions_advance i.offset
        omega
      rw [hopen, List.append_assoc, List.append_assoc, Scope.admits_closes,
        Scope.admits_append hplain, ih]

theorem Dispatched.admits (hs : Covers s l) {size : Nat} {table : List Op}
    (h : Dispatched l size table) (ops : List Op) :
    s.admits (size + 1) (table ++ ops) = s.admits (size + 1) ops := by
  cases h with
  | none =>
      rfl
  | @table size i _ hx =>
      have hslot : (Op.localGet i).isWithin s (size + 2) = true := by
        have hlt := hs.slot hx
        simp [Op.isWithin, hlt]
      have htable : (Op.brTable (List.range size) size).isWithin s (size + 2) = true := by
        simp only [Op.isWithin, Bool.and_eq_true, List.all_eq_true, List.mem_range,
          decide_eq_true_eq]
        exact ⟨fun label hlt => by omega, by omega⟩
      -- one more region is open around the table, so every number up to `size` is a label
      calc
        s.admits (size + 1)
            (.block :: .localGet i :: .brTable (List.range size) size :: .close :: ops)
            = s.admits (size + 2)
                (.localGet i :: .brTable (List.range size) size :: .close :: ops) := rfl
        _ = s.admits (size + 2) (.brTable (List.range size) size :: .close :: ops) :=
              Scope.admits_cons rfl hslot _
        _ = s.admits (size + 2) (.close :: ops) := Scope.admits_cons rfl htable _
        _ = s.admits (size + 1) ops := rfl

theorem admits_epilogue (s : Scope) (hasResult : Bool) :
    s.admits 0 (epilogue hasResult) = true := by
  cases hasResult <;> rfl

theorem BodyLowered.admits (hs : Covers s l) {hasResult : Bool} {body : MethodBody} {ops : List Op}
    (h : BodyLowered l hasResult body ops) : s.admits 0 ops = true := by
  cases h with
  | empty _ =>
      exact admits_epilogue s hasResult
  | @code schedule table code _ _ hdispatched hlowered =>
      have hcode : ∀ ops : List Op,
          s.admits (schedule.size + 1) (code ++ ops) = s.admits 1 ops := hlowered.admits hs
      simp only [List.cons_append, List.nil_append, List.append_assoc]
      calc
        s.admits 0 (.loop :: (List.replicate schedule.size .block ++
            (table ++ (code ++ .close :: epilogue hasResult))))
            = s.admits (1 + schedule.size)
                (table ++ (code ++ .close :: epilogue hasResult)) := Scope.admits_blocks _ _ _
        _ = s.admits (schedule.size + 1) (code ++ .close :: epilogue hasResult) := by
              rw [Nat.add_comm 1, hdispatched.admits hs]
        _ = s.admits 0 (epilogue hasResult) := hcode _
        _ = true := admits_epilogue s hasResult

end Lowered

/-! ## Modules -/

/-- What a function of a module can name. -/
def Image.scope (image : Image) (f : Function) : Scope where
  locals := f.signature.params.length + f.locals.length
  functions := image.imports.length + image.functions.length
  globals := image.globals.length

structure Image.WellFormed (image : Image) : Prop where
  bodies : ∀ d ∈ image.functions, (image.scope d.function).admits 0 d.function.body = true
  importTypes : ∀ f ∈ image.imports, f.type < image.types.length
  functionTypes : ∀ d ∈ image.functions, image.types[d.type]? = some d.function.signature

section Modules

variable {a : Assembly} {o : Options} {tables : Tables} {image : Image} {m : MethodDef}

theorem Built.callee_lt (h : Built a o image tables) {r : MethodRef} {i : Nat}
    (hi : tables.callee a r = some i) : i < image.imports.length + image.functions.length := by
  rcases h.callee_cases hi with ⟨_, k, d, _, rfl, hd, _⟩ | ⟨_, _, _, _, _, himport, _⟩
  · rcases List.getElem?_eq_some_iff.1 hd with ⟨hlt, _⟩
    omega
  · rcases List.getElem?_eq_some_iff.1 himport with ⟨hlt, _⟩
    omega

theorem Built.allocator_lt (h : Built a o image tables) :
    Tables.allocator < image.imports.length := by
  rcases h.allocator_typed with ⟨f, hf, _⟩
  rcases List.getElem?_eq_some_iff.1 hf with ⟨hlt, _⟩
  exact hlt

theorem Built.global_lt (h : Built a o image tables) {name : String} {i : Nat}
    (hi : tables.globals.find? name = some i) : i < image.globals.length := by
  rw [h.globals, List.length_map]
  exact Numbering.lt_size_of_find? hi

/-- The code of a function names nothing outside of the module. -/
theorem Built.covers (h : Built a o image tables) {f : Function} {slots : SlotTable}
    (hslots : (SlotTable.ofParams f.signature.params).Grows slots)
    (hlocals : f.locals = slots.locals) :
    Covers (image.scope f) ⟨a, o.headerSize, slots, tables⟩ where
  slot := by
    intro x i hx
    have hw := (SlotTable.wellPlaced_ofParams f.signature.params).grows hslots
    have hlt := hw.index_lt hx
    simpa [Image.scope, hlocals] using hlt
  global := h.global_lt
  callee := h.callee_lt
  allocator := Nat.lt_of_lt_of_le h.allocator_lt (Nat.le_add_right _ _)

theorem admits_thunkOps {s : Scope} {signature : Signature} {handle invoker : Nat}
    (hparams : signature.params.length ≤ s.locals) (hhandle : handle < s.globals)
    (hinvoker : invoker < s.functions) :
    s.admits 0 (thunkOps signature handle invoker) = true := by
  unfold thunkOps
  rw [Scope.admits_append]
  · rfl
  · intro op hop
    simp only [List.mem_append, List.mem_cons, List.not_mem_nil, or_false, List.mem_map,
      List.mem_range, List.mem_replicate] at hop
    rcases hop with ((((rfl | rfl) | ⟨i, hi, rfl⟩) | ⟨_, rfl⟩) | rfl) | hop
    · exact ⟨rfl, by simp [Op.isWithin, hhandle]⟩
    · exact ⟨rfl, rfl⟩
    · exact ⟨rfl, by simp [Op.isWithin, Nat.lt_of_lt_of_le hi hparams]⟩
    · exact ⟨rfl, rfl⟩
    · exact ⟨rfl, by simp [Op.isWithin, hinvoker]⟩
    · split at hop
      · cases List.mem_singleton.1 hop
        exact ⟨rfl, rfl⟩
      · cases hop

theorem Built.admits (h : Built a o image tables) {f : Function} {ops : List Op}
    {locals : List ValueKind} (hf : BodyCompiled a o tables m f.name f.signature ops locals)
    (hlocals : f.locals = locals) : (image.scope f).admits 0 ops = true := by
  cases hf with
  | thunk _ _ hinvoker hhandle =>
      refine admits_thunkOps (Nat.le_add_right _ _) (h.global_lt hhandle) ?_
      exact Nat.lt_of_lt_of_le (h.invoker_lt hinvoker) (Nat.le_add_right _ _)
  | absent _ _ =>
      exact admits_epilogue _ _
  | lowered _ _ hslots hbody =>
      exact hbody.admits (h.covers hslots hlocals)

/-- Every module that is built is well-formed. -/
theorem build_wellFormed (h : build a o = .ok image) : image.WellFormed := by
  rcases build_ok h with ⟨tables, hbuilt⟩
  refine ⟨?_, ?_, ?_⟩
  · intro d hd
    rcases hbuilt.exists_method hd with ⟨tm, _, hcompiles⟩
    exact hbuilt.admits hcompiles.body rfl
  · intro f hf
    rcases hbuilt.importTyped hf with ⟨signature, hget⟩
    rcases List.getElem?_eq_some_iff.1 hget with ⟨hlt, _⟩
    exact hlt
  · intro d hd
    exact hbuilt.functionTyped hd

end Modules

theorem Counting.wellFormed : build assembly options = .ok image ∧ image.WellFormed :=
  ⟨build_eq, build_wellFormed build_eq⟩

end CilCompiler
