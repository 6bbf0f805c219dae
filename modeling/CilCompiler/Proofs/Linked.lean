import CilCompiler.Proofs.Steps

/-!
# Linked code

Linking hands out indices while it writes operators, so what it writes depends on the order of the
steps. Since indices are never taken back, the finished code can be described without any order, by
what the names mean in the tables at the end.

* `Linkage` is such a meaning of names: the slots of one function and the tables of the module.
* `Emit.Linked`, `LinkedAll` and `LoweredFrom` relate steps, sequences and instructions to their
  operators under a linkage; `BodyLowered` relates a whole body to them.
* `lowerBody_ok` says that a body that is lowered successfully is related to its operators under the
  linkage that lowering ends with.
-/

namespace CilCompiler

open Wasm (Op)

/-! ## Linkages -/

/-- What the names in the code of one function mean. -/
structure Linkage where
  assembly : Assembly
  headerSize : UInt32
  slots : SlotTable
  tables : Tables

/-- `l'` knows all that `l` knows. -/
structure Linkage.Grows (l l' : Linkage) : Prop where
  assembly : l'.assembly = l.assembly
  headerSize : l'.headerSize = l.headerSize
  slots : l.slots.Grows l'.slots
  tables : l.tables.Grows l'.tables

/-! ## Related code -/

/-- The operators of one step. -/
inductive Emit.Linked (l : Linkage) (c : Cursor) : Emit → List Op → Prop
  | op (o : Op) : Linked l c (.op o) [o]
  | load {x : Slot} {i : Nat} :
      l.slots.find? x = some ⟨i, .i32⟩ → Linked l c (.load x) [.localGet i]
  | store {x : Slot} {i : Nat} :
      l.slots.find? x = some ⟨i, .i32⟩ → Linked l c (.store x) [.localSet i]
  | forward {target : UInt32} {conditional : Bool} {label : Nat} :
      c.reach target = .ok (.forward label) →
      Linked l c (.branch target conditional) [jump conditional label]
  | backward {target : UInt32} {conditional : Bool} {resume label i : Nat} :
      c.reach target = .ok (.backward resume label) →
      l.slots.find? .resumeSelector = some ⟨i, .i32⟩ →
      Linked l c (.branch target conditional)
        [.const (Int32.ofNat resume), .localSet i, jump conditional label]
  | handle {name : String} {i : Nat} :
      l.tables.globals.find? name = some i → Linked l c (.handle name) [.globalGet i]
  | allocate : Linked l c .allocate [.call Tables.allocator]
  | call {m : MethodRef} {i : Nat} :
      l.tables.callee l.assembly m = some i → Linked l c (.call m) [.call i]

/-- The operators of a sequence. -/
inductive LinkedAll (l : Linkage) (c : Cursor) : List Emit → List Op → Prop
  | nil : LinkedAll l c [] []
  | cons {e : Emit} {es : List Emit} {ops rest : List Op} :
      e.Linked l c ops → LinkedAll l c es rest → LinkedAll l c (e :: es) (ops ++ rest)

/-- The operators of the instructions from a cursor on, with the ends of the regions. -/
inductive LoweredFrom (l : Linkage) : Cursor → List Instruction → List Op → Prop
  | nil (c : Cursor) : LoweredFrom l c [] (List.replicate c.openRegions .close)
  | cons {c : Cursor} {i : Instruction} {is : List Instruction} {es : List Emit}
      {ops rest : List Op} :
      select l.assembly l.headerSize i = .ok es → LinkedAll l (c.advance i.offset) es ops →
      LoweredFrom l (c.advance i.offset) is rest →
      LoweredFrom l c (i :: is) (List.replicate (c.closing i.offset) .close ++ ops ++ rest)

/-- The operators of the dispatch for a schedule of some size. -/
inductive Dispatched (l : Linkage) : Nat → List Op → Prop
  | none : Dispatched l 0 []
  | table {size i : Nat} : size ≠ 0 → l.slots.find? .resumeSelector = some ⟨i, .i32⟩ →
      Dispatched l size [.block, .localGet i, .brTable (List.range size) size, .close]

/-- The operators of a body. -/
inductive BodyLowered (l : Linkage) (hasResult : Bool) (body : MethodBody) : List Op → Prop
  | empty : body.instructions = [] → BodyLowered l hasResult body (epilogue hasResult)
  | code {schedule : Schedule} {table code : List Op} :
      body.instructions ≠ [] → Schedule.analyze body = .ok schedule →
      Dispatched l schedule.size table → LoweredFrom l { schedule } body.instructions code →
      BodyLowered l hasResult body
        (.loop :: List.replicate schedule.size .block ++ table ++ code ++ [.close] ++
          epilogue hasResult)

/-- What holds of the operators of every step holds of those of the sequence. -/
theorem LinkedAll.forall_op {l : Linkage} {c : Cursor} {P : Op → Prop} {es : List Emit}
    {ops : List Op} (h : LinkedAll l c es ops)
    (hes : ∀ e ∈ es, ∀ code, e.Linked l c code → ∀ op ∈ code, P op) : ∀ op ∈ ops, P op := by
  induction h with
  | nil =>
      simp
  | @cons e es code rest he _ ih =>
      intro op hop
      rcases List.mem_append.1 hop with hop | hop
      · exact hes e (by simp) code he op hop
      · exact ih (fun e' he' => hes e' (by simp [he'])) op hop

/-! ## Growth keeps code related -/

section Growth

variable {l l' : Linkage} {c : Cursor}

theorem Emit.Linked.grows {e : Emit} {ops : List Op} (hg : l.Grows l') (h : e.Linked l c ops) :
    e.Linked l' c ops := by
  cases h with
  | op o =>
      exact .op o
  | load hx =>
      exact .load (SlotTable.find?_of_grows hg.slots hx)
  | store hx =>
      exact .store (SlotTable.find?_of_grows hg.slots hx)
  | forward hr =>
      exact .forward hr
  | backward hr hx =>
      exact .backward hr (SlotTable.find?_of_grows hg.slots hx)
  | handle hn =>
      exact .handle (Numbering.find?_of_isPrefix hg.tables.globals hn)
  | allocate =>
      exact .allocate
  | call hm =>
      exact .call (hg.assembly ▸ Tables.callee_of_grows hg.tables hm)

theorem LinkedAll.grows {es : List Emit} {ops : List Op} (hg : l.Grows l')
    (h : LinkedAll l c es ops) : LinkedAll l' c es ops := by
  induction h with
  | nil =>
      exact .nil
  | cons he _ ih =>
      exact .cons (he.grows hg) ih

theorem LoweredFrom.grows {is : List Instruction} {ops : List Op} (hg : l.Grows l')
    (h : LoweredFrom l c is ops) : LoweredFrom l' c is ops := by
  induction h with
  | nil c =>
      exact .nil c
  | cons hs hl _ ih =>
      refine .cons ?_ (hl.grows hg) ih
      rw [hg.assembly, hg.headerSize]
      exact hs

theorem Dispatched.grows {size : Nat} {ops : List Op} (hg : l.Grows l')
    (h : Dispatched l size ops) : Dispatched l' size ops := by
  cases h with
  | none =>
      exact .none
  | table hn hx =>
      exact .table hn (SlotTable.find?_of_grows hg.slots hx)

theorem BodyLowered.grows {hasResult : Bool} {body : MethodBody} {ops : List Op} (hg : l.Grows l')
    (h : BodyLowered l hasResult body ops) : BodyLowered l' hasResult body ops := by
  cases h with
  | empty he =>
      exact .empty he
  | code hne ha hd hc =>
      exact .code hne ha (hd.grows hg) (hc.grows hg)

end Growth

/-! ## Lowering writes related code -/

section Lowering

variable {a : Assembly} {hs : UInt32} {c : Cursor} {slots slots' : SlotTable} {s s' : BuildState}
  {ops : List Op}

/-- A successful step ends with a linkage that grew from the one before it and that relates what
was lowered to what was written. -/
structure Lowers (a : Assembly) (hs : UInt32) (slots : SlotTable) (s : BuildState)
    (slots' : SlotTable) (s' : BuildState) (related : Linkage → Prop) : Prop where
  slots : slots.Grows slots'
  tables : s.tables.Extends s'.tables
  related : related ⟨a, hs, slots', s'.tables⟩

theorem Lowers.grows {related : Linkage → Prop} (h : Lowers a hs slots s slots' s' related) :
    Linkage.Grows ⟨a, hs, slots, s.tables⟩ ⟨a, hs, slots', s'.tables⟩ :=
  ⟨rfl, rfl, h.slots, h.tables.toGrows⟩

theorem Linker.slot_lowers (a : Assembly) (hs : UInt32) {x : Slot} {i : Nat}
    (h : Linker.exec (Linker.slot x) slots s = (.ok (i, slots'), s')) :
    Lowers a hs slots s slots' s' fun l => l.slots.find? x = some ⟨i, .i32⟩ := by
  rcases Linker.slot_ok h with ⟨hr, rfl⟩
  exact ⟨.single hr, .refl _, SlotTable.find?_of_resolve hr⟩

theorem Emit.link_ok (hs : UInt32) {e : Emit}
    (h : Linker.exec (e.link a c) slots s = (.ok (ops, slots'), s')) :
    Lowers a hs slots s slots' s' fun l => e.Linked l c ops := by
  cases e with
  | op o =>
      rcases Linker.exec_pure_ok.1 h with ⟨rfl, rfl, rfl⟩
      exact ⟨.refl _, .refl _, .op o⟩
  | load x =>
      rcases Linker.exec_bind_ok.1 h with ⟨i, slots₁, s₁, hslot, hpure⟩
      rcases Linker.exec_pure_ok.1 hpure with ⟨rfl, rfl, rfl⟩
      have hx := Linker.slot_lowers a hs hslot
      exact ⟨hx.slots, hx.tables, .load hx.related⟩
  | store x =>
      rcases Linker.exec_bind_ok.1 h with ⟨i, slots₁, s₁, hslot, hpure⟩
      rcases Linker.exec_pure_ok.1 hpure with ⟨rfl, rfl, rfl⟩
      have hx := Linker.slot_lowers a hs hslot
      exact ⟨hx.slots, hx.tables, .store hx.related⟩
  | branch target conditional =>
      rcases Linker.exec_bind_ok.1 h with ⟨r, slots₁, s₁, hreach, hrest⟩
      rcases Linker.exec_lift_ok.1 hreach with ⟨rfl, hreach'⟩
      rcases Build.run_ofExcept_ok.1 hreach' with ⟨hr, rfl⟩
      cases r with
      | forward label =>
          rcases Linker.exec_pure_ok.1 hrest with ⟨rfl, rfl, rfl⟩
          exact ⟨.refl _, .refl _, .forward hr⟩
      | backward resume label =>
          rcases Linker.exec_bind_ok.1 hrest with ⟨i, slots₂, s₂, hslot, hpure⟩
          rcases Linker.exec_pure_ok.1 hpure with ⟨rfl, rfl, rfl⟩
          have hx := Linker.slot_lowers a hs hslot
          exact ⟨hx.slots, hx.tables, .backward hr hx.related⟩
  | handle name =>
      rcases Linker.exec_bind_ok.1 h with ⟨i, slots₁, s₁, hglobal, hpure⟩
      rcases Linker.exec_pure_ok.1 hpure with ⟨rfl, rfl, rfl⟩
      rcases Linker.exec_lift_ok.1 hglobal with ⟨rfl, hglobal'⟩
      rcases Build.global_ok hglobal' with ⟨rfl, ht⟩
      refine ⟨.refl _, ht ▸ s.tables.extends_global name, .handle ?_⟩
      simp only [ht]
      exact Numbering.find?_request s.tables.globals name
  | allocate =>
      rcases Linker.exec_pure_ok.1 h with ⟨rfl, rfl, rfl⟩
      exact ⟨.refl _, .refl _, .allocate⟩
  | call m =>
      rcases Linker.exec_bind_ok.1 h with ⟨i, slots₁, s₁, hcall, hpure⟩
      rcases Linker.exec_pure_ok.1 hpure with ⟨rfl, rfl, rfl⟩
      rcases Linker.exec_lift_ok.1 hcall with ⟨rfl, hcall'⟩
      rcases Build.callIndex_ok hcall' with ⟨hg, hm⟩
      exact ⟨.refl _, hg, .call hm⟩

theorem linkAll_ok (hs : UInt32) {es : List Emit}
    (h : Linker.exec (linkAll a c es) slots s = (.ok (ops, slots'), s')) :
    Lowers a hs slots s slots' s' fun l => LinkedAll l c es ops := by
  induction es generalizing slots s ops with
  | nil =>
      rcases Linker.exec_pure_ok.1 h with ⟨rfl, rfl, rfl⟩
      exact ⟨.refl _, .refl _, .nil⟩
  | cons e es ih =>
      rcases Linker.exec_bind_ok.1 h with ⟨first, slots₁, s₁, hfirst, hrest⟩
      rcases Linker.exec_bind_ok.1 hrest with ⟨rest, slots₂, s₂, hrest', hpure⟩
      rcases Linker.exec_pure_ok.1 hpure with ⟨rfl, rfl, rfl⟩
      have he := Emit.link_ok hs hfirst
      have hes := ih hrest'
      refine ⟨he.slots.trans hes.slots, he.tables.trans hes.tables, ?_⟩
      exact .cons (he.related.grows hes.grows) hes.related

theorem lowerInstructions_ok {is : List Instruction}
    (h : Linker.exec (lowerInstructions a hs c is) slots s = (.ok (ops, slots'), s')) :
    Lowers a hs slots s slots' s' fun l => LoweredFrom l c is ops := by
  induction is generalizing c slots s ops with
  | nil =>
      rcases Linker.exec_pure_ok.1 h with ⟨rfl, rfl, rfl⟩
      exact ⟨.refl _, .refl _, .nil c⟩
  | cons i is ih =>
      rcases Linker.exec_bind_ok.1 h with ⟨_, slots₁, s₁, hreport, h₁⟩
      rcases Linker.exec_lift_ok.1 hreport with ⟨rfl, hreport'⟩
      rw [Build.run_report] at hreport'
      cases hreport'
      rcases Linker.exec_bind_ok.1 h₁ with ⟨es, slots₂, s₂, hselect, h₂⟩
      rcases Linker.exec_lift_ok.1 hselect with ⟨rfl, hselect'⟩
      rcases Build.run_ofExcept_ok.1 hselect' with ⟨hes, rfl⟩
      rcases Linker.exec_bind_ok.1 h₂ with ⟨first, slots₃, s₃, hfirst, h₃⟩
      rcases Linker.exec_bind_ok.1 h₃ with ⟨rest, slots₄, s₄, hrest, hpure⟩
      rcases Linker.exec_pure_ok.1 hpure with ⟨rfl, rfl, rfl⟩
      have he := linkAll_ok hs hfirst
      have hr := ih hrest
      refine ⟨he.slots.trans hr.slots, he.tables.trans hr.tables, ?_⟩
      exact .cons hes (he.related.grows hr.grows) hr.related

theorem dispatch_ok (a : Assembly) (hs : UInt32) {size : Nat}
    (h : Linker.exec (dispatch size) slots s = (.ok (ops, slots'), s')) :
    Lowers a hs slots s slots' s' fun l => Dispatched l size ops := by
  unfold dispatch at h
  by_cases hz : size = 0
  · rw [if_pos hz] at h
    rcases Linker.exec_pure_ok.1 h with ⟨rfl, rfl, rfl⟩
    subst hz
    exact ⟨.refl _, .refl _, .none⟩
  · rw [if_neg hz] at h
    rcases Linker.exec_bind_ok.1 h with ⟨i, slots₁, s₁, hslot, hpure⟩
    rcases Linker.exec_pure_ok.1 hpure with ⟨rfl, rfl, rfl⟩
    have hx := Linker.slot_lowers a hs hslot
    exact ⟨hx.slots, hx.tables, .table hz hx.related⟩

theorem lowerBody_ok {hasResult : Bool} {body : MethodBody}
    (h : Linker.exec (lowerBody a hs hasResult body) slots s = (.ok (ops, slots'), s')) :
    Lowers a hs slots s slots' s' fun l => BodyLowered l hasResult body ops := by
  unfold lowerBody at h
  by_cases he : body.instructions.isEmpty
  · rw [if_pos he] at h
    rcases Linker.exec_pure_ok.1 h with ⟨rfl, rfl, rfl⟩
    exact ⟨.refl _, .refl _, .empty (List.isEmpty_iff.1 he)⟩
  · rw [if_neg he] at h
    rcases Linker.exec_bind_ok.1 h with ⟨schedule, slots₁, s₁, hanalyze, h₁⟩
    rcases Linker.exec_lift_ok.1 hanalyze with ⟨rfl, hanalyze'⟩
    rcases Build.run_ofExcept_ok.1 hanalyze' with ⟨ha, rfl⟩
    rcases Linker.exec_bind_ok.1 h₁ with ⟨table, slots₂, s₂, htable, h₂⟩
    rcases Linker.exec_bind_ok.1 h₂ with ⟨code, slots₃, s₃, hcode, hpure⟩
    rcases Linker.exec_pure_ok.1 hpure with ⟨rfl, rfl, rfl⟩
    have hd := dispatch_ok a hs htable
    have hc := lowerInstructions_ok hcode
    refine ⟨hd.slots.trans hc.slots, hd.tables.trans hc.tables, ?_⟩
    exact .code (fun hnil => he (List.isEmpty_iff.2 hnil)) ha (hd.related.grows hc.grows)
      hc.related

end Lowering

end CilCompiler
