import CilCompiler.Proofs.Expansion
import CilCompiler.Proofs.NamedCode

/-!
# Drafts

Linking looks names up in tables that change from step to step. What it writes depends on them only
through the numbers that it puts into the code: with names in their place, the code of a body can be
told beforehand, without any tables. This is the draft of the body.

* `Setting` is what a body can see of its assembly, and `draftBody` drafts it.
* `Build.EndsAs` and `Linker.EndsAs` say that a step ends as some plain computation does. They are
  closed under `bind`.
* `lowerBody_endsAs` says that lowering a body ends as its draft does: with the same error, or with
  operators that read back as the draft, after asking for just the names in it.
-/

namespace CilCompiler

open Host (ImportDecl)
open Wasm (Op)

/-! ## Drafts of bodies -/

/-- What a method can see of its assembly and of the host: the sequences of its instructions, where
its calls lead, and what allocates objects and invokes methods by handle. -/
structure Setting where
  home : String
  select : Instruction → Except CompileError (List Emit)
  callee : MethodRef → Except CompileError Callee
  allocator : ImportDecl
  invoker : ImportDecl

/-- Where a call of `r` leads: to a method of the assembly, or to the first one of that identifier
among those that the host provides. -/
def Assembly.callee (a : Assembly) (o : Options) (r : MethodRef) : Except CompileError Callee :=
  match a.findMethod r with
  | some _ => .ok (.own r.fullName)
  | none =>
    match o.bridge.imports.find? (·.name == Handle.methodIdentifier a.name r) with
    | some d => .ok (.host d)
    | none => .error (.unresolvedImport (Handle.methodIdentifier a.name r))

def Assembly.setting (a : Assembly) (o : Options) : Setting where
  home := a.name
  select := CilCompiler.select a o.headerSize
  callee := a.callee o
  allocator := o.bridge.allocatorDecl
  invoker := o.bridge.invokerDecl

abbrev Draft := StateT SlotTable (Except CompileError)

def Draft.slot (slot : Slot) : Draft Nat := fun slots => slots.resolved slot .i32

/-- The draft of one step. -/
def Emit.draft (x : Setting) (cursor : Cursor) : Emit → Draft (List NamedOp)
  | .op operator => return [.plain operator]
  | .load slot => return [.plain (.localGet (← Draft.slot slot))]
  | .store slot => return [.plain (.localSet (← Draft.slot slot))]
  | .branch target conditional => do
    match ← cursor.reach target with
    | .forward label => return [.plain (jump conditional label)]
    | .backward resume label =>
      let selector ← Draft.slot .resumeSelector
      return [.plain (.const (Int32.ofNat resume)), .plain (.localSet selector),
        .plain (jump conditional label)]
  | .handle name => return [.globalGet name]
  | .allocate => return [.call (.host x.allocator)]
  | .call m => return [.call (← x.callee m)]

/-- The draft of a sequence. -/
def draftAll (x : Setting) (cursor : Cursor) : List Emit → Draft (List NamedOp)
  | [] => return []
  | e :: es => do
    let named ← e.draft x cursor
    return named ++ (← draftAll x cursor es)

/-- The draft of the dispatch at the head of the loop. -/
def draftDispatch (size : Nat) : Draft (List NamedOp) := do
  if size = 0 then return []
  else
    let selector ← Draft.slot .resumeSelector
    return [Op.block, .localGet selector, .brTable (List.range size) size, .close].map .plain

/-- The draft of the instructions from the cursor on. -/
def draftInstructions (x : Setting) (cursor : Cursor) : List Instruction → Draft (List NamedOp)
  | [] => return (List.replicate cursor.openRegions Op.close).map .plain
  | i :: is => do
    let sequence ← x.select i
    let named ← draftAll x (cursor.advance i.offset) sequence
    let rest ← draftInstructions x (cursor.advance i.offset) is
    return (List.replicate (cursor.closing i.offset) Op.close).map .plain ++ named ++ rest

/-- The draft of a body. -/
def draftBody (x : Setting) (hasResult : Bool) (body : MethodBody) : Draft (List NamedOp) := do
  if body.instructions.isEmpty then return (epilogue hasResult).map .plain
  else
    let schedule ← Schedule.analyze body
    let dispatch ← draftDispatch schedule.size
    let code ← draftInstructions x { schedule } body.instructions
    return (Op.loop :: List.replicate schedule.size .block).map .plain ++ dispatch ++ code ++
      (Op.close :: epilogue hasResult).map .plain

/-! ## Steps that end as a draft does -/

variable {α β γ δ : Type}

/-- An outcome agrees with a plain result: both are one error, or `R` ties the two values and the
state. -/
inductive Build.Agrees (R : α → β → BuildState → Prop) :
    Except CompileError α × BuildState → Except CompileError β → Prop
  | error (e : CompileError) (s : BuildState) : Agrees R (.error e, s) (.error e)
  | ok {r : α} {b : β} {s : BuildState} : R r b s → Agrees R (.ok r, s) (.ok b)

/-- From the state `s`, the step ends as `y` does. -/
def Build.EndsAs (x : Build α) (s : BuildState) (R : α → β → BuildState → Prop)
    (y : Except CompileError β) : Prop :=
  Build.Agrees R (Build.run x s) y

namespace Build.EndsAs

variable {s : BuildState} {R : α → β → BuildState → Prop} {R' : γ → δ → BuildState → Prop}
  {x : Build α} {y : Except CompileError β}

theorem bind {f : α → Build γ} {g : β → Except CompileError δ} (hx : EndsAs x s R y)
    (hf : ∀ r b s', R r b s' → EndsAs (f r) s' R' (g b)) : EndsAs (x >>= f) s R' (y >>= g) := by
  unfold EndsAs at hx ⊢
  rw [run_bind]
  cases hrun : Build.run x s with
  | mk outcome s' =>
      rw [hrun] at hx
      cases hx with
      | error e =>
          exact .error e s'
      | ok hr =>
          exact hf _ _ _ hr

/-- A step that the draft knows to succeed. -/
theorem bind_of_ok {b : β} {f : α → Build γ} {z : Except CompileError δ}
    (hx : EndsAs x s R (.ok b)) (hf : ∀ r s', R r b s' → EndsAs (f r) s' R' z) :
    EndsAs (x >>= f) s R' z := by
  unfold EndsAs at hx ⊢
  rw [run_bind]
  cases hrun : Build.run x s with
  | mk outcome s' =>
      rw [hrun] at hx
      cases hx with
      | ok hr =>
          exact hf _ _ hr

theorem pure {r : α} {b : β} (h : R r b s) : EndsAs (pure r) s R (.ok b) :=
  .ok h

theorem throw (e : CompileError) : EndsAs (throw e : Build α) s R (.error e) :=
  .error e s

theorem ofExcept (e : Except CompileError α) :
    EndsAs (ofExcept e) s (fun r b s' => r = b ∧ s' = s) e := by
  cases e with
  | error err =>
      exact .error err s
  | ok r =>
      exact .ok ⟨rfl, rfl⟩

theorem get_bind {f : BuildState → Build α} (h : EndsAs (f s) s R y) : EndsAs (get >>= f) s R y :=
  h

/-- An event changes nothing but the log. -/
theorem report_bind {event : Event} {f : Unit → Build α}
    (h : ∀ s', s'.tables = s.tables → EndsAs (f ()) s' R y) :
    EndsAs (report event >>= f) s R y :=
  h { s with log := s.log.push event } rfl

end Build.EndsAs

/-- From the given slots and state, the step ends as the draft `y` does, with the same slots. -/
def Linker.EndsAs (x : Linker α) (slots : SlotTable) (s : BuildState)
    (R : α → β → BuildState → Prop) (y : Draft β) : Prop :=
  Build.EndsAs (StateT.run x slots) s (fun p q s' => p.2 = q.2 ∧ R p.1 q.1 s') (StateT.run y slots)

namespace Linker.EndsAs

variable {slots : SlotTable} {s : BuildState} {R : α → β → BuildState → Prop}
  {R' : γ → δ → BuildState → Prop} {x : Linker α} {y : Draft β}

theorem bind {f : α → Linker γ} {g : β → Draft δ} (hx : EndsAs x slots s R y)
    (hf : ∀ r b slots' s', R r b s' → EndsAs (f r) slots' s' R' (g b)) :
    EndsAs (x >>= f) slots s R' (y >>= g) := by
  have hstep : ∀ (p : α × SlotTable) (q : β × SlotTable) s', p.2 = q.2 ∧ R p.1 q.1 s' →
      Build.EndsAs (StateT.run (f p.1) p.2) s' (fun p q s' => p.2 = q.2 ∧ R' p.1 q.1 s')
        (StateT.run (g q.1) q.2) := by
    rintro ⟨r, slots'⟩ ⟨b, slots''⟩ s' ⟨rfl, hr⟩
    exact hf r b slots' s' hr
  exact Build.EndsAs.bind hx hstep

theorem pure {r : α} {b : β} (h : R r b s) : EndsAs (pure r) slots s R (pure b) :=
  .ok ⟨rfl, h⟩

/-- A step of the build does not touch the slots. -/
theorem lift {x : Build α} {y : Except CompileError β} (h : Build.EndsAs x s R y) :
    EndsAs (liftM x) slots s R (liftM y) := by
  have hlift : ∀ r b s', R r b s' → Build.EndsAs (Pure.pure (r, slots) : Build (α × SlotTable)) s'
      (fun p q s' => p.2 = q.2 ∧ R p.1 q.1 s') (.ok (b, slots)) :=
    fun r b s' hr => .ok ⟨rfl, hr⟩
  exact h.bind hlift

theorem slot (z : Slot) :
    EndsAs (Linker.slot z) slots s (fun i j s' => i = j ∧ s' = s) (Draft.slot z) := by
  have hrun := exec_slot z slots s
  have hdraft : StateT.run (Draft.slot z) slots = slots.resolved z .i32 := rfl
  unfold EndsAs Build.EndsAs
  rw [hdraft, show Build.run (StateT.run (Linker.slot z) slots) s = _ from hrun]
  cases slots.resolved z .i32 with
  | error e =>
      exact .error e s
  | ok place =>
      exact .ok ⟨rfl, rfl, rfl⟩

theorem report_bind {event : Event} {f : Unit → Linker α}
    (h : ∀ s', s'.tables = s.tables → EndsAs (f ()) slots s' R y) :
    EndsAs (liftM (Build.report event) >>= f) slots s R y :=
  h { s with log := s.log.push event } rfl

end Linker.EndsAs

/-! ## Linking -/

theorem isPlain_of_isSimple {op : Op} (h : op.isSimple) : op.isPlain := by
  cases op with
  | call index =>
      cases h
  | globalGet index =>
      cases h
  | _ =>
      rfl

section Linking

variable {a : Assembly} {o : Options} {s : BuildState} {slots : SlotTable} {c : Cursor}

/-- What the host provides keeps its place during a build. -/
theorem callee?_of_describes (hs : (BuildState.start a o).tables.Grows s.tables) {index : Nat}
    {f : FunctionImport} {d : ImportDecl}
    (hf : (BuildState.start a o).tables.imports[index]? = some f)
    (hd : d.Describes (BuildState.start a o).tables.types.keys f) :
    s.tables.toNames.callee? index = some (.host d) :=
  Names.callee?_of_grows hs.toNames (Names.callee?_of_import hf hd)

theorem callee?_of_declared (hs : (BuildState.start a o).tables.Grows s.tables) {index : Nat}
    {d : ImportDecl} (h : (o.bridge.declared (!o.interopMethods.isEmpty))[index]? = some d) :
    s.tables.toNames.callee? index = some (.host d) := by
  have hdeclared := Tables.declared_ofBridge o.bridge (!o.interopMethods.isEmpty)
  rcases Tables.getElem?_of_forall₂ hdeclared.imports h with ⟨f, hf, hd⟩
  exact callee?_of_describes hs hf hd

theorem callIndex_endsAs (hs : (BuildState.start a o).tables.Grows s.tables) (r : MethodRef) :
    Build.EndsAs (Build.callIndex a r) s
      (fun i callee s' => Writes s.tables [.call i] [.call callee] s') (a.callee o r) := by
  unfold Build.callIndex Assembly.callee
  cases a.findMethod r with
  | some found =>
      rcases Build.run_reserve r.fullName s with ⟨log, hrun⟩
      unfold Build.EndsAs
      rw [hrun]
      exact .ok (.reserve s r.fullName log)
  | none =>
      -- what the host provides is declared before the first method and never changes, so the look-up
      -- can be answered from the state at the start
      have hstart := provides_start a o
      have hrun : Build.EndsAs
          (Build.ofExcept (s.tables.importIndex (Handle.methodIdentifier a.name r))) s
          (fun i callee s' => Writes s.tables [.call i] [.call callee] s')
          (match o.bridge.imports.find? (·.name == Handle.methodIdentifier a.name r) with
           | some d => .ok (.host d)
           | none => .error (.unresolvedImport (Handle.methodIdentifier a.name r))) := by
        unfold Tables.importIndex
        rw [hs.hostMethods]
        cases hlookup : (BuildState.start a o).tables.hostMethods.lookup
            (Handle.methodIdentifier a.name r) with
        | none =>
            have hnone : o.bridge.imports.find?
                (·.name == Handle.methodIdentifier a.name r) = none :=
              List.find?_eq_none.2 fun d hd => by simpa using hstart.missing hlookup d hd
            rw [hnone]
            exact .throw _
        | some index =>
            rcases hstart.found hlookup with ⟨-, d, type, hfirst, hget, htype⟩
            have hname : d.name = Handle.methodIdentifier a.name r := by
              simpa using List.find?_some hfirst
            rw [hfirst]
            exact .pure (.host (callee?_of_describes hs hget ⟨rfl, hname.symm, htype⟩))
      exact hrun

theorem global_endsAs (name : String) :
    Build.EndsAs (Build.global name) s
      (fun i _ s' => Writes s.tables [.globalGet i] [.globalGet name] s') (.ok ()) := by
  rcases Build.run_global name s with ⟨log, hrun⟩
  unfold Build.EndsAs
  rw [hrun]
  exact .ok (.global s name log)

theorem link_endsAs (hs : (BuildState.start a o).tables.Grows s.tables) {e : Emit}
    (he : e.isSimple) :
    Linker.EndsAs (e.link a c) slots s (Writes s.tables) (e.draft (a.setting o) c) := by
  cases e with
  | op op =>
      exact .pure (.plain [op] (by simpa using isPlain_of_isSimple he))
  | load z =>
      refine (Linker.EndsAs.slot z).bind ?_
      rintro i _ slots' _ ⟨rfl, rfl⟩
      exact .pure (.plain [.localGet i] rfl)
  | store z =>
      refine (Linker.EndsAs.slot z).bind ?_
      rintro i _ slots' _ ⟨rfl, rfl⟩
      exact .pure (.plain [.localSet i] rfl)
  | branch target conditional =>
      refine (Linker.EndsAs.lift (.ofExcept (c.reach target))).bind ?_
      rintro reach _ slots' _ ⟨rfl, rfl⟩
      cases reach with
      | forward label =>
          exact .pure (.plain [jump conditional label] (by cases conditional <;> rfl))
      | backward resume label =>
          refine (Linker.EndsAs.slot .resumeSelector).bind ?_
          rintro i _ slots'' _ ⟨rfl, rfl⟩
          exact .pure (.plain [.const (Int32.ofNat resume), .localSet i, jump conditional label]
            (by cases conditional <;> rfl))
  | handle name =>
      -- the draft asks for nothing here, the name alone is its result
      have hdraft : Emit.draft (a.setting o) c (.handle name) =
          liftM (Except.ok () : Except CompileError Unit) >>= fun _ =>
            (pure [.globalGet name] : Draft (List NamedOp)) := rfl
      rw [hdraft]
      exact (Linker.EndsAs.lift (global_endsAs name)).bind fun i _ slots' s' hw => .pure hw
  | allocate =>
      exact .pure (.host (callee?_of_declared hs rfl))
  | call m =>
      exact (Linker.EndsAs.lift (callIndex_endsAs hs m)).bind
        fun i callee slots' s' hw => .pure hw

theorem linkAll_endsAs (hs : (BuildState.start a o).tables.Grows s.tables) {es : List Emit}
    (hes : ∀ e ∈ es, e.isSimple) :
    Linker.EndsAs (linkAll a c es) slots s (Writes s.tables) (draftAll (a.setting o) c es) := by
  -- each step leaves grown tables, so the hypothesis on the start is carried along
  induction es generalizing slots s with
  | nil =>
      exact .pure (.plain [] rfl)
  | cons e es ih =>
      refine (link_endsAs hs (hes e (by simp))).bind ?_
      intro ops named slots₁ s₁ hfirst
      refine (ih (hs.trans hfirst.grown.toGrows) fun e' he' => hes e' (by simp [he'])).bind ?_
      intro rest named' slots₂ s₂ hrest
      exact .pure (hfirst.append hrest)

theorem dispatch_endsAs (size : Nat) :
    Linker.EndsAs (dispatch size) slots s (Writes s.tables) (draftDispatch size) := by
  unfold dispatch draftDispatch
  split
  · exact .pure (.plain [] rfl)
  · refine (Linker.EndsAs.slot .resumeSelector).bind ?_
    rintro i _ slots' _ ⟨rfl, rfl⟩
    exact .pure (.plain [.block, .localGet i, .brTable (List.range size) size, .close] rfl)

theorem select_endsAs (i : Instruction) :
    Build.EndsAs (Build.ofExcept (select a o.headerSize i)) s
      (fun es es' s' => es = es' ∧ s' = s ∧ ∀ e ∈ es, e.isSimple)
      ((a.setting o).select i) := by
  have hsetting : (a.setting o).select i = select a o.headerSize i := rfl
  rw [hsetting]
  cases hes : select a o.headerSize i with
  | error e =>
      exact .throw e
  | ok es =>
      exact .pure ⟨rfl, rfl, isSimple_of_select hes⟩

theorem lowerInstructions_endsAs (hs : (BuildState.start a o).tables.Grows s.tables)
    {is : List Instruction} :
    Linker.EndsAs (lowerInstructions a o.headerSize c is) slots s (Writes s.tables)
      (draftInstructions (a.setting o) c is) := by
  induction is generalizing c slots s with
  | nil =>
      exact .pure (.plain _ (all_isPlain_replicate _ .close rfl))
  | cons i is ih =>
      refine .report_bind fun s₁ hs₁ => ?_
      rw [← hs₁] at hs ⊢
      refine (Linker.EndsAs.lift (select_endsAs i)).bind ?_
      rintro es _ slots₁ _ ⟨rfl, rfl, hes⟩
      refine (linkAll_endsAs hs hes).bind ?_
      intro ops named slots₂ s₂ hfirst
      refine (ih (hs.trans hfirst.grown.toGrows)).bind ?_
      intro rest named' slots₃ s₃ hrest
      have hclosing := all_isPlain_replicate (c.closing i.offset) .close rfl
      exact .pure (((Writes.plain _ hclosing).append hfirst).append hrest)

/-- Lowering a body ends as its draft does. -/
theorem lowerBody_endsAs (hs : (BuildState.start a o).tables.Grows s.tables) (hasResult : Bool)
    (body : MethodBody) :
    Linker.EndsAs (lowerBody a o.headerSize hasResult body) slots s (Writes s.tables)
      (draftBody (a.setting o) hasResult body) := by
  unfold lowerBody draftBody
  split
  · exact .pure (.plain _ (all_isPlain_epilogue hasResult))
  · refine (Linker.EndsAs.lift (.ofExcept (Schedule.analyze body))).bind ?_
    rintro schedule _ slots₁ _ ⟨rfl, rfl⟩
    refine (dispatch_endsAs schedule.size).bind ?_
    intro table named slots₂ s₂ hdispatch
    refine (lowerInstructions_endsAs (hs.trans hdispatch.grown.toGrows)).bind ?_
    intro code named' slots₃ s₃ hcode
    have hhead : (Op.loop :: List.replicate schedule.size .block).all Op.isPlain :=
      all_isPlain_replicate schedule.size .block rfl
    have hfront := ((Writes.plain _ hhead).append hdispatch).append hcode
    have hwhole := hfront.append (Writes.plain (.close :: epilogue hasResult)
      (all_isPlain_epilogue hasResult))
    refine .pure ?_
    simpa using hwhole

end Linking

end CilCompiler
