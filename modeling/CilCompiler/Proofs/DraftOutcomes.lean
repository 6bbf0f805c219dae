import CilCompiler.Proofs.Acceptance
import CilCompiler.Proofs.Drafts

/-!
# What drafts come to

The draft of a body fails only for reasons that lie in the input: the errors with which the compiler
guards against its own faults never arise. If it does not fail, then its operators with names are
what the instructions name, in their order.

* `CompileError.isInternal` singles out the guards.
* `Proper` and `Draft.Proper` say of an outcome that its error is no guard, or that its value has
  some property. They are closed under `bind`.
* `draftBody_proper` is what is known of the draft of a body.
-/

namespace CilCompiler

open Wasm (Op ValueKind)

variable {α β : Type}

/-! ## Proper outcomes -/

/-- The errors that guard against faults of the compiler itself. -/
def CompileError.isInternal : CompileError → Bool
  | .missingBody _ | .slotConflict .. | .controlFlow (.unscheduled _) => true
  | _ => false

/-- The outcome is a value with `Q`, or an error that lies in the input. -/
inductive Proper (Q : α → Prop) : Except CompileError α → Prop
  | ok {r : α} : Q r → Proper Q (.ok r)
  | error {e : CompileError} : e.isInternal = false → Proper Q (.error e)

namespace Proper

variable {Q : α → Prop} {Q' : β → Prop} {x : Except CompileError α}

theorem bind {f : α → Except CompileError β} (hx : Proper Q x) (hf : ∀ r, Q r → Proper Q' (f r)) :
    Proper Q' (x >>= f) := by
  cases hx with
  | ok hr =>
      exact hf _ hr
  | error he =>
      exact .error he

/-- What holds of the value can be added to what is known of the outcome. -/
theorem of_ok {P : α → Prop} (h : Proper Q x) (hok : ∀ r, x = .ok r → Q r → P r) : Proper P x := by
  cases h with
  | ok hr =>
      exact .ok (hok _ rfl hr)
  | error he =>
      exact .error he

theorem not_internal (h : Proper Q x) {e : CompileError} (hx : x = .error e) :
    e.isInternal = false := by
  subst hx
  cases h with
  | error he =>
      exact he

theorem holds (h : Proper Q x) {r : α} (hx : x = .ok r) : Q r := by
  subst hx
  cases h with
  | ok hr =>
      exact hr

end Proper

/-- From slots that hold words, the draft is a value with `Q` and such slots, or fails with an error
that lies in the input. -/
def Draft.Proper (arity : Nat) (Q : α → Prop) (x : Draft α) : Prop :=
  ∀ slots : SlotTable, slots.HoldsWords arity →
    CilCompiler.Proper (fun p => Q p.1 ∧ p.2.HoldsWords arity) (StateT.run x slots)

namespace Draft.Proper

variable {arity : Nat} {Q : α → Prop} {Q' : β → Prop} {x : Draft α}

theorem bind {f : α → Draft β} (hx : Draft.Proper arity Q x)
    (hf : ∀ r, Q r → Draft.Proper arity Q' (f r)) : Draft.Proper arity Q' (x >>= f) :=
  fun slots hslots => (hx slots hslots).bind fun p hp => hf p.1 hp.1 p.2 hp.2

theorem pure {r : α} (h : Q r) : Draft.Proper arity Q (pure r) :=
  fun _ hslots => .ok ⟨h, hslots⟩

theorem lift {y : Except CompileError α} (h : CilCompiler.Proper Q y) :
    Draft.Proper arity Q (liftM y) :=
  fun _ hslots => h.bind fun _ hr => .ok ⟨hr, hslots⟩

/-- A request for a word never meets a slot of another kind. -/
theorem slot (z : Slot) : Draft.Proper arity (fun _ => True) (Draft.slot z) := by
  intro slots hslots
  have hrun : StateT.run (Draft.slot z) slots = slots.resolved z .i32 := rfl
  rw [hrun]
  cases hr : slots.resolved z .i32 with
  | ok place =>
      exact .ok ⟨trivial, hslots.resolve (SlotTable.resolved_eq_ok_iff.1 hr)⟩
  | error e =>
      rcases SlotTable.resolved_eq_error_iff.1 hr with ⟨slots', hr'⟩
      rcases (SlotTable.resolve_error_cases hr').2 with ⟨place, hfind, hkind, -⟩ | ⟨n, -, -, rfl⟩
      · exact absurd (hslots.kind hfind) hkind
      · exact .error rfl

end Draft.Proper

/-! ## Errors that lie in the input -/

section Causes

variable {a : Assembly} {o : Options} {headerSize : UInt32} {i : Instruction}

theorem valueKind_error {type : TypeSig} {e : CompileError} (h : valueKind type = .error e) :
    e = .unsupportedType type := by
  unfold valueKind at h
  split at h <;> cases h
  rfl

theorem boundedOffset_proper (field : FieldRef) (offset : Nat) :
    Proper (fun _ => True) (boundedOffset field offset) := by
  unfold boundedOffset
  split
  · exact .ok trivial
  · exact .error rfl

theorem offsetBehind_proper (field : FieldRef) (offset : UInt32) (fs : List FieldDef) :
    Proper (fun _ => True) (offsetBehind field offset fs) := by
  induction fs generalizing offset with
  | nil =>
      exact .ok trivial
  | cons f fs ih =>
      unfold offsetBehind
      split
      · exact ih offset
      · split
        · next e he => exact .error (valueKind_error he ▸ rfl)
        · split
          · next e he => exact .error ((boundedOffset_proper _ _).not_internal he)
          · next next _ => exact ih next

theorem fieldOffset_proper (field : FieldRef) :
    Proper (fun _ => True) (fieldOffset a headerSize field) := by
  unfold fieldOffset
  split
  · exact .error rfl
  · split
    · exact .error rfl
    · next found _ =>
      split
      · exact .error rfl
      · split
        · next e he => exact .error (valueKind_error he ▸ rfl)
        · split
          · exact boundedOffset_proper _ _
          · exact offsetBehind_proper _ _ _

/-- A method has no signature only if some type is not supported. -/
theorem methodSignature_error {m : MethodDef} {e : CompileError}
    (h : methodSignature m = .error e) : ∃ type, e = .unsupportedType type := by
  unfold methodSignature at h
  cases hparams : m.params.mapM (valueKind ·.type) with
  | error e' =>
      rw [hparams] at h
      cases h
      rcases exists_of_mapM_error hparams with ⟨param, -, hparam⟩
      exact ⟨_, valueKind_error hparam⟩
  | ok kinds =>
      rw [hparams] at h
      cases hresult : resultKind m.result with
      | ok kind =>
          rw [hresult] at h
          cases h
      | error e' =>
          rw [hresult] at h
          cases h
          unfold resultKind at hresult
          split at hresult
          · cases hresult
          · cases hkind : valueKind m.result with
            | ok kind =>
                rw [hkind] at hresult
                cases hresult
            | error e' =>
                rw [hkind] at hresult
                cases hresult
                exact ⟨_, valueKind_error hkind⟩

theorem callee_proper (r : MethodRef) : Proper (fun _ => True) (a.callee o r) := by
  unfold Assembly.callee
  split
  · exact .ok trivial
  · split
    · exact .ok trivial
    · exact .error rfl

theorem collect_proper (found : List UInt32) (is : List Instruction) :
    Proper (fun _ => True) (Schedule.collect found is) := by
  induction is generalizing found with
  | nil =>
      exact .ok trivial
  | cons i is ih =>
      unfold Schedule.collect
      split
      · exact ih _
      · next e he =>
        refine .error ?_
        unfold Schedule.targetsOf at he
        split at he
        · split at he <;> cases he
          rfl
        · split at he
          · split at he <;> cases he
            rfl
          · cases he

theorem analyze_proper (body : MethodBody) :
    Proper (fun _ => True) (Schedule.analyze body) := by
  unfold Schedule.analyze
  split
  · exact .error rfl
  · split
    · exact .error rfl
    · split
      · next e he => exact .error ((collect_proper _ _).not_internal he)
      · split
        · exact .error rfl
        · exact .ok trivial

theorem branch_not_mem_callSequence {r : MethodRef} {t : UInt32} {c : Bool} :
    .branch t c ∉ callSequence r := by
  unfold callSequence
  split <;> simp

theorem branch_not_mem_constructSequence {home : String} {r : MethodRef} {t : UInt32} {c : Bool} :
    .branch t c ∉ constructSequence home r := by
  unfold constructSequence
  split <;> simp

theorem mem_of_branch_mem_switchSequence {ts : List UInt32} {t : UInt32} {c : Bool}
    (h : .branch t c ∈ switchSequence ts) : t ∈ ts := by
  rcases List.mem_cons.1 h with h | h
  · cases h
  · rcases List.mem_flatMap.1 h with ⟨⟨target, n⟩, hmem, h⟩
    have hbranch : t = target ∧ c = true := by simpa using h
    exact hbranch.1 ▸ List.fst_mem_of_mem_zipIdx hmem

/-- Selection fails for reasons that lie in the input, and a sequence jumps only where the
instruction does. -/
theorem select_proper (i : Instruction) :
    Proper (fun es => ∀ t c, Emit.branch t c ∈ es → i.JumpsTo t) (select a headerSize i) := by
  unfold select
  split
  case h_10 test conditional t haction hoperand =>
    have hkind : i.opcode.action.operandKind = .target := by
      rw [haction]
      rfl
    refine .ok fun t' c h => .inl ⟨(isBranch_iff.2 hkind).1, ?_⟩
    have hbranch : t' = t ∧ c = conditional := by simpa using h
    exact hbranch.1 ▸ hoperand
  case h_11 ts haction hoperand =>
    exact .ok fun t c h =>
      .inr ⟨eq_switch_of_action haction, ts, hoperand, mem_of_branch_mem_switchSequence h⟩
  case h_12 r haction hoperand =>
    exact .ok fun t c h => absurd h branch_not_mem_callSequence
  case h_13 r haction hoperand =>
    exact .ok fun t c h => absurd h branch_not_mem_constructSequence
  case h_14 f haction hoperand =>
    exact (fieldOffset_proper f).bind fun n _ => .ok (by simp)
  case h_15 f haction hoperand =>
    exact (fieldOffset_proper f).bind fun n _ => .ok (by simp)
  case h_16 operand haction =>
    exact .error rfl
  case h_17 =>
    exact .error rfl
  -- the other sequences are fixed, or hold the operand
  all_goals exact .ok (by simp)

end Causes

/-! ## Drafts of bodies -/

/-- Whether an operator holds a name. -/
def NamedOp.isNamed : NamedOp → Bool
  | .plain _ => false
  | _ => true

theorem filter_isNamed_plain (ops : List Op) :
    (ops.map NamedOp.plain).filter NamedOp.isNamed = [] := by
  simp [NamedOp.isNamed]

/-- What is read off the operators with names can be read off the whole draft. -/
theorem filterMap_filter_isNamed {g : NamedOp → Option β} (hg : ∀ op, g (.plain op) = none)
    (named : List NamedOp) : (named.filter NamedOp.isNamed).filterMap g = named.filterMap g := by
  induction named with
  | nil =>
      rfl
  | cons op named ih =>
      cases op with
      | plain op =>
          rw [List.filter_cons_of_neg (by simp [NamedOp.isNamed]), ih,
            List.filterMap_cons_none (hg op)]
      | _ =>
          rw [List.filter_cons_of_pos rfl, List.filterMap_cons, List.filterMap_cons, ih]

/-- The operators with names that a step comes to. -/
def Emit.named (x : Setting) : Emit → List NamedOp
  | .handle name => [.globalGet name]
  | .allocate => [.call (.host x.allocator)]
  | .call r =>
    match x.callee r with
    | .ok callee => [.call callee]
    | .error _ => []
  | _ => []

theorem named_call_ok {x : Setting} {r : MethodRef} {callee : Callee} (h : x.callee r = .ok callee) :
    Emit.named x (.call r) = [.call callee] := by
  rw [Emit.named, h]

theorem named_call_error {x : Setting} {r : MethodRef} {e : CompileError}
    (h : x.callee r = .error e) : Emit.named x (.call r) = [] := by
  rw [Emit.named, h]

theorem named_eq_nil {x : Setting} {e : Emit} (h : e.isNaming = false) : e.named x = [] := by
  cases e with
  | handle name =>
      cases h
  | allocate =>
      cases h
  | call r =>
      cases h
  | _ =>
      rfl

/-- The operators with names that an instruction comes to. -/
def Instruction.named (x : Setting) (i : Instruction) : List NamedOp :=
  (i.references x.home).flatMap (Emit.named x)

section Bodies

variable {a : Assembly} {o : Options} {arity : Nat} {c : Cursor}

/-- A jump to a target in the schedule can be written. -/
theorem reach_proper {target : UInt32} (h : target ∈ c.schedule.targets) :
    Proper (fun _ => True) (c.reach target) := by
  rcases reach_ok_iff.2 h with ⟨reach, hreach⟩
  rw [hreach]
  exact .ok trivial

theorem draft_proper {e : Emit}
    (he : ∀ target conditional, e = .branch target conditional → target ∈ c.schedule.targets) :
    Draft.Proper arity (fun named => named.filter NamedOp.isNamed = e.named (a.setting o))
      (e.draft (a.setting o) c) := by
  cases e with
  | op op =>
      exact .pure rfl
  | load z =>
      exact (Draft.Proper.slot z).bind fun i _ => .pure rfl
  | store z =>
      exact (Draft.Proper.slot z).bind fun i _ => .pure rfl
  | branch target conditional =>
      refine (Draft.Proper.lift (reach_proper (he target conditional rfl))).bind fun reach _ => ?_
      cases reach with
      | forward label =>
          exact .pure rfl
      | backward resume label =>
          exact (Draft.Proper.slot .resumeSelector).bind fun i _ => .pure rfl
  | handle name =>
      exact .pure rfl
  | allocate =>
      exact .pure rfl
  | call r =>
      have hcallee : Proper (fun callee => (a.setting o).callee r = .ok callee)
          ((a.setting o).callee r) :=
        (callee_proper r).of_ok fun callee hr _ => hr
      refine (Draft.Proper.lift hcallee).bind fun callee hr => .pure ?_
      rw [named_call_ok hr]
      rfl

theorem draftAll_proper {es : List Emit}
    (hes : ∀ target conditional, .branch target conditional ∈ es → target ∈ c.schedule.targets) :
    Draft.Proper arity
      (fun named => named.filter NamedOp.isNamed = es.flatMap (Emit.named (a.setting o)))
      (draftAll (a.setting o) c es) := by
  induction es with
  | nil =>
      exact .pure rfl
  | cons e es ih =>
      have hfirst : ∀ target conditional, e = .branch target conditional →
          target ∈ c.schedule.targets :=
        fun target conditional he => hes target conditional (by simp [he])
      refine (draft_proper hfirst).bind fun named hnamed => ?_
      refine (ih fun target conditional h => hes target conditional (by simp [h])).bind ?_
      intro rest hrest
      refine .pure ?_
      rw [List.filter_append, hnamed, hrest, List.flatMap_cons]

theorem draftInstructions_proper {is : List Instruction}
    (htargets : ∀ i ∈ is, ∀ t, i.JumpsTo t → t ∈ c.schedule.targets) :
    Draft.Proper arity
      (fun named => named.filter NamedOp.isNamed = is.flatMap (Instruction.named (a.setting o)))
      (draftInstructions (a.setting o) c is) := by
  -- the cursor moves on with every instruction, but its schedule stays the same
  induction is generalizing c with
  | nil =>
      exact .pure (filter_isNamed_plain _)
  | cons i is ih =>
      have hselect : Proper (fun es => (∀ t c', Emit.branch t c' ∈ es → i.JumpsTo t) ∧
          es.flatMap (Emit.named (a.setting o)) = i.named (a.setting o))
          ((a.setting o).select i) := by
        refine Proper.of_ok (select_proper i) fun es hes hjumps => ⟨hjumps, ?_⟩
        exact flatMap_of_select (fun e => named_eq_nil) hes
      refine (Draft.Proper.lift hselect).bind ?_
      rintro es ⟨hjumps, hnames⟩
      have hes : ∀ t c', Emit.branch t c' ∈ es → t ∈ (c.advance i.offset).schedule.targets :=
        fun t c' h => htargets i (by simp) t (hjumps t c' h)
      have his : ∀ j ∈ is, ∀ t, j.JumpsTo t → t ∈ (c.advance i.offset).schedule.targets :=
        fun j hj => htargets j (by simp [hj])
      refine (draftAll_proper hes).bind fun named hnamed => ?_
      refine (ih his).bind fun rest hrest => .pure ?_
      rw [List.filter_append, List.filter_append, filter_isNamed_plain, hnamed, hrest, hnames,
        List.flatMap_cons, List.nil_append]

theorem draftDispatch_proper (size : Nat) :
    Draft.Proper arity (fun named => named.filter NamedOp.isNamed = []) (draftDispatch size) := by
  unfold draftDispatch
  split
  · exact .pure rfl
  · exact (Draft.Proper.slot .resumeSelector).bind fun i _ => .pure (filter_isNamed_plain _)

/-- The draft of a body fails for reasons that lie in the input, or else its operators with names
are those that its instructions come to, in their order. -/
theorem draftBody_proper (hasResult : Bool) (body : MethodBody) :
    Draft.Proper arity
      (fun named => named.filter NamedOp.isNamed =
        body.instructions.flatMap (Instruction.named (a.setting o)))
      (draftBody (a.setting o) hasResult body) := by
  unfold draftBody
  split
  · next hempty =>
    rw [List.isEmpty_iff.1 hempty]
    exact .pure (filter_isNamed_plain _)
  · have hanalyze : Proper (fun schedule => ∀ i ∈ body.instructions, ∀ t, i.JumpsTo t →
        t ∈ schedule.targets) (Schedule.analyze body) := by
      -- the analysis collects the targets of the very instructions that are drafted
      refine (analyze_proper body).of_ok fun schedule hschedule _ => ?_
      exact fun i hi t ht => (Schedule.mem_targets hschedule).2 ⟨i, hi, ht⟩
    refine (Draft.Proper.lift hanalyze).bind fun schedule htargets => ?_
    refine (draftDispatch_proper schedule.size).bind fun table htable => ?_
    refine (draftInstructions_proper htargets).bind fun code hcode => .pure ?_
    simp only [List.filter_append, filter_isNamed_plain, htable, hcode, List.nil_append,
      List.append_nil]

end Bodies

end CilCompiler
