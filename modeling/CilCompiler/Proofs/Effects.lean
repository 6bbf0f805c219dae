import Mathlib.Data.List.Nodup
import CilCompiler.Proofs.Sequences

/-!
# Effects and their expansions

The expansion of an effect does to a machine what the effect does to a run of the body.

* `Realises` says when an engine does by index what a host does by name.
* `Follows` is what a machine does to follow one step: it runs through the expansion, or it comes to
  a jump in it that is taken.
* `simulates_perform` says that the machine follows every effect, to the end if there is one.
-/

namespace CilCompiler

open Wasm

variable {σ : Type}

/-! ## Engines and hosts -/

/-- The effects of the instructions of a body. -/
def Source.Performs (p : Source σ) (e : Effect) : Prop :=
  ∃ i ∈ p.body.instructions, i.opcode.effect p.assembly p.headerSize i.operand = some e

/-- The engine does by index what the host does by name. A call takes as many words as the
reference declares, the receiver included; the constructor of the root class is never called. -/
structure Realises (engine : Engine σ) (p : Source σ) (tables : Tables) : Prop where
  load : engine.load = p.host.load
  store : engine.store = p.host.store
  handle {name : String} {n : Nat} :
    tables.globals.find? name = some n → engine.global n = p.host.handle name
  allocator : engine.arity Tables.allocator = 1
  allocate (type : Word) (host : σ) :
    engine.call Tables.allocator [type] host =
      (p.host.allocate type host).map fun (object, host) => (some object, host)
  call {r : MethodRef} {n : Nat} :
    p.Performs (.call r) → r.fullName ≠ objectConstructor → tables.callee p.assembly r = some n →
      engine.arity n = r.arity ∧ engine.call n = p.host.call r
  construct {r : MethodRef} {n : Nat} :
    p.Performs (.construct r) → r.fullName ≠ objectConstructor →
      tables.callee p.assembly r = some n →
      engine.arity n = r.params.length + 1 ∧ engine.call n = p.host.call r

/-! ## Following a step -/

/-- The slots of arguments and locals hold what they are in a run of the body. -/
structure Agrees (s : Source.State σ) (slots : Slot → Word) : Prop where
  args (n : UInt16) (x : Word) : s.args[n.toNat]? = some x → slots (.arg n) = x
  locals (n : UInt16) : slots (.loc n) = s.locals n

theorem Agrees.of_eq {s s' : Source.State σ} {slots slots' : Slot → Word} (h : Agrees s slots)
    (hargs : s'.args = s.args) (hlocals : s'.locals = s.locals)
    (harg : ∀ n, slots' (.arg n) = slots (.arg n)) (hloc : ∀ n, slots' (.loc n) = slots (.loc n)) :
    Agrees s' slots' where
  args n x hx := by rw [harg, h.args n x (hargs ▸ hx)]
  locals n := by rw [hloc, h.locals n, hlocals]

/-- How a machine in the sequence `es` follows the step of a body from `s` to another state. -/
inductive Follows (p : Source σ) (m : Machine σ) (l : Linkage) (c : Cursor) (es : List Emit)
    (slots : Slot → Word) (s : Source.State σ) : Source.State σ → Prop
  | falls {s' : Source.State σ} {slots' : Slot → Word} :
      s'.code = s.code → Agrees s' slots' →
      Runs m l c es ⟨slots, s.stack, s.host⟩ ⟨slots', s'.stack, s'.host⟩ →
      Follows p m l c es slots s s'
  /-- A jump that is taken on the empty stack changes nothing but the place in the body. -/
  | jumps {s' : Source.State σ} {target : UInt32} {conditional : Bool} {es₁ es₂ : List Emit}
      {slots' : Slot → Word} {stack' : List Word} :
      es = es₁ ++ .branch target conditional :: es₂ → s'.code = p.codeAt target →
      Agrees s' slots' → Taken conditional stack' s'.stack →
      Runs m l c es₁ ⟨slots, s.stack, s.host⟩ ⟨slots', stack', s'.host⟩ →
      (s.stack = [] → s' = { s with code := p.codeAt target }) →
      Follows p m l c es slots s s'

/-- A machine in the sequence `es` follows the body, on to another state or to its end. -/
def Simulates (p : Source σ) (m : Machine σ) (l : Linkage) (c : Cursor) (es : List Emit)
    (slots : Slot → Word) (s : Source.State σ) :
    Progress (Source.State σ) (Outcome σ) → Prop
  | .next s' => Follows p m l c es slots s s'
  | .done o => RunsTo m l c es ⟨slots, s.stack, s.host⟩ o
  | .stuck => True

section Effects

variable {p : Source σ} {m : Machine σ} {l : Linkage} {c : Cursor} {params : List ValueKind}
  {slots : Slot → Word} {s : Source.State σ}

/-! ## Variables -/

theorem Agrees.storeArg {n : UInt16} {x : Word} {stack : List Word} (h : Agrees s slots) :
    Agrees { s with args := s.args.set n.toNat x, stack } (Function.update slots (.arg n) x) where
  args k y hy := by
    by_cases hk : k = n
    · subst hk
      rcases List.getElem?_eq_some_iff.1 hy with ⟨hlt, hval⟩
      simpa using hval
    · have hne : n.toNat ≠ k.toNat := fun heq => hk (UInt16.toNat_inj.1 heq.symm)
      have hslot : Slot.arg k ≠ .arg n := fun heq => hk (Slot.arg.inj heq)
      rw [List.getElem?_set_ne hne] at hy
      rw [Function.update_of_ne hslot, h.args k y hy]
  locals k := by
    rw [Function.update_of_ne (by simp)]
    exact h.locals k

theorem Agrees.storeLocal {n : UInt16} {x : Word} {stack : List Word} (h : Agrees s slots) :
    Agrees { s with locals := fun k => if k = n then x else s.locals k, stack }
      (Function.update slots (.loc n) x) where
  args k y hy := by
    rw [Function.update_of_ne (by simp)]
    exact h.args k y hy
  locals k := by
    by_cases hk : k = n
    · subst hk
      simp
    · simp [hk, h.locals k]

theorem Agrees.scratch {x : Slot} {w : Word} (h : Agrees s slots) (harg : ∀ n, x ≠ .arg n)
    (hloc : ∀ n, x ≠ .loc n) : Agrees s (Function.update slots x w) :=
  h.of_eq rfl rfl (fun n => Function.update_of_ne (harg n).symm _ _)
    (fun n => Function.update_of_ne (hloc n).symm _ _)

theorem simulates_loadArg (ha : Agrees s slots) (n : UInt16) :
    Simulates p m l c [.load (.arg n)] slots s (p.perform s (.loadArg n)) := by
  simp only [Source.perform]
  cases hx : s.args[n.toNat]? with
  | none =>
      exact trivial
  | some x =>
      exact .falls rfl ⟨ha.args, ha.locals⟩ (.load (ha.args n x hx))

theorem simulates_storeArg (hw : l.slots.WellPlaced params) (ha : Agrees s slots) (n : UInt16) :
    Simulates p m l c [.store (.arg n)] slots s (p.perform s (.storeArg n)) := by
  rcases s with ⟨code, args, locals, stack, host⟩
  cases stack with
  | nil =>
      exact trivial
  | cons x stack =>
      simp only [Source.perform, Source.State.pop]
      split
      · exact .falls rfl ha.storeArg (.store hw (.arg n) x)
      · exact trivial

theorem simulates_loadLocal (ha : Agrees s slots) (n : UInt16) :
    Simulates p m l c [.load (.loc n)] slots s (p.perform s (.loadLocal n)) :=
  .falls rfl ⟨ha.args, ha.locals⟩ (.load (ha.locals n))

theorem simulates_storeLocal (hw : l.slots.WellPlaced params) (ha : Agrees s slots) (n : UInt16) :
    Simulates p m l c [.store (.loc n)] slots s (p.perform s (.storeLocal n)) := by
  rcases s with ⟨code, args, locals, stack, host⟩
  cases stack with
  | nil =>
      exact trivial
  | cons x stack =>
      exact .falls rfl ha.storeLocal (.store hw (.loc n) x)

theorem simulates_duplicate (hw : l.slots.WellPlaced params) (ha : Agrees s slots) :
    Simulates p m l c [.store .duplicate, .load .duplicate, .load .duplicate] slots s
      (p.perform s .duplicate) := by
  rcases s with ⟨code, args, locals, stack, host⟩
  cases stack with
  | nil =>
      exact trivial
  | cons x stack =>
      have hx : Function.update slots .duplicate x .duplicate = x := Function.update_self _ _ _
      have ha' : Agrees ⟨code, args, locals, x :: x :: stack, host⟩
          (Function.update slots .duplicate x) :=
        Agrees.scratch ⟨ha.args, ha.locals⟩ (by simp) (by simp)
      exact .falls rfl ha' (.cons (.store hw .duplicate x) (.cons (.load hx) (.load hx)))

/-! ## Arithmetic -/

theorem simulates_arithmetic (ha : Agrees s slots) (o : Arithmetic) :
    Simulates p m l c [.op (.bin o.binOp)] slots s (p.perform s (.arithmetic o)) := by
  rcases s with ⟨code, args, locals, _ | ⟨y, _ | ⟨x, stack⟩⟩, host⟩
  · exact trivial
  · exact trivial
  · simp only [Source.perform, Source.State.pop]
    cases hz : o.apply x y with
    | some z =>
        refine .falls rfl ⟨ha.args, ha.locals⟩ (.op ?_)
        intro code locals labels
        simp [Machine.execute, Machine.State.pop, Machine.State.push, o.apply_binOp, hz,
          Source.State.push]
    | none =>
        refine RunsTo.op ?_
        intro code locals labels
        simp [Machine.execute, Machine.State.pop, o.apply_binOp, hz]

theorem runs_comparison (o : Comparison) (x y : Word) (stack : List Word) (host : σ) :
    Runs m l c [.op (.bin o.binOp)] ⟨slots, y :: x :: stack, host⟩
      ⟨slots, truth (o.holds x y) :: stack, host⟩ := by
  refine .op ?_
  intro code locals labels
  simp [Machine.execute, Machine.State.pop, Machine.State.push, o.apply_binOp]

theorem simulates_compare (ha : Agrees s slots) (o : Comparison) :
    Simulates p m l c [.op (.bin o.binOp)] slots s (p.perform s (.compare o)) := by
  rcases s with ⟨code, args, locals, _ | ⟨y, _ | ⟨x, stack⟩⟩, host⟩
  · exact trivial
  · exact trivial
  · exact .falls rfl ⟨ha.args, ha.locals⟩ (runs_comparison o x y stack host)

/-- An operator on the top word and a constant. -/
theorem runs_withConstant {value : Int32} {op : BinOp} {x z : Word}
    (h : op.apply x value.toBitVec = some z) (stack : List Word) (host : σ) :
    Runs m l c [.op (.const value), .op (.bin op)] ⟨slots, x :: stack, host⟩
      ⟨slots, z :: stack, host⟩ := by
  have hconst : Runs m l c [.op (.const value)] ⟨slots, x :: stack, host⟩
      ⟨slots, value.toBitVec :: x :: stack, host⟩ := .op fun _ _ _ => rfl
  refine hconst.cons (.op ?_)
  intro code locals labels
  simp [Machine.execute, Machine.State.pop, Machine.State.push, h]

theorem runs_unary (o : Unary) (x : Word) (stack : List Word) (host : σ) :
    Runs m l c (o.ops.map .op) ⟨slots, x :: stack, host⟩ ⟨slots, o.apply x :: stack, host⟩ := by
  cases o with
  | neg =>
      refine runs_withConstant ?_ stack host
      exact congrArg some (Unary.apply_neg x).symm
  | not =>
      refine runs_withConstant ?_ stack host
      exact congrArg some (Unary.apply_not x).symm
  | convI1 =>
      have hext : (x.setWidth 8).signExtend 32 = Unary.convI1.apply x :=
        signExtend_setWidth x (by decide)
      exact .op fun code locals labels => by
        simp [Machine.execute, Machine.State.pop, Machine.State.push, hext]
  | convI2 =>
      have hext : (x.setWidth 16).signExtend 32 = Unary.convI2.apply x :=
        signExtend_setWidth x (by decide)
      exact .op fun code locals labels => by
        simp [Machine.execute, Machine.State.pop, Machine.State.push, hext]
  | convU1 =>
      refine runs_withConstant ?_ stack host
      exact congrArg some (and_mask x (n := 8) rfl)
  | convU2 =>
      refine runs_withConstant ?_ stack host
      exact congrArg some (and_mask x (n := 16) rfl)

theorem simulates_unary (ha : Agrees s slots) (o : Unary) :
    Simulates p m l c (o.ops.map .op) slots s (p.perform s (.unary o)) := by
  rcases s with ⟨code, args, locals, _ | ⟨x, stack⟩, host⟩
  · exact trivial
  · exact .falls rfl ⟨ha.args, ha.locals⟩ (runs_unary o x stack host)

/-! ## Returns -/

theorem simulates_ret (hresult : m.hasResult = p.hasResult) :
    Simulates p m l c [.op .ret] slots s (p.perform s .ret) := by
  rcases s with ⟨code, args, locals, stack, host⟩
  simp only [Source.perform]
  cases hp : p.hasResult with
  | false =>
      refine RunsTo.op fun code locals labels => ?_
      simp [Machine.execute, Machine.finish, hresult, hp]
  | true =>
      cases stack with
      | nil =>
          exact trivial
      | cons x stack =>
          refine RunsTo.op fun code locals labels => ?_
          simp [Machine.execute, Machine.finish, Machine.State.pop, hresult, hp]

/-! ## Fields -/

theorem simulates_loadField (hr : m.engine.load = p.host.load) (ha : Agrees s slots)
    (offset : UInt32) :
    Simulates p m l c [.op (.load offset)] slots s (p.perform s (.loadField offset)) := by
  rcases s with ⟨code, args, locals, _ | ⟨x, stack⟩, host⟩
  · exact trivial
  · simp only [Source.perform, Source.State.pop]
    cases hy : p.host.load (x.toNat + offset.toNat) host with
    | some y =>
        refine .falls rfl ⟨ha.args, ha.locals⟩ (.op ?_)
        intro code locals labels
        simp [Machine.execute, Machine.State.pop, Machine.State.push, hr, hy, Source.State.push]
    | none =>
        refine RunsTo.op ?_
        intro code locals labels
        simp [Machine.execute, Machine.State.pop, hr, hy]

theorem simulates_storeField (hr : m.engine.store = p.host.store) (ha : Agrees s slots)
    (offset : UInt32) :
    Simulates p m l c [.op (.store offset)] slots s (p.perform s (.storeField offset)) := by
  rcases s with ⟨code, args, locals, _ | ⟨y, _ | ⟨x, stack⟩⟩, host⟩
  · exact trivial
  · exact trivial
  · simp only [Source.perform, Source.State.pop]
    cases hy : p.host.store (x.toNat + offset.toNat) y host with
    | some host' =>
        refine .falls rfl ⟨ha.args, ha.locals⟩ (.op ?_)
        intro code locals labels
        simp [Machine.execute, Machine.State.pop, hr, hy]
    | none =>
        refine RunsTo.op ?_
        intro code locals labels
        simp [Machine.execute, Machine.State.pop, hr, hy]

/-! ## Jumps -/

theorem truth_eq_zero_iff (b : Bool) : truth b = 0 ↔ b = false := by
  cases b <;> simp [truth]

/-- The end of a conditional jump, behind the operators of its test. -/
theorem follows_test {es : List Emit} {w : Word} {stack : List Word} (target : UInt32)
    (hw : l.slots.WellPlaced params) (ha : Agrees s slots) (hne : s.stack ≠ [])
    (htest : Runs m l c es ⟨slots, s.stack, s.host⟩ ⟨slots, w :: stack, s.host⟩) :
    Follows p m l c (es ++ [.branch target true]) slots s
      (if w = 0 then { s with stack } else { s with code := p.codeAt target, stack }) := by
  by_cases hzero : w = 0
  · subst hzero
    rw [if_pos rfl]
    rcases Runs.not_taken (m := m) (c := c) hw target with ⟨slots', hslots, hrun⟩
    refine .falls rfl ?_ (htest.append hrun)
    exact ha.of_eq rfl rfl (fun n => hslots _ (by simp)) (fun n => hslots _ (by simp))
  · rw [if_neg hzero]
    exact .jumps rfl rfl ⟨ha.args, ha.locals⟩ (.holds stack hzero) htest (fun h => absurd h hne)

theorem simulates_jump (ha : Agrees s slots) (target : UInt32) :
    Simulates p m l c [.branch target false] slots s (p.perform s (.jump target)) :=
  have hes : [Emit.branch target false] = [] ++ .branch target false :: [] := rfl
  .jumps hes rfl ⟨ha.args, ha.locals⟩ (.always s.stack) (.nil _) (fun _ => rfl)

theorem simulates_jumpIf (hw : l.slots.WellPlaced params) (ha : Agrees s slots) (expected : Bool)
    (target : UInt32) (home : String) :
    Simulates p m l c ((Effect.jumpIf expected target).expansion home) slots s
      (p.perform s (.jumpIf expected target)) := by
  rcases s with ⟨code, args, locals, _ | ⟨x, stack⟩, host⟩
  · exact trivial
  · cases expected with
    | true =>
        have h := follows_test (p := p) (m := m) (c := c) target hw ha (by simp)
          (.nil ⟨slots, x :: stack, host⟩)
        by_cases hx : x = 0
        · simpa [Simulates, Effect.expansion, Source.perform, Source.State.pop, hx] using h
        · simpa [Simulates, Effect.expansion, Source.perform, Source.State.pop, hx] using h
    | false =>
        have htest : Runs m l c [.op .eqz] ⟨slots, x :: stack, host⟩
            ⟨slots, truth (x == 0) :: stack, host⟩ := .op fun _ _ _ => rfl
        have h := follows_test (p := p) target hw ha (by simp) htest
        by_cases hx : x = 0
        · simpa [Simulates, Effect.expansion, Source.perform, Source.State.pop, hx, truth] using h
        · simpa [Simulates, Effect.expansion, Source.perform, Source.State.pop, hx, truth] using h

theorem simulates_jumpWhen (hw : l.slots.WellPlaced params) (ha : Agrees s slots) (o : Comparison)
    (target : UInt32) :
    Simulates p m l c [.op (.bin o.binOp), .branch target true] slots s
      (p.perform s (.jumpWhen o target)) := by
  rcases s with ⟨code, args, locals, _ | ⟨y, _ | ⟨x, stack⟩⟩, host⟩
  · exact trivial
  · exact trivial
  · have h := follows_test (p := p) target hw ha (by simp)
      (runs_comparison (m := m) (c := c) o x y stack host)
    simp only [truth_eq_zero_iff] at h
    cases hholds : o.holds x y with
    | true =>
        simpa [Simulates, Source.perform, Source.State.pop, hholds] using h
    | false =>
        simpa [Simulates, Source.perform, Source.State.pop, hholds] using h

/-! ## Switches -/

/-- The comparisons of a switch with the numbers from `k` on. -/
def switchCases (k : Nat) (targets : List UInt32) : List Emit :=
  (targets.zipIdx k).flatMap fun (target, i) =>
    [.load .switchValue, .op (.const (Int32.ofNat i)), .op (.bin .eq), .branch target true]

theorem switchCases_cons (k : Nat) (target : UInt32) (targets : List UInt32) :
    switchCases k (target :: targets) =
      [.load .switchValue, .op (.const (Int32.ofNat k)), .op (.bin .eq)] ++
        .branch target true :: switchCases (k + 1) targets := rfl

theorem switchCases_append (k : Nat) (ts ts' : List UInt32) :
    switchCases k (ts ++ ts') = switchCases k ts ++ switchCases (k + ts.length) ts' := by
  simp [switchCases, List.zipIdx_append, List.flatMap_append]

/-- A switch around the comparison with `n`. -/
theorem switchCases_split {targets : List UInt32} {n : Nat} {target : UInt32}
    (h : targets[n]? = some target) :
    switchCases 0 targets =
      (switchCases 0 (targets.take n) ++
        [.load .switchValue, .op (.const (Int32.ofNat n)), .op (.bin .eq)]) ++
      .branch target true :: switchCases (n + 1) (targets.drop (n + 1)) := by
  rcases List.getElem?_eq_some_iff.1 h with ⟨hlt, hval⟩
  have hlen : 0 + (targets.take n).length = n := by
    rw [Nat.zero_add, List.length_take, Nat.min_eq_left (Nat.le_of_lt hlt)]
  have hsplit : targets.take n ++ target :: targets.drop (n + 1) = targets := by
    rw [← hval, List.getElem_cons_drop, List.take_append_drop]
  calc
    switchCases 0 targets
        = switchCases 0 (targets.take n ++ target :: targets.drop (n + 1)) := by rw [hsplit]
    _ = switchCases 0 (targets.take n) ++
          switchCases n (target :: targets.drop (n + 1)) := by rw [switchCases_append, hlen]
    _ = _ := by rw [switchCases_cons, List.append_assoc]

theorem runs_switchTest {x : Word} (hx : slots .switchValue = x) (i : Nat) (stack : List Word)
    (host : σ) :
    Runs m l c [.load .switchValue, .op (.const (Int32.ofNat i)), .op (.bin .eq)]
      ⟨slots, stack, host⟩ ⟨slots, truth (x == BitVec.ofNat 32 i) :: stack, host⟩ := by
  have hconst : Runs m l c [.op (.const (Int32.ofNat i))] ⟨slots, x :: stack, host⟩
      ⟨slots, BitVec.ofNat 32 i :: x :: stack, host⟩ := .op fun _ _ _ => rfl
  exact .cons (.load hx) (hconst.cons (.op fun _ _ _ => rfl))

/-- Numbers below the value on which a switch decides are passed by. The numbers that are compared
have thirty-two bits, but the value is met before they wrap. -/
theorem runs_switchCases (hw : l.slots.WellPlaced params) {x : Word} {stack : List Word} {host : σ}
    (hx : slots .switchValue = x) {k : Nat} {targets : List UInt32}
    (hk : k + targets.length ≤ x.toNat) :
    ∃ slots', (∀ y, y ≠ .resumeSelector → slots' y = slots y) ∧
      Runs m l c (switchCases k targets) ⟨slots, stack, host⟩ ⟨slots', stack, host⟩ := by
  induction targets generalizing k slots with
  | nil =>
      exact ⟨slots, fun _ _ => rfl, .nil _⟩
  | cons target targets ih =>
      have hlt : k < x.toNat := by
        have hlen : (target :: targets).length = targets.length + 1 := rfl
        omega
      have hne : x ≠ BitVec.ofNat 32 k := by
        intro heq
        have hval := congrArg BitVec.toNat heq
        rw [BitVec.toNat_ofNat, Nat.mod_eq_of_lt (Nat.lt_trans hlt x.isLt)] at hval
        omega
      have htest := runs_switchTest (m := m) (l := l) (c := c) hx k stack host
      rw [beq_false_of_ne hne] at htest
      rcases Runs.not_taken (m := m) (c := c) hw target with ⟨slots₁, hslots₁, hpass⟩
      have hk' : k + 1 + targets.length ≤ x.toNat := by
        have hlen : (target :: targets).length = targets.length + 1 := rfl
        omega
      rcases ih ((hslots₁ _ (by simp)).trans hx) hk' with ⟨slots₂, hslots₂, hrest⟩
      refine ⟨slots₂, fun y hy => (hslots₂ y hy).trans (hslots₁ y hy), ?_⟩
      rw [switchCases_cons]
      exact htest.append (hpass.cons hrest)

theorem simulates_switch (hw : l.slots.WellPlaced params) (ha : Agrees s slots)
    (targets : List UInt32) :
    Simulates p m l c (switchSequence targets) slots s (p.perform s (.switch targets)) := by
  rcases s with ⟨code, args, locals, _ | ⟨x, stack⟩, host⟩
  · exact trivial
  have hstore : Runs m l c [.store .switchValue] ⟨slots, x :: stack, host⟩
      ⟨Function.update slots .switchValue x, stack, host⟩ := .store hw .switchValue x
  have hx : Function.update slots .switchValue x .switchValue = x := Function.update_self _ _ _
  have hseq : switchSequence targets = [.store .switchValue] ++ switchCases 0 targets := rfl
  have hagrees : ∀ {slots' : Slot → Word} {code' : List Instruction},
      (∀ y, y ≠ .resumeSelector → slots' y = Function.update slots .switchValue x y) →
      Agrees ⟨code', args, locals, stack, host⟩ slots' := by
    intro slots' code' h
    have hscratch := Agrees.scratch (x := .switchValue) (w := x) ha (by simp) (by simp)
    exact hscratch.of_eq rfl rfl (fun n => h _ (by simp)) (fun n => h _ (by simp))
  simp only [Source.perform, Source.State.pop]
  cases htarget : targets[x.toNat]? with
  | none =>
      have hk : 0 + targets.length ≤ x.toNat := by
        rw [Nat.zero_add]
        exact List.getElem?_eq_none_iff.1 htarget
      rcases runs_switchCases (m := m) (c := c) hw hx hk with ⟨slots', hslots, hrun⟩
      rw [hseq]
      exact .falls rfl (hagrees hslots) (hstore.append hrun)
  | some target =>
      have hk : 0 + (targets.take x.toNat).length ≤ x.toNat := by
        rw [Nat.zero_add]
        exact List.length_take_le _ _
      rcases runs_switchCases (m := m) (c := c) hw hx hk with ⟨slots', hslots, hrun⟩
      have htest := runs_switchTest (m := m) (l := l) (c := c)
        ((hslots _ (by simp)).trans hx) x.toNat stack host
      rw [BitVec.ofNat_toNat, BitVec.setWidth_eq, beq_self_eq_true] at htest
      rw [hseq, switchCases_split htarget, ← List.append_assoc]
      exact .jumps rfl rfl (hagrees hslots) (.holds stack (by decide))
        (hstore.append (hrun.append htest)) (fun h => by cases h)

/-! ## Calls -/

theorem callsWith_call (hr : Realises m.engine p l.tables) (hl : l.assembly = p.assembly)
    {r : MethodRef} (hp : p.Performs (.call r)) (hroot : r.fullName ≠ objectConstructor)
    {args : List Word} (hargs : args.length = r.arity) (host : σ) :
    CallsWith m l c (.call r) args host (p.host.call r args host) := by
  intro ops hlinked
  cases hlinked with
  | @call _ n hn =>
      rw [hl] at hn
      rcases hr.call hp hroot hn with ⟨harity, hcall⟩
      exact ⟨n, rfl, harity.trans hargs.symm, by rw [hcall]⟩

theorem simulates_call (hr : Realises m.engine p l.tables) (hl : l.assembly = p.assembly)
    {r : MethodRef} (hp : p.Performs (.call r)) (ha : Agrees s slots) :
    Simulates p m l c (callSequence r) slots s (p.perform s (.call r)) := by
  rcases s with ⟨code, args, locals, stack, host⟩
  simp only [Source.perform, callSequence]
  by_cases hroot : r.fullName = objectConstructor
  · rw [if_pos hroot, if_pos hroot]
    cases stack with
    | nil =>
        exact trivial
    | cons x stack =>
        exact .falls rfl ⟨ha.args, ha.locals⟩ (.op fun _ _ _ => rfl)
  · rw [if_neg hroot, if_neg hroot]
    simp only [Source.State.popArgs, Source.invoke]
    cases hpop : popArgs r.arity stack with
    | none =>
        exact trivial
    | some popped =>
        rcases popped with ⟨passed, rest⟩
        rcases popArgs_eq_some hpop with ⟨hlen, rfl⟩
        have hcall := callsWith_call (c := c) hr hl hp hroot hlen host
        dsimp only
        cases hresult : p.host.call r passed host with
        | none =>
            rw [hresult] at hcall
            exact RunsTo.call hcall
        | some outcome =>
            rcases outcome with ⟨result, host'⟩
            rw [hresult] at hcall
            exact .falls rfl ⟨ha.args, ha.locals⟩ (.call hcall)

/-! ## Construction -/

theorem runs_storeAll (hw : l.slots.WellPlaced params) (slots : Slot → Word) {xs : List Slot}
    {ws : List Word} (hn : xs.Nodup) (hlen : xs.length = ws.length) (stack : List Word)
    (host : σ) :
    ∃ slots', (∀ y, y ∉ xs → slots' y = slots y) ∧ xs.map slots' = ws ∧
      Runs m l c (xs.map .store) ⟨slots, ws ++ stack, host⟩ ⟨slots', stack, host⟩ := by
  induction xs generalizing slots ws with
  | nil =>
      cases ws with
      | nil =>
          exact ⟨slots, fun _ _ => rfl, rfl, .nil _⟩
      | cons w ws =>
          cases hlen
  | cons x xs ih =>
      cases ws with
      | nil =>
          cases hlen
      | cons w ws =>
          rcases List.nodup_cons.1 hn with ⟨hx, hxs⟩
          rcases ih (Function.update slots x w) hxs (Nat.succ.inj hlen) with
            ⟨slots', hslots, hmap, hrun⟩
          refine ⟨slots', ?_, ?_, .cons (.store hw x w) hrun⟩
          · intro y hy
            rw [List.mem_cons, not_or] at hy
            rw [hslots y hy.2, Function.update_of_ne hy.1]
          · rw [List.map_cons, hmap, hslots x hx, Function.update_self]

theorem runs_loadAll (slots : Slot → Word) (xs : List Slot) (stack : List Word) (host : σ) :
    Runs m l c (xs.map .load) ⟨slots, stack, host⟩
      ⟨slots, (xs.map slots).reverse ++ stack, host⟩ := by
  induction xs generalizing stack with
  | nil =>
      exact .nil _
  | cons x xs ih =>
      have hrest := ih (slots x :: stack)
      rw [List.map_cons, List.map_cons, List.reverse_cons, List.append_assoc]
      exact .cons (.load rfl) hrest

theorem mem_constructorArgs {r : MethodRef} {x : Slot} (h : x ∈ constructorArgs r) :
    ∃ i, x = .constructorArg i := by
  rcases List.mem_map.1 h with ⟨i, _, rfl⟩
  exact ⟨i.toUInt16, rfl⟩

theorem nodup_constructorArgs (r : MethodRef) : (constructorArgs r).Nodup := by
  refine List.Nodup.map_on ?_ List.nodup_range
  intro i hi j hj heq
  have hmod := Nat.mod_lt r.params.length (by decide : 0 < UInt16.size)
  have hi' := Nat.lt_trans (List.mem_range.1 hi) hmod
  have hj' := Nat.lt_trans (List.mem_range.1 hj) hmod
  have hnat := congrArg UInt16.toNat (Slot.constructorArg.inj heq)
  simpa [Nat.mod_eq_of_lt, UInt16.size, hi', hj'] using hnat

theorem length_constructorArgs {r : MethodRef} (h : r.params.length < UInt16.size) :
    (constructorArgs r).length = r.params.length := by
  simp [constructorArgs, Nat.mod_eq_of_lt h]

/-- The arguments of a constructor are parked in slots of their own. -/
theorem runs_park (hw : l.slots.WellPlaced params) (slots : Slot → Word) {r : MethodRef}
    {args : List Word} (hr : r.params.length < UInt16.size) (hlen : args.length = r.params.length)
    (stack : List Word) (host : σ) :
    ∃ slots', (∀ y, (∀ i, y ≠ .constructorArg i) → slots' y = slots y) ∧
      (constructorArgs r).map slots' = args ∧
      Runs m l c ((constructorArgs r).reverse.map .store) ⟨slots, args.reverse ++ stack, host⟩
        ⟨slots', stack, host⟩ := by
  have hlen' : (constructorArgs r).reverse.length = args.reverse.length := by
    rw [List.length_reverse, List.length_reverse, length_constructorArgs hr, hlen]
  have hn : (constructorArgs r).reverse.Nodup := List.nodup_reverse.2 (nodup_constructorArgs r)
  rcases runs_storeAll (m := m) (c := c) hw slots hn hlen' stack host with
    ⟨slots', hslots, hmap, hrun⟩
  refine ⟨slots', ?_, ?_, hrun⟩
  · intro y hy
    refine hslots y fun hmem => ?_
    rcases mem_constructorArgs (List.mem_reverse.1 hmem) with ⟨i, rfl⟩
    exact hy i rfl
  · rw [List.map_reverse] at hmap
    exact List.reverse_inj.1 hmap

theorem callsWith_allocate (hr : Realises m.engine p l.tables) (type : Word) (host : σ) :
    CallsWith m l c .allocate [type] host
      ((p.host.allocate type host).map fun (object, host) => (some object, host)) := by
  intro ops hlinked
  cases hlinked
  exact ⟨Tables.allocator, rfl, hr.allocator, hr.allocate type host⟩

theorem callsWith_construct (hr : Realises m.engine p l.tables) (hl : l.assembly = p.assembly)
    {r : MethodRef} (hp : p.Performs (.construct r)) (hroot : r.fullName ≠ objectConstructor)
    {args : List Word} (hargs : args.length = r.params.length) (object : Word) (host : σ) :
    CallsWith m l c (.call r) (object :: args) host (p.host.call r (object :: args) host) := by
  intro ops hlinked
  cases hlinked with
  | @call _ n hn =>
      rw [hl] at hn
      rcases hr.construct hp hroot hn with ⟨harity, hcall⟩
      exact ⟨n, rfl, by rw [harity, List.length_cons, hargs], by rw [hcall]⟩

theorem simulates_construct (hw : l.slots.WellPlaced params) (hr : Realises m.engine p l.tables)
    (hl : l.assembly = p.assembly) {r : MethodRef} (hp : p.Performs (.construct r))
    (hparams : r.params.length < UInt16.size) (ha : Agrees s slots) :
    Simulates p m l c (constructSequence p.assembly.name r) slots s
      (p.perform s (.construct r)) := by
  rcases s with ⟨code, args, locals, stack, host⟩
  simp only [Source.perform, Source.State.popArgs, Source.invoke, constructSequence]
  generalize htype : Handle.typeHandle p.assembly.name r.declaring = name
  cases hpop : popArgs r.params.length stack with
  | none =>
      exact trivial
  | some popped =>
      rcases popped with ⟨passed, rest⟩
      rcases popArgs_eq_some hpop with ⟨hlen, rfl⟩
      rcases runs_park (m := m) (c := c) hw slots hparams hlen rest host with
        ⟨slots₁, hslots₁, hparked, hpark⟩
      have hhandle : Runs m l c [.handle name] ⟨slots₁, rest, host⟩
          ⟨slots₁, p.host.handle name host :: rest, host⟩ := .handle fun n hn => hr.handle hn
      have hallocate := callsWith_allocate (c := c) hr (p.host.handle name host) host
      dsimp only
      cases hobject : p.host.allocate (p.host.handle name host) host with
      | none =>
          rw [hobject] at hallocate
          exact ((hpark.runsTo (hhandle.runsTo (RunsTo.call hallocate).append)).append).append
      | some allocated =>
          rcases allocated with ⟨object, host₁⟩
          rw [hobject] at hallocate
          -- from here on the object has a slot of its own, besides its arguments
          have hnew : Function.update slots₁ .newObject object .newObject = object :=
            Function.update_self _ _ _
          have hprepared := hpark.append (hhandle.cons ((Runs.call hallocate).cons
            (.store hw .newObject object)))
          have hagrees : ∀ {stack : List Word} {host : σ},
              Agrees ⟨code, args, locals, stack, host⟩ (Function.update slots₁ .newObject object) := by
            intro stack host
            have hsame : Agrees ⟨code, args, locals, stack, host⟩ slots₁ :=
              ha.of_eq rfl rfl (fun n => hslots₁ _ (by simp)) (fun n => hslots₁ _ (by simp))
            exact hsame.scratch (by simp) (by simp)
          by_cases hroot : r.fullName = objectConstructor
          · simp only [if_pos hroot]
            exact .falls rfl hagrees ((hprepared.append (.nil _)).append (.load hnew))
          · simp only [if_neg hroot]
            have hloads := runs_loadAll (m := m) (l := l) (c := c)
              (Function.update slots₁ .newObject object) (constructorArgs r) (object :: rest) host₁
            have hpassed : (constructorArgs r).map (Function.update slots₁ .newObject object) =
                passed := by
              rw [← hparked]
              refine List.map_congr_left fun x hx => Function.update_of_ne ?_ _ _
              rcases mem_constructorArgs hx with ⟨i, rfl⟩
              simp
            have hstack : passed.reverse ++ object :: rest = (object :: passed).reverse ++ rest := by
              simp
            rw [hpassed, hstack] at hloads
            have hcall := callsWith_construct (c := c) hr hl hp hroot hlen object host₁
            cases hresult : p.host.call r (object :: passed) host₁ with
            | none =>
                rw [hresult] at hcall
                exact (hprepared.runsTo (((Runs.load hnew).cons hloads).runsTo
                  (RunsTo.call hcall))).append
            | some outcome =>
                rcases outcome with ⟨result, host₂⟩
                rw [hresult] at hcall
                exact .falls rfl hagrees ((hprepared.append (((Runs.load hnew).cons hloads).append
                  (.call hcall))).append (.load hnew))

/-! ## All effects -/

/-- The expansion of every effect of the body follows it. -/
theorem simulates_perform (hw : l.slots.WellPlaced params) (hr : Realises m.engine p l.tables)
    (hl : l.assembly = p.assembly) (hresult : m.hasResult = p.hasResult) {e : Effect}
    (hp : p.Performs e)
    (hparams : ∀ r, e = .construct r → r.params.length < UInt16.size) (ha : Agrees s slots) :
    Simulates p m l c (e.expansion p.assembly.name) slots s (p.perform s e) := by
  cases e with
  | skip =>
      exact .falls rfl ha (.nil _)
  | push value =>
      exact .falls rfl ⟨ha.args, ha.locals⟩ (.op fun _ _ _ => rfl)
  | loadArg n =>
      exact simulates_loadArg ha n
  | storeArg n =>
      exact simulates_storeArg hw ha n
  | loadLocal n =>
      exact simulates_loadLocal ha n
  | storeLocal n =>
      exact simulates_storeLocal hw ha n
  | duplicate =>
      exact simulates_duplicate hw ha
  | pop =>
      rcases s with ⟨code, args, locals, _ | ⟨x, stack⟩, host⟩
      · exact trivial
      · exact .falls rfl ⟨ha.args, ha.locals⟩ (.op fun _ _ _ => rfl)
  | ret =>
      exact simulates_ret hresult
  | arithmetic o =>
      exact simulates_arithmetic ha o
  | unary o =>
      exact simulates_unary ha o
  | compare o =>
      exact simulates_compare ha o
  | jump target =>
      exact simulates_jump ha target
  | jumpIf expected target =>
      exact simulates_jumpIf hw ha expected target p.assembly.name
  | jumpWhen o target =>
      exact simulates_jumpWhen hw ha o target
  | switch targets =>
      exact simulates_switch hw ha targets
  | call r =>
      exact simulates_call hr hl hp ha
  | construct r =>
      exact simulates_construct hw hr hl hp (hparams r rfl) ha
  | loadField offset =>
      exact simulates_loadField hr.load ha offset
  | storeField offset =>
      exact simulates_storeField hr.store ha offset

end Effects

end CilCompiler
