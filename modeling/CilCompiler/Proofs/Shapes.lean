import CilCompiler.Proofs.Expansion
import CilCompiler.Wasm.Validation

/-!
# Shapes

Compiled code holds nothing but words, and its regions are entered and left without operands. So a
validator has only two things to know at a place: how many operands there are, and whether control
gets there.

* `Shape` is this knowledge. `Walk.instructions` follows it through the instructions of a body from
  the first to the last, without looking at a jump twice.
* `Shape.checker` is the state that the validator is in at a place of some shape; the lemmas behind
  it say that every operator leads from such a state to another, or fails as the walk does.
-/

namespace CilCompiler

open Wasm

/-! ## The walk -/

/-- The number of operands at a place, and whether control gets there. -/
structure Shape where
  height : Nat
  live : Bool
  deriving DecidableEq

namespace Shape

/-- The shape at the start of a body and at a branch target. -/
def start : Shape := ⟨0, true⟩

/-- The shape behind an operator that control does not pass. -/
def dead : Shape := ⟨0, false⟩

/-- Takes an operand. There has to be one wherever control gets. -/
def pop : Shape → Option Shape
  | ⟨0, true⟩ => none
  | ⟨0, false⟩ => some dead
  | ⟨height + 1, live⟩ => some ⟨height, live⟩

/-- Takes operands one by one. -/
def pops : Nat → Shape → Option Shape
  | 0, w => some w
  | n + 1, w => w.pop.bind (pops n)

/-- Leaves operands. -/
def push (n : Nat) (w : Shape) : Shape := ⟨w.height + n, w.live⟩

/-- Arrives at a branch target, where jumps may arrive too. None of them brings an operand. -/
def arrive (w : Shape) : Option Shape :=
  if w.height = 0 then some start else none

/-- Goes on with the instruction at `offset`. -/
def before (targets : List UInt32) (offset : UInt32) (w : Shape) : Option Shape :=
  if offset ∈ targets then w.arrive else some w

end Shape

/-- The number of operands that an operator takes. -/
def Wasm.Op.taken : Op → Nat
  | .drop | .load _ | .eqz | .extend8 | .extend16 => 1
  | .store _ | .bin _ => 2
  | _ => 0

/-- The number of operands that an operator leaves. -/
def Wasm.Op.left : Op → Nat
  | .const _ | .load _ | .eqz | .extend8 | .extend16 | .bin _ => 1
  | _ => 0

/-- What a walk over a body has to know. -/
structure Walk where
  assembly : Assembly
  headerSize : UInt32
  hasResult : Bool
  /-- The signature of the function that is called for a method. -/
  callee : MethodRef → Option Signature

namespace Walk

/-- Follows one step of a sequence. -/
def emit (x : Walk) (w : Shape) : Emit → Option Shape
  | .op .ret => (w.pops (if x.hasResult then 1 else 0)).map fun _ => .dead
  | .op operator => (w.pops operator.taken).map (Shape.push operator.left)
  | .load _ | .handle _ => some (w.push 1)
  | .store _ | .branch _ true => w.pops 1
  | .branch _ false => some .dead
  | .allocate => (w.pops 1).map (Shape.push 1)
  | .call r => do
    let signature ← x.callee r
    return (← w.pops signature.params.length).push signature.result.toList.length

/-- Follows one instruction of a body with the given branch targets. -/
def instruction (x : Walk) (targets : List UInt32) (w : Shape) (i : Instruction) :
    Option Shape := do
  let w ← w.before targets i.offset
  let sequence ← (select x.assembly x.headerSize i).toOption
  sequence.foldlM x.emit w

/-- Follows instructions in order. -/
def instructions (x : Walk) (targets : List UInt32) (w : Shape) (is : List Instruction) :
    Option Shape :=
  is.foldlM (x.instruction targets) w

end Walk

/-- The branch targets of a body. -/
def MethodBody.targets (body : MethodBody) : List UInt32 :=
  match Schedule.analyze body with
  | .ok schedule => schedule.targets
  | .error _ => []

/-- Whether the walk over a body gets to its end, and nothing is left there. -/
def Walk.balances (x : Walk) (body : MethodBody) : Bool :=
  match x.instructions body.targets .start body.instructions with
  | some w => w.height == 0
  | none => false

/-! ## The validator -/

/-- Whether a function takes and returns nothing but words. -/
def Wasm.Signature.isWords (s : Signature) : Bool :=
  s.params.all (· = .i32) && s.result.all (· = .i32)

theorem isWords_iff {s : Signature} :
    s.isWords ↔ (∀ kind ∈ s.params, kind = .i32) ∧ ∀ kind ∈ s.result, kind = .i32 := by
  cases hresult : s.result <;> simp [Signature.isWords, hresult]

theorem params_eq_replicate {s : Signature} (h : s.isWords) :
    s.params = List.replicate s.params.length .i32 :=
  List.eq_replicate_iff.2 ⟨rfl, (isWords_iff.1 h).1⟩

theorem result_eq_replicate {result : Option ValueKind} (h : ∀ kind ∈ result, kind = .i32) :
    result.toList = List.replicate (if result.isSome then 1 else 0) .i32 := by
  cases result with
  | none =>
      rfl
  | some kind =>
      rw [h kind rfl]
      rfl

section Checker

variable {result : Option ValueKind} {n : Nat} {typing : Typing}

/-- The innermost region at a place of some shape. -/
def Shape.region (w : Shape) : Region := ⟨[], [], 0, !w.live⟩

/-- The regions around the innermost one: `n` that control gets out of, and the body. -/
def outerRegions (result : Option ValueKind) (n : Nat) : List Region :=
  List.replicate n Shape.start.region ++ [⟨result.toList, result.toList, 0, false⟩]

/-- The state of the validator at a place of some shape. -/
def Shape.checker (result : Option ValueKind) (n : Nat) (w : Shape) : Checker :=
  ⟨List.replicate w.height .i32, w.region :: outerRegions result n⟩

namespace Shape

theorem pops_one (w : Shape) : w.pops 1 = w.pop := by
  cases h : w.pop <;> simp [pops, h]

theorem pops_two (w : Shape) : w.pops 2 = w.pop.bind pop := by
  rw [pops]
  congr 1
  funext w'
  exact pops_one w'

theorem pop_checker (w : Shape) :
    (w.checker result n).pop .i32 = w.pop.map (checker result n) := by
  rcases w with ⟨_ | height, live⟩
  · cases live <;> rfl
  · rfl

theorem popAny_checker (w : Shape) :
    (w.checker result n).popAny = w.pop.map (checker result n) := by
  rcases w with ⟨_ | height, live⟩
  · cases live <;> rfl
  · rfl

/-- Taking words off the operands is taking them off the shape. -/
theorem popAll_checker (k : Nat) (w : Shape) :
    (w.checker result n).popAll (List.replicate k .i32) = (w.pops k).map (checker result n) := by
  unfold Checker.popAll
  rw [List.reverse_replicate]
  induction k generalizing w with
  | zero =>
      rfl
  | succ k ih =>
      rw [List.replicate_succ, List.foldlM_cons, pop_checker, pops]
      cases w.pop with
      | none =>
          rfl
      | some w' =>
          exact ih w'

theorem push_checker (w : Shape) :
    (w.checker result n).push .i32 = (w.push 1).checker result n := rfl

theorem pushAll_checker (k : Nat) (w : Shape) :
    (w.checker result n).pushAll (List.replicate k .i32) = (w.push k).checker result n := by
  unfold Checker.pushAll
  induction k generalizing w with
  | zero =>
      rfl
  | succ k ih =>
      rw [List.replicate_succ, List.foldl_cons, push_checker, ih]
      simp only [push, Nat.add_assoc, Nat.add_comm 1 k]

theorem stop_checker (w : Shape) :
    (w.checker result n).stop = some (dead.checker result n) := by
  have hdrop : (List.replicate w.height ValueKind.i32).drop
      ((List.replicate w.height ValueKind.i32).length - 0) = [] := by
    simp
  simp only [Checker.stop, checker, region]
  rw [hdrop]
  rfl

/-- Closing a region is arriving behind it. -/
theorem leave_checker (w : Shape) :
    (w.checker result (n + 1)).leave = w.arrive.map (checker result n) := by
  rcases w with ⟨_ | height, live⟩
  · rfl
  · rfl

theorem labelKinds_checker {label : Nat} (h : label ≤ n) (w : Shape) :
    (w.checker result n).labelKinds label = some [] := by
  cases label with
  | zero =>
      rfl
  | succ label =>
      have hget : (outerRegions result n)[label]? = some start.region := by
        have hlt : label < n := h
        rw [outerRegions, List.getElem?_append_left (by simpa using hlt)]
        simp [hlt]
      have hregion : (w.checker result n).regions[label + 1]? = some start.region := hget
      rw [Checker.labelKinds, hregion]
      rfl

theorem returned_checker (w : Shape) : (w.checker result n).returned = some result.toList := by
  have hlast : (w.checker result n).regions.getLast? =
      some ⟨result.toList, result.toList, 0, false⟩ := by
    rw [checker, outerRegions, ← List.cons_append, List.getLast?_concat]
  rw [Checker.returned, hlast]
  rfl

/-! ## Operators -/

/-- There is always a region to operate in: the body, at least. -/
theorem step_checker (op : Op) (w : Shape) :
    Checker.step typing (w.checker result n) op = (w.checker result n).operate typing op := rfl

/-- The operators on one word. -/
theorem step_unary {op : Op} (w : Shape)
    (hop : ∀ c : Checker,
      c.operate typing op = (c.pop .i32).bind fun c => some (c.push .i32)) :
    Checker.step typing (w.checker result n) op =
      ((w.pops 1).map (Shape.push 1)).map (checker result n) := by
  rw [step_checker, hop, pop_checker, pops_one]
  cases w.pop with
  | none =>
      rfl
  | some w' =>
      rfl

/-- The operators that hold no label and no index, but for the one that returns. -/
theorem step_simple {op : Op} (h : op.isSimple) (hret : op ≠ .ret) (w : Shape) :
    Checker.step typing (w.checker result n) op =
      ((w.pops op.taken).map (Shape.push op.left)).map (checker result n) := by
  cases op with
  | const value =>
      rfl
  | drop =>
      have hstep : Checker.step typing (w.checker result n) .drop =
          (w.checker result n).popAny := rfl
      have hone : w.pops Op.drop.taken = w.pop := pops_one w
      rw [hstep, popAny_checker, hone]
      cases w.pop with
      | none =>
          rfl
      | some w' =>
          rfl
  | load offset =>
      exact step_unary w fun _ => rfl
  | eqz =>
      exact step_unary w fun _ => rfl
  | extend8 =>
      exact step_unary w fun _ => rfl
  | extend16 =>
      exact step_unary w fun _ => rfl
  | store offset =>
      have hstep : Checker.step typing (w.checker result n) (.store offset) =
          ((w.checker result n).pop .i32).bind (Checker.pop .i32) := rfl
      have htwo : w.pops (Op.store offset).taken = w.pop.bind pop := pops_two w
      rw [hstep, pop_checker, htwo]
      cases w.pop with
      | none =>
          rfl
      | some w' =>
          simp only [Option.map_some, Option.bind_some, pop_checker]
          cases w'.pop with
          | none =>
              rfl
          | some w'' =>
              rfl
  | bin operator =>
      have hstep : Checker.step typing (w.checker result n) (.bin operator) =
          ((w.checker result n).pop .i32).bind fun c =>
            (c.pop .i32).bind fun c => some (c.push .i32) := rfl
      have htwo : w.pops (Op.bin operator).taken = w.pop.bind pop := pops_two w
      rw [hstep, pop_checker, htwo]
      cases w.pop with
      | none =>
          rfl
      | some w' =>
          simp only [Option.map_some, Option.bind_some, pop_checker]
          cases w'.pop with
          | none =>
              rfl
          | some w'' =>
              rfl
  | ret =>
      exact absurd rfl hret
  | _ =>
      cases h

/-- Returning takes the result, if there is one. -/
theorem step_ret (hresult : ∀ kind ∈ result, kind = .i32) (w : Shape) :
    Checker.step typing (w.checker result n) .ret =
      ((w.pops (if result.isSome then 1 else 0)).map fun _ => dead).map (checker result n) := by
  have hkinds := result_eq_replicate hresult
  have hstep : Checker.step typing (w.checker result n) .ret =
      (w.checker result n).returned.bind fun kinds =>
        ((w.checker result n).popAll kinds).bind Checker.stop := rfl
  rw [hstep, returned_checker, Option.bind_some, hkinds, popAll_checker]
  cases w.pops (if result.isSome then 1 else 0) with
  | none =>
      rfl
  | some w' =>
      exact stop_checker w'

theorem step_br {label : Nat} (h : label ≤ n) (w : Shape) :
    Checker.step typing (w.checker result n) (.br label) = some (dead.checker result n) := by
  have hstep : Checker.step typing (w.checker result n) (.br label) =
      ((w.checker result n).labelKinds label).bind fun kinds =>
        ((w.checker result n).popAll kinds).bind Checker.stop := rfl
  rw [hstep, labelKinds_checker h]
  exact stop_checker w

theorem step_brIf {label : Nat} (h : label ≤ n) (w : Shape) :
    Checker.step typing (w.checker result n) (.brIf label) =
      (w.pops 1).map (checker result n) := by
  have hstep : Checker.step typing (w.checker result n) (.brIf label) =
      ((w.checker result n).pop .i32).bind fun c => (c.labelKinds label).bind fun kinds =>
        (c.popAll kinds).bind fun c => some (c.pushAll kinds) := rfl
  rw [hstep, pop_checker, pops_one]
  cases w.pop with
  | none =>
      rfl
  | some w' =>
      simp only [Option.map_some, Option.bind_some, labelKinds_checker h]
      rfl

/-- A jump by number leaves its region, wherever the number leads. -/
theorem step_brTable {labels : List Nat} {otherwise : Nat} (hlabels : ∀ label ∈ labels, label ≤ n)
    (h : otherwise ≤ n) {w w' : Shape} (hw : w.pop = some w') :
    Checker.step typing (w.checker result n) (.brTable labels otherwise) =
      some (dead.checker result n) := by
  have hstep : Checker.step typing (w.checker result n) (.brTable labels otherwise) =
      ((w.checker result n).pop .i32).bind fun c => (c.labelKinds otherwise).bind fun kinds =>
        if labels.all (c.fits kinds.length) then (c.popAll kinds).bind Checker.stop else none := rfl
  have hfits : labels.all ((w'.checker result n).fits 0) = true := by
    refine List.all_eq_true.2 ?_
    intro label hlabel
    rw [Checker.fits, labelKinds_checker (hlabels label hlabel)]
    rfl
  rw [hstep, pop_checker, hw]
  simp only [Option.map_some, Option.bind_some, labelKinds_checker h, List.length_nil, hfits,
    if_true]
  exact stop_checker w'

theorem step_call (hwords : ∀ s ∈ typing.functions, s.isWords) (function : Nat) (w : Shape) :
    Checker.step typing (w.checker result n) (.call function) =
      (typing.functions[function]?.bind fun s =>
        (w.pops s.params.length).bind fun w => some (w.push s.result.toList.length)).map
          (checker result n) := by
  have hstep : Checker.step typing (w.checker result n) (.call function) =
      typing.functions[function]?.bind fun s =>
        ((w.checker result n).popAll s.params).bind fun c => some (c.pushAll s.result.toList) := rfl
  rw [hstep]
  cases hs : typing.functions[function]? with
  | none =>
      rfl
  | some s =>
      have hs' := hwords s (List.mem_of_getElem? hs)
      simp only [Option.bind_some]
      rw [params_eq_replicate hs', result_eq_replicate (isWords_iff.1 hs').2, popAll_checker]
      simp only [List.length_replicate]
      cases w.pops s.params.length with
      | none =>
          rfl
      | some w' =>
          exact congrArg some (pushAll_checker _ w')

theorem step_localGet {slot : Nat} (h : typing.locals[slot]? = some .i32) (w : Shape) :
    Checker.step typing (w.checker result n) (.localGet slot) =
      some ((w.push 1).checker result n) := by
  have hstep : Checker.step typing (w.checker result n) (.localGet slot) =
      typing.locals[slot]?.bind fun kind => some ((w.checker result n).push kind) := rfl
  rw [hstep, h]
  rfl

theorem step_localSet {slot : Nat} (h : typing.locals[slot]? = some .i32) (w : Shape) :
    Checker.step typing (w.checker result n) (.localSet slot) =
      (w.pops 1).map (checker result n) := by
  have hstep : Checker.step typing (w.checker result n) (.localSet slot) =
      typing.locals[slot]?.bind fun kind => (w.checker result n).pop kind := rfl
  rw [hstep, h, Option.bind_some, pop_checker, pops_one]

theorem step_globalGet {global : Nat} (h : global < typing.globals) (w : Shape) :
    Checker.step typing (w.checker result n) (.globalGet global) =
      some ((w.push 1).checker result n) := by
  have hop : (w.checker result n).operate typing (.globalGet global) =
      if global < typing.globals then some ((w.checker result n).push .i32) else none := rfl
  rw [step_checker, hop, if_pos h]
  rfl

end Shape

end Checker

end CilCompiler
