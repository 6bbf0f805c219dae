import CilCompiler.Proofs.Machine
import CilCompiler.Proofs.Source

/-!
# Expansions

Selection goes from opcodes to operators in one step. Here it is taken apart: an opcode has an
effect, and the sequence that is selected depends on the effect alone.

* `Effect.expansion` is the sequence of an effect; `select_toOption` says that selection writes it,
  and nothing else.
* `Arithmetic.apply_binOp` and `Comparison.apply_binOp` say that the operator of an operation
  computes what it means; the lemmas behind them do so for operations on one word.
-/

namespace CilCompiler

open Wasm (Op BinOp)

/-! ## Operations -/

def Arithmetic.binOp : Arithmetic → BinOp
  | .add => .add
  | .sub => .sub
  | .mul => .mul
  | .div => .divS
  | .divUn => .divU
  | .rem => .remS
  | .remUn => .remU
  | .and => .and
  | .or => .or
  | .xor => .xor
  | .shl => .shl
  | .shr => .shrS
  | .shrUn => .shrU

def Comparison.binOp : Comparison → BinOp
  | .eq => .eq
  | .ne => .ne
  | .lt => .ltS
  | .ltUn => .ltU
  | .gt => .gtS
  | .gtUn => .gtU
  | .le => .leS
  | .leUn => .leU
  | .ge => .geS
  | .geUn => .geU

def Unary.ops : Unary → List Op
  | .neg => [.const (-1), .bin .mul]
  | .not => [.const (-1), .bin .xor]
  | .convI1 => [.extend8]
  | .convI2 => [.extend16]
  | .convU1 => [.const 0xff, .bin .and]
  | .convU2 => [.const 0xffff, .bin .and]

theorem toInt_bounds (x : Word) : -0x80000000 ≤ x.toInt ∧ x.toInt < 0x80000000 := by
  have hlow := BitVec.le_toInt x
  have hhigh := BitVec.toInt_lt (x := x)
  exact ⟨by simpa using hlow, by simpa using hhigh⟩

/-- There is one quotient of two words that is no word. -/
theorem tdiv_eq_bound_iff (x y : Word) :
    x.toInt.tdiv y.toInt = 0x80000000 ↔ x = .intMin 32 ∧ y = -1 := by
  constructor
  · intro h
    have hx := toInt_bounds x
    have habs : x.toInt.natAbs / y.toInt.natAbs = 0x80000000 := by
      have hdiv := Int.natAbs_tdiv x.toInt y.toInt
      rw [h] at hdiv
      exact hdiv.symm
    have hx' : x.toInt.natAbs = 0x80000000 := by
      have hle := Nat.div_le_self x.toInt.natAbs y.toInt.natAbs
      omega
    have hxi : x.toInt = -0x80000000 := by omega
    have hy' : y.toInt.natAbs = 1 := by
      rw [hx'] at habs
      rcases Nat.lt_trichotomy y.toInt.natAbs 1 with hlt | heq | hgt
      · rw [Nat.lt_one_iff.1 hlt] at habs
        cases habs
      · exact heq
      · have hlt : 0x80000000 / y.toInt.natAbs < 0x80000000 := Nat.div_lt_self (by decide) hgt
        omega
    have hyi : y.toInt = -1 := by
      rcases Int.natAbs_eq_iff.1 hy' with hone | hone
      · rw [hxi, hone] at h
        cases h
      · exact hone
    exact ⟨BitVec.toInt_inj.1 hxi, BitVec.toInt_inj.1 hyi⟩
  · rintro ⟨rfl, rfl⟩
    rfl

theorem toInt_eq_zero_iff (x : Word) : x.toInt = 0 ↔ x = 0 :=
  ⟨fun h => BitVec.toInt_inj.1 h, fun h => by rw [h]; rfl⟩

theorem toNat_eq_zero_iff (x : Word) : x.toNat = 0 ↔ x = 0 :=
  ⟨fun h => BitVec.toNat_inj.1 h, fun h => by rw [h]; rfl⟩

theorem ofInt_tdiv {x y : Word} (h : ¬ x.toInt.tdiv y.toInt = 0x80000000) :
    BitVec.ofInt 32 (x.toInt.tdiv y.toInt) = x.sdiv y := by
  have hne : x ≠ .intMin 32 ∨ y ≠ -1 := by
    rw [tdiv_eq_bound_iff] at h
    exact Decidable.not_and_iff_not_or_not.1 h
  rw [← BitVec.toInt_sdiv_of_ne_or_ne x y hne, BitVec.ofInt_toInt]

theorem Arithmetic.apply_binOp (x y : Word) (o : Arithmetic) : o.binOp.apply x y = o.apply x y := by
  cases o with
  | add =>
      simp [binOp, BinOp.apply, apply, BitVec.ofInt_add]
  | sub =>
      have hsub : BitVec.ofInt 32 (x.toInt - y.toInt) = x - y := by
        apply BitVec.eq_of_toInt_eq
        simp
      simp [binOp, BinOp.apply, apply, hsub]
  | mul =>
      simp [binOp, BinOp.apply, apply, BitVec.ofInt_mul]
  | div =>
      simp only [binOp, BinOp.apply, apply, toInt_eq_zero_iff]
      by_cases hb : x.toInt.tdiv y.toInt = 0x80000000
      · have hb' := (tdiv_eq_bound_iff x y).1 hb
        rw [if_pos (Or.inr hb'), if_pos (Or.inr hb)]
      · have hb' := mt (tdiv_eq_bound_iff x y).2 hb
        simp only [hb, hb', or_false, ofInt_tdiv hb]
  | divUn =>
      simp only [binOp, BinOp.apply, apply, toNat_eq_zero_iff, BitVec.udiv_def]
  | rem =>
      simp only [binOp, BinOp.apply, apply, toInt_eq_zero_iff, ← BitVec.toInt_srem,
        BitVec.ofInt_toInt]
  | remUn =>
      simp only [binOp, BinOp.apply, apply, toNat_eq_zero_iff, BitVec.umod_def]
  | and =>
      rfl
  | or =>
      rfl
  | xor =>
      rfl
  | shl =>
      have hshift : BitVec.ofNat 32 (x.toNat <<< (y.toNat % 32)) = x <<< (y.toNat % 32) := by
        apply BitVec.eq_of_toNat_eq
        simp
      simp only [binOp, BinOp.apply, apply, hshift]
  | shr =>
      rfl
  | shrUn =>
      have hshift : BitVec.ofNat 32 (x.toNat >>> (y.toNat % 32)) = x >>> (y.toNat % 32) := by
        apply BitVec.eq_of_toNat_eq
        have hlt := Nat.lt_of_le_of_lt (Nat.shiftRight_le x.toNat (y.toNat % 32)) x.isLt
        simp only [BitVec.toNat_ofNat, BitVec.toNat_ushiftRight, Nat.mod_eq_of_lt hlt]
      simp only [binOp, BinOp.apply, apply, hshift]

theorem Comparison.apply_binOp (x y : Word) (o : Comparison) :
    o.binOp.apply x y = some (truth (o.holds x y)) := by
  cases o <;>
    simp only [binOp, BinOp.apply, holds, BitVec.slt_eq_decide, BitVec.sle_eq_decide,
      BitVec.ult_eq_decide, BitVec.ule_eq_decide]

theorem Unary.apply_neg (x : Word) : neg.apply x = x * (-1 : Int32).toBitVec := by
  have hone : (-1 : Int32).toBitVec = -1#32 := rfl
  rw [hone, BitVec.mul_neg, BitVec.mul_one, Unary.apply, BitVec.ofInt_neg, BitVec.ofInt_toInt]

theorem Unary.apply_not (x : Word) : not.apply x = x ^^^ (-1 : Int32).toBitVec := by
  have hones : (-1 : Int32).toBitVec = BitVec.allOnes 32 := rfl
  rw [hones, BitVec.xor_allOnes, Unary.apply]

/-- Keeping the lowest `n` bits of a word with their sign. -/
theorem signExtend_setWidth (x : Word) {n : Nat} (hn : n ≤ 32) :
    (x.setWidth n).signExtend 32 = BitVec.ofInt 32 (x.toInt.bmod (1 <<< n)) := by
  rw [Nat.one_shiftLeft, BitVec.signExtend, BitVec.toInt_setWidth, BitVec.toInt_eq_toNat_bmod x,
    Int.bmod_bmod_of_dvd (Nat.pow_dvd_pow 2 hn)]

/-- Keeping the lowest `n` bits of a word without sign. -/
theorem and_mask (x : Word) {mask : Int32} {n : Nat} (h : mask.toBitVec.toNat = 1 <<< n - 1) :
    x &&& mask.toBitVec = BitVec.ofNat 32 (x.toNat % 1 <<< n) := by
  apply BitVec.eq_of_toNat_eq
  have hlt := Nat.lt_of_le_of_lt (Nat.mod_le x.toNat (1 <<< n)) x.isLt
  rw [BitVec.toNat_and, h, BitVec.toNat_ofNat, Nat.mod_eq_of_lt hlt, Nat.one_shiftLeft,
    Nat.and_two_pow_sub_one_eq_mod]

/-! ## Sequences -/

/-- The sequence that is selected for an effect in the assembly `home`. -/
def Effect.expansion (home : String) : Effect → List Emit
  | .skip => []
  | .push value => [.op (.const value)]
  | .loadArg n => [.load (.arg n)]
  | .storeArg n => [.store (.arg n)]
  | .loadLocal n => [.load (.loc n)]
  | .storeLocal n => [.store (.loc n)]
  | .duplicate => [.store .duplicate, .load .duplicate, .load .duplicate]
  | .pop => [.op .drop]
  | .ret => [.op .ret]
  | .arithmetic o => [.op (.bin o.binOp)]
  | .unary o => o.ops.map .op
  | .compare o => [.op (.bin o.binOp)]
  | .jump target => [.branch target false]
  | .jumpIf true target => [.branch target true]
  | .jumpIf false target => [.op .eqz, .branch target true]
  | .jumpWhen o target => [.op (.bin o.binOp), .branch target true]
  | .switch targets => switchSequence targets
  | .call m => callSequence m
  | .construct m => constructSequence home m
  | .loadField offset => [.op (.load offset)]
  | .storeField offset => [.op (.store offset)]

/-- Selection succeeds for the instructions that have an effect, with the sequence of the effect. -/
theorem select_toOption (a : Assembly) (headerSize : UInt32) (i : Instruction) :
    (select a headerSize i).toOption =
      (i.opcode.effect a headerSize i.operand).map (Effect.expansion a.name) := by
  rcases i with ⟨offset, opcode, operand⟩
  cases opcode
  -- only the place of a field has to be computed, and may fail to be
  case ldfld =>
      cases operand
      case field f =>
          have hselect : select a headerSize ⟨offset, .ldfld, .field f⟩ =
              (fieldOffset a headerSize f >>= fun n => pure [.op (.load n)]) := rfl
          have heffect : Opcode.effect a headerSize (.field f) .ldfld =
              (fieldOffset a headerSize f).toOption.map .loadField := rfl
          rw [hselect, heffect]
          cases fieldOffset a headerSize f <;> rfl
      all_goals rfl
  case stfld =>
      cases operand
      case field f =>
          have hselect : select a headerSize ⟨offset, .stfld, .field f⟩ =
              (fieldOffset a headerSize f >>= fun n => pure [.op (.store n)]) := rfl
          have heffect : Opcode.effect a headerSize (.field f) .stfld =
              (fieldOffset a headerSize f).toOption.map .storeField := rfl
          rw [hselect, heffect]
          cases fieldOffset a headerSize f <;> rfl
      all_goals rfl
  all_goals cases operand <;> rfl

theorem select_ok {a : Assembly} {headerSize : UInt32} {i : Instruction} {es : List Emit}
    (h : select a headerSize i = .ok es) :
    ∃ e, i.opcode.effect a headerSize i.operand = some e ∧ e.expansion a.name = es := by
  have heq := select_toOption a headerSize i
  rw [h] at heq
  exact Option.map_eq_some_iff.1 heq.symm

/-! ## Operators without names -/

/-- The operators that hold no label and no index. Sequences hold no others; the rest is written by
linking. -/
def Wasm.Op.isSimple : Op → Bool
  | .ret | .drop | .const _ | .load _ | .store _ | .eqz | .extend8 | .extend16 | .bin _ => true
  | _ => false

def Emit.isSimple : Emit → Bool
  | .op o => o.isSimple
  | _ => true

theorem isSimple_switchSequence (targets : List UInt32) :
    ∀ x ∈ switchSequence targets, x.isSimple := by
  intro x hx
  rcases List.mem_cons.1 hx with rfl | hx
  · rfl
  · rcases List.mem_flatMap.1 hx with ⟨⟨target, i⟩, _, hx⟩
    simp only [List.mem_cons, List.not_mem_nil, or_false] at hx
    rcases hx with rfl | rfl | rfl | rfl <;> rfl

theorem isSimple_callSequence (m : MethodRef) : ∀ x ∈ callSequence m, x.isSimple := by
  intro x hx
  unfold callSequence at hx
  split at hx <;> cases List.mem_singleton.1 hx <;> rfl

theorem isSimple_constructSequence (home : String) (m : MethodRef) :
    ∀ x ∈ constructSequence home m, x.isSimple := by
  intro x hx
  have hload : ∀ {y : Emit} {slots : List Slot}, y ∈ slots.map Emit.load → y.isSimple := by
    intro y slots hy
    rcases List.mem_map.1 hy with ⟨slot, _, rfl⟩
    rfl
  simp only [constructSequence, List.mem_append, List.mem_cons, List.not_mem_nil, or_false] at hx
  rcases hx with ((hx | rfl | rfl | rfl) | hx) | rfl
  · rcases List.mem_map.1 hx with ⟨slot, _, rfl⟩
    rfl
  · rfl
  · rfl
  · rfl
  · split at hx
    · cases hx
    · simp only [List.mem_append, List.mem_cons, List.not_mem_nil, or_false] at hx
      rcases hx with (rfl | hx) | rfl
      · rfl
      · exact hload hx
      · rfl
  · rfl

theorem isSimple_of_select {a : Assembly} {headerSize : UInt32} {i : Instruction} {es : List Emit}
    (h : select a headerSize i = .ok es) : ∀ x ∈ es, x.isSimple := by
  rcases select_ok h with ⟨e, -, rfl⟩
  cases e with
  | unary o =>
      cases o <;> exact List.all_eq_true.1 rfl
  | jumpIf expected target =>
      cases expected <;> exact List.all_eq_true.1 rfl
  | switch targets =>
      exact isSimple_switchSequence targets
  | call m =>
      exact isSimple_callSequence m
  | construct m =>
      exact isSimple_constructSequence a.name m
  | _ =>
      exact List.all_eq_true.1 rfl

end CilCompiler
