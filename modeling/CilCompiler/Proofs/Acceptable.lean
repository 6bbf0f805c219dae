import CilCompiler.Build
import CilCompiler.Proofs.Flow

/-!
# Acceptable assemblies

Which assemblies can be compiled, said about the assembly alone: without tables, without the order
in which methods are compiled and without the code that is written for them.

* `Instruction.Supported` says that an instruction can be translated in a method of some arity,
  `MethodBody.Acceptable` that a body can.
* `Acceptable` is the condition on a whole assembly under some options.
* `Assembly.AccessesFit` says that no access to a field overflows. It is the only thing that
  `Acceptable` leaves open.
* `select_fits_iff`, `analyze_ok_iff` and `fieldOffset_ok_iff` say that selection, structuring and
  field layout succeed under just these conditions, each in its own part.
-/

namespace CilCompiler

/-! ## Types and methods -/

/-- Whether values of the type are held in a word. -/
def TypeSig.isWord : TypeSig → Bool
  | .boolean | .int32 => true
  | _ => false

/-- The number of values that a method takes, receiver included. -/
def MethodDef.arity (m : MethodDef) : Nat :=
  (if m.hasThis then 1 else 0) + m.params.length

/-- Takes nothing but words, and returns one or nothing. -/
structure MethodDef.HasWords (m : MethodDef) : Prop where
  params : ∀ p ∈ m.params, p.type.isWord
  result : m.result = .void ∨ m.result.isWord

/-! ## Fields -/

/-- The fields that are declared before the first one of that name. -/
def TypeDef.fieldsBefore (t : TypeDef) (name : String) : List FieldDef :=
  t.fields.takeWhile (·.name != name)

/-- The offset of a field: its own behind the header, or else behind the words of the instance
fields before it. -/
def TypeDef.place (t : TypeDef) (headerSize : UInt32) (f : FieldDef) : Nat :=
  match f.offset with
  | some offset => headerSize.toNat + offset.toNat
  | none => headerSize.toNat +
      fieldSize * ((t.fieldsBefore f.name).filter (!·.isStatic)).length

/-- How far the search for the offset of a field reaches: to the field's own offset behind the
header, or else over the instance fields before it, up to the first that holds no word. -/
def TypeDef.extent (t : TypeDef) (headerSize : UInt32) (f : FieldDef) : Nat :=
  match f.offset with
  | some offset => headerSize.toNat + offset.toNat
  | none => headerSize.toNat + fieldSize *
      (((t.fieldsBefore f.name).filter (!·.isStatic)).takeWhile (·.type.isWord)).length

/-- The reference finds an instance field of a word that has no offset of thirty-two bits. -/
def Assembly.Overflows (a : Assembly) (headerSize : UInt32) (r : FieldRef) : Prop :=
  ∃ t f, a.findType r.declaring = some t ∧ t.findField r.name = some f ∧ f.isStatic = false ∧
    f.type.isWord ∧ UInt32.size ≤ t.extent headerSize f

/-- The reference resolves to an instance field that holds a word. If the field has no offset of its
own, the instance fields before it hold words as well. -/
def Assembly.Accesses (a : Assembly) (r : FieldRef) : Prop :=
  ∃ t f, a.findType r.declaring = some t ∧ t.findField r.name = some f ∧ f.isStatic = false ∧
    f.type.isWord ∧
    (f.offset = none → ∀ g ∈ t.fieldsBefore r.name, g.isStatic = false → g.type.isWord)

/-! ## Instructions -/

/-- The opcodes that are translated. -/
def Opcode.isTranslated : Opcode → Bool
  | .nop | .dup | .pop | .ret
  | .ldarg0 | .ldarg1 | .ldarg2 | .ldarg3 | .ldargS | .ldarg | .stargS | .starg
  | .ldloc0 | .ldloc1 | .ldloc2 | .ldloc3 | .ldlocS | .ldloc
  | .stloc0 | .stloc1 | .stloc2 | .stloc3 | .stlocS | .stloc
  | .ldcI4M1 | .ldcI4_0 | .ldcI4_1 | .ldcI4_2 | .ldcI4_3 | .ldcI4_4 | .ldcI4_5 | .ldcI4_6
  | .ldcI4_7 | .ldcI4_8 | .ldcI4S | .ldcI4
  | .add | .sub | .mul | .div | .divUn | .rem | .remUn | .and | .or | .xor | .shl | .shr | .shrUn
  | .neg | .not | .ceq | .cgt | .cgtUn | .clt | .cltUn
  | .convI1 | .convI2 | .convI4 | .convI | .convU1 | .convU2 | .convU4 | .convU
  | .brS | .br | .brtrueS | .brtrue | .brfalseS | .brfalse
  | .beqS | .beq | .bneUnS | .bneUn | .bgeS | .bge | .bgeUnS | .bgeUn | .bgtS | .bgt
  | .bgtUnS | .bgtUn | .bleS | .ble | .bleUnS | .bleUn | .bltS | .blt | .bltUnS | .bltUn
  | .switch | .call | .callvirt | .newobj | .ldfld | .stfld => true
  | _ => false

/-- The argument that the opcode itself names. -/
def Opcode.ownArgument? : Opcode → Option UInt16
  | .ldarg0 => some 0
  | .ldarg1 => some 1
  | .ldarg2 => some 2
  | .ldarg3 => some 3
  | _ => none

/-- The reference resolves to a method of the assembly, or names one that the host provides. -/
def Assembly.Resolves (a : Assembly) (o : Options) (r : MethodRef) : Prop :=
  (∃ found, a.findMethod r = some found) ∨
    ∃ d ∈ o.bridge.imports, d.name = Handle.methodIdentifier a.name r

/-- The instruction can be translated in a method that takes `arity` values. -/
structure Instruction.Supported (a : Assembly) (o : Options) (arity : Nat) (i : Instruction) :
    Prop where
  translated : i.opcode.isTranslated
  operand : i.opcode.operandKind ≠ .empty → i.operand.kind = i.opcode.operandKind
  ownArgument : ∀ n ∈ i.opcode.ownArgument?, n.toNat < arity
  argument : ∀ n, i.opcode ∈ [.ldarg, .ldargS, .starg, .stargS] → i.operand = .arg n →
    n.toNat < arity
  field : ∀ r, i.opcode ∈ [.ldfld, .stfld] → i.operand = .field r → a.Accesses r
  callee : ∀ r, i.opcode ∈ [.call, .callvirt, .newobj] → i.operand = .method r →
    r.fullName = objectConstructor ∨ a.Resolves o r

/-- The instruction jumps to the offset `t`, perhaps on some condition. -/
def Instruction.JumpsTo (i : Instruction) (t : UInt32) : Prop :=
  (i.opcode.isBranch ∧ i.operand = .target t) ∨
    (i.opcode = .switch ∧ ∃ ts, i.operand = .targets ts ∧ t ∈ ts)

/-- If the instruction accesses a field, then the offset of the field does not overflow. -/
def Instruction.AccessFits (a : Assembly) (headerSize : UInt32) (i : Instruction) : Prop :=
  ∀ r, i.opcode ∈ [.ldfld, .stfld] → i.operand = .field r → ¬ a.Overflows headerSize r

/-! ## Bodies and assemblies -/

/-- The body can be translated in a method that takes `arity` values. -/
structure MethodBody.Acceptable (a : Assembly) (o : Options) (arity : Nat) (body : MethodBody) :
    Prop where
  regions : body.regions = []
  ascending : (offsets body.instructions).Pairwise (· < ·)
  instructions : ∀ i ∈ body.instructions, i.Supported a o arity
  targets : ∀ i ∈ body.instructions, ∀ t, i.JumpsTo t → t ∈ offsets body.instructions

/-- The assembly can be compiled. -/
structure Acceptable (a : Assembly) (o : Options) : Prop where
  names : a.methodNames.Nodup
  words : ∀ t m, (t, m) ∈ a.methods → m.HasWords
  /-- Methods that only forward to the host take at most four values. -/
  forwarded : ∀ t m, (t, m) ∈ a.methods → o.isInterop (m.ref t.name).fullName → m.arity ≤ 4
  bodies : ∀ t m, (t, m) ∈ a.methods → o.isInterop (m.ref t.name).fullName = false →
    ∀ body, m.body = some body → body.instructions ≠ [] → body.Acceptable a o m.arity

/-- No field that the code of an assembly accesses has an offset that overflows. -/
def Assembly.AccessesFit (a : Assembly) (o : Options) : Prop :=
  ∀ t m, (t, m) ∈ a.methods → o.isInterop (m.ref t.name).fullName = false →
    ∀ body, m.body = some body → ∀ i ∈ body.instructions, i.AccessFits a o.headerSize

/-! ## Field layout -/

section Fields

variable {a : Assembly} {headerSize : UInt32} {r : FieldRef}

theorem valueKind_ok_iff {type : TypeSig} : (∃ kind, valueKind type = .ok kind) ↔ type.isWord := by
  cases type <;> simp [valueKind, TypeSig.isWord]

theorem isWord_of_error {type : TypeSig} {e : CompileError} (h : valueKind type = .error e) :
    type.isWord = false := by
  cases type <;> cases h <;> rfl

theorem boundedOffset_of_lt {n : Nat} (h : n < UInt32.size) :
    boundedOffset r n = .ok n.toUInt32 := by
  rw [boundedOffset, if_pos h]

theorem boundedOffset_eq_ok_iff {offset : Nat} {n : UInt32} :
    boundedOffset r offset = .ok n ↔ n.toNat = offset := by
  by_cases h : offset < UInt32.size
  · have hsize : offset.toUInt32.toNat = offset := Nat.mod_eq_of_lt h
    rw [boundedOffset_of_lt h, Except.ok.injEq, ← UInt32.toNat_inj, hsize, eq_comm]
  · have hlt : n.toNat < UInt32.size := n.toNat_lt
    rw [boundedOffset, if_neg h]
    exact iff_of_false (by simp) fun hn => h (hn ▸ hlt)

/-- Fields are laid out one behind the other if all of them hold words. The sum is the one of natural
numbers: if it exceeds thirty-two bits, no offset equals it. -/
theorem offsetBehind_eq_ok_iff {offset n : UInt32} {fs : List FieldDef} :
    offsetBehind r offset fs = .ok n ↔
      (∀ f ∈ fs, f.isStatic = false → f.type.isWord) ∧
        n.toNat = offset.toNat + fieldSize * (fs.filter (!·.isStatic)).length := by
  induction fs generalizing offset with
  | nil =>
      constructor
      · intro h
        cases h
        simp
      · rintro ⟨-, hn⟩
        exact congrArg Except.ok (UInt32.toNat_inj.1 hn.symm)
  | cons f fs ih =>
      cases hstatic : f.isStatic with
      | true =>
          simpa [offsetBehind, hstatic] using ih
      | false =>
          have hlength : ((f :: fs).filter (!·.isStatic)).length =
              (fs.filter (!·.isStatic)).length + 1 := by
            simp [hstatic]
          rw [hlength, Nat.mul_succ, List.forall_mem_cons]
          cases hkind : valueKind f.type with
          | error e =>
              have hword := isWord_of_error hkind
              simp [offsetBehind, hstatic, hkind, hword]
          | ok kind =>
              have hword : f.type.isWord := valueKind_ok_iff.1 ⟨kind, hkind⟩
              by_cases hnext : offset.toNat + fieldSize < UInt32.size
              · have hsize : (offset.toNat + fieldSize).toUInt32.toNat = offset.toNat + fieldSize :=
                  Nat.mod_eq_of_lt hnext
                have hstep : offsetBehind r offset (f :: fs) =
                    offsetBehind r (offset.toNat + fieldSize).toUInt32 fs := by
                  simp only [offsetBehind, hstatic, hkind, boundedOffset_of_lt hnext,
                    Bool.false_eq_true, if_false]
                rw [hstep, ih, hsize, Nat.add_assoc, Nat.add_comm fieldSize]
                simp [hword]
              · -- the field ends beyond every offset
                have hlt : n.toNat < UInt32.size := n.toNat_lt
                refine iff_of_false ?_ ?_
                · simp [offsetBehind, hstatic, hkind, boundedOffset, hnext]
                · rintro ⟨-, hn⟩
                  omega

/-- If all fields before it hold words, the search for the offset of a field reaches its place. -/
theorem extent_eq_place {t : TypeDef} {f : FieldDef}
    (h : f.offset = none → ∀ g ∈ t.fieldsBefore f.name, g.isStatic = false → g.type.isWord) :
    t.extent headerSize f = t.place headerSize f := by
  unfold TypeDef.extent TypeDef.place
  cases hoffset : f.offset with
  | some offset =>
      rfl
  | none =>
      have hwords : ((t.fieldsBefore f.name).filter (!·.isStatic)).takeWhile (·.type.isWord) =
          (t.fieldsBefore f.name).filter (!·.isStatic) := by
        refine List.takeWhile_eq_self_iff.2 fun g hg => ?_
        rcases List.mem_filter.1 hg with ⟨hmem, hstatic⟩
        exact h hoffset g hmem (by simpa using hstatic)
      simp only [hwords]

/-- What the offset of a field is: the place of the instance field that the reference resolves to, if
it holds a word and so do those that it is laid out behind. -/
theorem fieldOffset_eq_ok_iff {n : UInt32} :
    fieldOffset a headerSize r = .ok n ↔
      ∃ t f, a.findType r.declaring = some t ∧ t.findField r.name = some f ∧ f.isStatic = false ∧
        f.type.isWord ∧
        (f.offset = none → ∀ g ∈ t.fieldsBefore r.name, g.isStatic = false → g.type.isWord) ∧
        n.toNat = t.place headerSize f := by
  unfold fieldOffset
  cases htype : a.findType r.declaring with
  | none =>
      simp
  | some t =>
      cases hfield : t.findField r.name with
      | none =>
          simp [hfield]
      | some f =>
          have hname : f.name = r.name := by simpa using List.find?_some hfield
          cases hstatic : f.isStatic with
          | true =>
              simp [hfield, hstatic]
          | false =>
              cases hkind : valueKind f.type with
              | error e =>
                  have hword := isWord_of_error hkind
                  simp [hfield, hstatic, hkind, hword]
              | ok kind =>
                  have hword : f.type.isWord := valueKind_ok_iff.1 ⟨kind, hkind⟩
                  cases hoffset : f.offset with
                  | some offset =>
                      simp [hfield, hstatic, hkind, hword, hoffset, boundedOffset_eq_ok_iff,
                        TypeDef.place]
                  | none =>
                      simp [hfield, hstatic, hkind, hword, hoffset, offsetBehind_eq_ok_iff,
                        TypeDef.place, TypeDef.fieldsBefore, hname]

/-- Unless it overflows, the offset of a field is found for the references that access one. -/
theorem fieldOffset_ok_iff (hfit : ¬ a.Overflows headerSize r) :
    (∃ n, fieldOffset a headerSize r = .ok n) ↔ a.Accesses r := by
  constructor
  · rintro ⟨n, hn⟩
    rcases fieldOffset_eq_ok_iff.1 hn with ⟨t, f, htype, hfield, hstatic, hword, hbefore, -⟩
    exact ⟨t, f, htype, hfield, hstatic, hword, hbefore⟩
  · rintro ⟨t, f, htype, hfield, hstatic, hword, hbefore⟩
    have hname : f.name = r.name := by simpa using List.find?_some hfield
    have hlt : t.place headerSize f < UInt32.size := by
      rw [← extent_eq_place (hname ▸ hbefore)]
      exact Nat.lt_of_not_le fun hle => hfit ⟨t, f, htype, hfield, hstatic, hword, hle⟩
    have hplace := UInt32.toNat_ofNat_of_lt' hlt
    exact ⟨_, fieldOffset_eq_ok_iff.2 ⟨t, f, htype, hfield, hstatic, hword, hbefore, hplace⟩⟩

end Fields

/-! ## Structuring -/

namespace Schedule

theorem mem_foldl_insert {ts found : List UInt32} {t : UInt32} :
    t ∈ ts.foldl (fun found t => insert t found) found ↔ t ∈ ts ∨ t ∈ found := by
  induction ts generalizing found with
  | nil =>
      simp
  | cons t' ts ih =>
      rw [List.foldl_cons, ih, mem_insert]
      simp only [List.mem_cons]
      tauto

/-- What is collected are the targets of all instructions, each of which has to have some. -/
theorem collect_ok_iff {is : List Instruction} {found : List UInt32} :
    (∃ targets, collect found is = .ok targets) ↔ ∀ i ∈ is, ∃ ts, targetsOf i = .ok ts := by
  induction is generalizing found with
  | nil =>
      simp [collect]
  | cons i is ih =>
      cases hi : targetsOf i with
      | error e =>
          simp [collect, hi]
      | ok ts =>
          simpa [collect, hi] using ih

theorem targetsOf_ok {i : Instruction} {ts : List UInt32} (h : targetsOf i = .ok ts) {t : UInt32} :
    t ∈ ts ↔ i.JumpsTo t := by
  rcases i with ⟨offset, opcode, operand⟩
  unfold targetsOf at h
  by_cases hbranch : opcode.isBranch
  · have hne : opcode ≠ .switch := by
      rintro rfl
      exact absurd hbranch (by decide)
    rw [if_pos hbranch] at h
    cases operand with
    | target t' =>
        cases h
        simp [Instruction.JumpsTo, hbranch, hne, eq_comm]
    | _ =>
        cases h
  · rw [if_neg hbranch] at h
    by_cases hswitch : opcode = .switch
    · rw [if_pos hswitch] at h
      cases operand with
      | targets ts' =>
          cases h
          simp [Instruction.JumpsTo, hswitch]
      | _ =>
          cases h
    · rw [if_neg hswitch] at h
      cases h
      simp [Instruction.JumpsTo, hbranch, hswitch]

theorem mem_collect {is : List Instruction} {found targets : List UInt32}
    (h : collect found is = .ok targets) {t : UInt32} :
    t ∈ targets ↔ t ∈ found ∨ ∃ i ∈ is, i.JumpsTo t := by
  induction is generalizing found with
  | nil =>
      cases h
      simp
  | cons i is ih =>
      cases hi : targetsOf i with
      | error e =>
          simp [collect, hi] at h
      | ok ts =>
          have hrest : collect (ts.foldl (fun found t => insert t found) found) is = .ok targets := by
            simpa [collect, hi] using h
          rw [ih hrest, mem_foldl_insert, targetsOf_ok hi, List.exists_mem_cons_iff]
          tauto

theorem firstDescent?_eq_none_iff {is : List Instruction} :
    firstDescent? is = none ↔ (offsets is).Pairwise (· < ·) := by
  refine ⟨pairwise_offsets, ?_⟩
  intro h
  induction is with
  | nil =>
      rfl
  | cons i is ih =>
      cases is with
      | nil =>
          rfl
      | cons j is =>
          rcases List.pairwise_cons.1 h with ⟨hfirst, hrest⟩
          have hlt : i.offset < j.offset := hfirst j.offset (by simp)
          rw [firstDescent?, if_neg (UInt32.not_le.2 hlt)]
          exact ih hrest

/-- A body has a schedule if it has no protected regions, its offsets ascend, its jumps carry
targets, and the targets are offsets. -/
theorem analyze_ok_iff {body : MethodBody} :
    (∃ s, analyze body = .ok s) ↔ body.regions = [] ∧ (offsets body.instructions).Pairwise (· < ·) ∧
      (∀ i ∈ body.instructions, ∃ ts, targetsOf i = .ok ts) ∧
      ∀ i ∈ body.instructions, ∀ t, i.JumpsTo t → t ∈ offsets body.instructions := by
  unfold analyze
  cases hr : body.regions with
  | cons region regions =>
      simp
  | nil =>
      cases hd : firstDescent? body.instructions with
      | some offset =>
          have hnot : ¬ (offsets body.instructions).Pairwise (· < ·) := by
            rw [← firstDescent?_eq_none_iff, hd]
            simp
          simp [hnot]
      | none =>
          have hascending := firstDescent?_eq_none_iff.1 hd
          cases hc : collect [] body.instructions with
          | error e =>
              have hnot : ¬ ∀ i ∈ body.instructions, ∃ ts, targetsOf i = .ok ts := by
                intro hall
                rcases collect_ok_iff.2 hall with ⟨targets, htargets⟩
                rw [hc] at htargets
                cases htargets
              simp [hascending, hnot]
          | ok targets =>
              have hall := collect_ok_iff.1 ⟨targets, hc⟩
              -- the search for a target that is no offset covers what the jumps name
              have hsearch : targets.find? (fun t => !body.instructions.any (·.offset == t)) = none ↔
                  ∀ i ∈ body.instructions, ∀ t, i.JumpsTo t → t ∈ offsets body.instructions := by
                simp only [List.find?_eq_none, mem_collect hc, List.not_mem_nil, false_or,
                  forall_exists_index, and_imp]
                constructor
                · intro h i hi t ht
                  simpa using h t i hi ht
                · intro h t i hi ht
                  simpa using h i hi t ht
              rw [← hsearch]
              cases hm : targets.find? (fun t => !body.instructions.any (·.offset == t)) with
              | some t =>
                  simp [hm]
              | none =>
                  simpa [hm, hascending] using hall

theorem mem_targets {body : MethodBody} {s : Schedule} (h : analyze body = .ok s) {t : UInt32} :
    t ∈ s.targets ↔ ∃ i ∈ body.instructions, i.JumpsTo t := by
  have hcollect : collect [] body.instructions = .ok s.targets := by
    unfold analyze at h
    split at h
    · cases h
    · split at h
      · cases h
      · split at h
        · cases h
        · next targets hc =>
            split at h
            · cases h
            · cases h
              exact hc
  simpa using mem_collect hcollect

end Schedule

/-! ## Selection -/

/-- Whether a slot exists in a function that takes `arity` values. -/
def Slot.Fits (arity : Nat) (slot : Slot) : Prop :=
  ∀ n, slot = .arg n → n.toNat < arity

/-- Whether a step of a sequence can be linked, in a body with the given branch targets. -/
inductive Emit.Fits (a : Assembly) (o : Options) (arity : Nat) (targets : List UInt32) : Emit → Prop
  | op (op : Wasm.Op) : Fits a o arity targets (.op op)
  | load {slot : Slot} : slot.Fits arity → Fits a o arity targets (.load slot)
  | store {slot : Slot} : slot.Fits arity → Fits a o arity targets (.store slot)
  | branch {target : UInt32} {conditional : Bool} :
      target ∈ targets → Fits a o arity targets (.branch target conditional)
  | handle (name : String) : Fits a o arity targets (.handle name)
  | allocate : Fits a o arity targets .allocate
  | call {r : MethodRef} : a.Resolves o r → Fits a o arity targets (.call r)

/-- The operand that an action works on. -/
def Action.operandKind : Action → OperandKind
  | .loadArg | .storeArg => .arg
  | .loadLocal | .storeLocal => .loc
  | .constant => .int32
  | .branch _ _ => .target
  | .switch => .targets
  | .call | .construct => .method
  | .loadField | .storeField => .field
  | _ => .empty

/-- The argument that an action names without looking at the operand. -/
def Action.argument? : Action → Option UInt16
  | .load (.arg n) => some n
  | _ => none

section Opcodes

variable {op : Opcode}

theorem isTranslated_iff : op.isTranslated ↔ op.action ≠ .unsupported := by
  cases op <;> decide

theorem operandKind_eq (h : op.action ≠ .unsupported) : op.operandKind = op.action.operandKind := by
  revert h
  cases op <;> decide

theorem ownArgument?_eq_some_iff {n : UInt16} :
    op.ownArgument? = some n ↔ op.action = .load (.arg n) := by
  have htable : op.ownArgument? = op.action.argument? := by
    cases op <;> rfl
  rw [htable]
  cases op.action with
  | load slot =>
      cases slot <;> simp [Action.argument?]
  | _ =>
      simp [Action.argument?]

theorem action_ne_store_arg {n : UInt16} : op.action ≠ .store (.arg n) := by
  intro h
  cases op <;> cases h

theorem mem_arg_opcodes_iff :
    op ∈ [.ldarg, .ldargS, .starg, .stargS] ↔ op.action = .loadArg ∨ op.action = .storeArg := by
  cases op <;> decide

theorem mem_field_opcodes_iff :
    op ∈ [.ldfld, .stfld] ↔ op.action = .loadField ∨ op.action = .storeField := by
  cases op <;> decide

theorem mem_call_opcodes_iff :
    op ∈ [.call, .callvirt, .newobj] ↔ op.action = .call ∨ op.action = .construct := by
  cases op <;> decide

theorem isBranch_iff : op.isBranch ∧ op.isTranslated ↔ op.action.operandKind = .target := by
  cases op <;> decide

theorem eq_switch_of_action (h : op.action = .switch) : op = .switch := by
  revert h
  cases op <;> decide

end Opcodes

section Selection

variable {a : Assembly} {o : Options} {headerSize : UInt32} {arity : Nat} {targets : List UInt32}
  {i : Instruction}

/-! ### Sequences -/

@[simp] theorem fits_op {op : Wasm.Op} : (Emit.op op).Fits a o arity targets :=
  .op op

@[simp] theorem fits_load_iff {slot : Slot} :
    (Emit.load slot).Fits a o arity targets ↔ slot.Fits arity :=
  ⟨fun h => by cases h; assumption, .load⟩

@[simp] theorem fits_store_iff {slot : Slot} :
    (Emit.store slot).Fits a o arity targets ↔ slot.Fits arity :=
  ⟨fun h => by cases h; assumption, .store⟩

@[simp] theorem fits_branch_iff {target : UInt32} {conditional : Bool} :
    (Emit.branch target conditional).Fits a o arity targets ↔ target ∈ targets :=
  ⟨fun h => by cases h; assumption, .branch⟩

@[simp] theorem fits_handle {name : String} : (Emit.handle name).Fits a o arity targets :=
  .handle name

@[simp] theorem fits_allocate : Emit.allocate.Fits a o arity targets :=
  .allocate

@[simp] theorem fits_call_iff {r : MethodRef} :
    (Emit.call r).Fits a o arity targets ↔ a.Resolves o r :=
  ⟨fun h => by cases h; assumption, .call⟩

theorem fits_switchSequence {ts : List UInt32} :
    (∀ e ∈ switchSequence ts, e.Fits a o arity targets) ↔ ∀ t ∈ ts, t ∈ targets := by
  constructor
  · intro h t ht
    rcases List.getElem?_of_mem ht with ⟨n, hn⟩
    have hmem : (t, n) ∈ ts.zipIdx := by simpa [List.mem_zipIdx_iff_getElem?] using hn
    refine fits_branch_iff.1 (h (.branch t true) ?_)
    exact List.mem_cons_of_mem _ (List.mem_flatMap.2 ⟨(t, n), hmem, by simp⟩)
  · intro h e he
    rcases List.mem_cons.1 he with rfl | he
    · simp [Slot.Fits]
    · rcases List.mem_flatMap.1 he with ⟨⟨t, n⟩, hmem, he⟩
      have ht := h t (List.fst_mem_of_mem_zipIdx hmem)
      simp only [List.mem_cons, List.not_mem_nil, or_false] at he
      rcases he with rfl | rfl | rfl | rfl <;> simp [Slot.Fits, ht]

theorem fits_callSequence {r : MethodRef} :
    (∀ e ∈ callSequence r, e.Fits a o arity targets) ↔
      r.fullName = objectConstructor ∨ a.Resolves o r := by
  by_cases hr : r.fullName = objectConstructor <;> simp [callSequence, hr]

/-- The slots that hold the arguments of a constructor always exist. -/
theorem fits_constructorArgs {r : MethodRef} : ∀ slot ∈ constructorArgs r, slot.Fits arity := by
  intro slot hslot
  rcases List.mem_map.1 hslot with ⟨n, _, rfl⟩
  simp [Slot.Fits]

theorem fits_constructSequence {home : String} {r : MethodRef} :
    (∀ e ∈ constructSequence home r, e.Fits a o arity targets) ↔
      r.fullName = objectConstructor ∨ a.Resolves o r := by
  have hargs : ∀ slot ∈ constructorArgs r, slot.Fits arity := fits_constructorArgs
  have hobject : Slot.Fits arity .newObject := by simp [Slot.Fits]
  by_cases hr : r.fullName = objectConstructor
  · simpa [constructSequence, hr, hobject, or_imp, forall_and] using hargs
  · simpa [constructSequence, hr, hobject, or_imp, forall_and]
      using fun _ : a.Resolves o r => hargs

/-! ### Instructions -/

/-- What an instruction needs, said about the action of its opcode. -/
theorem supported_iff :
    i.Supported a o arity ↔ i.opcode.action ≠ .unsupported ∧
      (i.opcode.action.operandKind ≠ .empty → i.operand.kind = i.opcode.action.operandKind) ∧
      (∀ n, i.opcode.action = .load (.arg n) → n.toNat < arity) ∧
      (∀ n, i.opcode.action = .loadArg ∨ i.opcode.action = .storeArg → i.operand = .arg n →
        n.toNat < arity) ∧
      (∀ r, i.opcode.action = .loadField ∨ i.opcode.action = .storeField → i.operand = .field r →
        a.Accesses r) ∧
      ∀ r, i.opcode.action = .call ∨ i.opcode.action = .construct → i.operand = .method r →
        r.fullName = objectConstructor ∨ a.Resolves o r := by
  constructor
  · intro h
    have hne := isTranslated_iff.1 h.translated
    refine ⟨hne, operandKind_eq hne ▸ h.operand, ?_, ?_, ?_, ?_⟩
    · exact fun n hop => h.ownArgument n (ownArgument?_eq_some_iff.2 hop)
    · exact fun n hop => h.argument n (mem_arg_opcodes_iff.2 hop)
    · exact fun r hop => h.field r (mem_field_opcodes_iff.2 hop)
    · exact fun r hop => h.callee r (mem_call_opcodes_iff.2 hop)
  · rintro ⟨hne, hoperand, hown, hargument, hfield, hcallee⟩
    exact
      { translated := isTranslated_iff.2 hne
        operand := operandKind_eq hne ▸ hoperand
        ownArgument := fun n hop => hown n (ownArgument?_eq_some_iff.1 hop)
        argument := fun n hop => hargument n (mem_arg_opcodes_iff.1 hop)
        field := fun r hop => hfield r (mem_field_opcodes_iff.1 hop)
        callee := fun r hop => hcallee r (mem_call_opcodes_iff.1 hop) }

/-- An operand of another kind than the action works on is refused. -/
theorem select_of_kind_ne (hne : i.opcode.action.operandKind ≠ .empty)
    (hkind : i.operand.kind ≠ i.opcode.action.operandKind) :
    select a headerSize i = .error (.malformedOperand (.wrongShape i.opcode i.offset)) := by
  rcases i with ⟨offset, opcode, operand⟩
  unfold select
  simp only at hne hkind ⊢
  generalize opcode.action = action at hne hkind ⊢
  revert hne hkind
  cases action <;> cases operand <;> simp [Action.operandKind, Operand.kind]

theorem exists_map_ok_iff {α β ε : Type} {x : Except ε α} {f : α → β} {P : β → Prop} :
    (∃ y, (f <$> x) = Except.ok y ∧ P y) ↔ ∃ n, x = .ok n ∧ P (f n) := by
  cases x <;> simp [Functor.map, Except.map]

/-- An instruction has a sequence that can be linked if it is supported, given that the targets of
its jumps are known and that it accesses no field that overflows. -/
theorem select_fits_iff (hfit : i.AccessFits a headerSize)
    (htargets : ∀ t, i.JumpsTo t → t ∈ targets) :
    (∃ es, select a headerSize i = .ok es ∧ ∀ e ∈ es, e.Fits a o arity targets) ↔
      i.Supported a o arity := by
  rw [supported_iff]
  by_cases hkind : i.opcode.action.operandKind ≠ .empty →
      i.operand.kind = i.opcode.action.operandKind
  · have hbranch : i.opcode.action.operandKind = .target → ∀ t, i.operand = .target t →
        t ∈ targets :=
      fun hkind t hoperand => htargets t (.inl ⟨(isBranch_iff.2 hkind).1, hoperand⟩)
    have hswitch : i.opcode.action = .switch → ∀ ts, i.operand = .targets ts →
        ∀ t ∈ ts, t ∈ targets :=
      fun haction ts hoperand t ht =>
        htargets t (.inr ⟨eq_switch_of_action haction, ts, hoperand, ht⟩)
    have hstore : ∀ n, i.opcode.action ≠ .store (.arg n) := fun n => action_ne_store_arg
    have hfield : i.opcode.action = .loadField ∨ i.opcode.action = .storeField →
        ∀ r, i.operand = .field r → ¬ a.Overflows headerSize r :=
      fun haction r => hfit r (mem_field_opcodes_iff.2 haction)
    -- from here on only the action and the operand count
    rcases i with ⟨offset, opcode, operand⟩
    unfold select
    simp only at hkind hbranch hswitch hstore hfield ⊢
    clear htargets hfit
    generalize opcode.action = action at hkind hbranch hswitch hstore hfield ⊢
    cases action with
    | fixed ops =>
        simp [Action.operandKind]
    | load slot =>
        simp [Action.operandKind, Slot.Fits]
    | store slot =>
        have hfits : slot.Fits arity := fun n hn => absurd (congrArg Action.store hn) (hstore n)
        simp [Action.operandKind, hfits]
    | loadArg | storeArg =>
        cases operand with
        | arg n => simp [Action.operandKind, Operand.kind, Slot.Fits]
        | _ => cases hkind nofun
    | loadLocal | storeLocal =>
        cases operand with
        | loc n => simp [Action.operandKind, Operand.kind, Slot.Fits]
        | _ => cases hkind nofun
    | constant =>
        cases operand with
        | int32 value => simp [Action.operandKind, Operand.kind]
        | _ => cases hkind nofun
    | duplicate =>
        simp [Action.operandKind, Slot.Fits]
    | branch test conditional =>
        cases operand with
        | target t =>
            have hlast : ∀ e ∈ test.map Emit.op ++ [.branch t conditional],
                e.Fits a o arity targets := by
              intro e he
              rcases List.mem_append.1 he with he | he
              · rcases List.mem_map.1 he with ⟨op, _, rfl⟩
                exact .op op
              · cases List.mem_singleton.1 he
                exact .branch (hbranch rfl t rfl)
            simpa [Action.operandKind, Operand.kind] using hlast
        | _ => cases hkind nofun
    | switch =>
        cases operand with
        | targets ts =>
            simpa [Action.operandKind, Operand.kind, fits_switchSequence] using hswitch rfl ts rfl
        | _ => cases hkind nofun
    | call =>
        cases operand with
        | method r => simp [Action.operandKind, Operand.kind, fits_callSequence]
        | _ => cases hkind nofun
    | construct =>
        cases operand with
        | method r => simp [Action.operandKind, Operand.kind, fits_constructSequence]
        | _ => cases hkind nofun
    | loadField | storeField =>
        cases operand with
        | field r =>
            have hoffset := fieldOffset_ok_iff (hfield (by simp) r rfl)
            simp [Action.operandKind, Operand.kind, exists_map_ok_iff, hoffset]
        | _ => cases hkind nofun
    | unsupported =>
        simp
  · -- the operand is refused by selection, and rightly so
    have hne := Classical.not_imp.1 hkind
    have he : select a headerSize i = _ := select_of_kind_ne hne.1 hne.2
    constructor
    · rintro ⟨es, hes, -⟩
      rw [he] at hes
      cases hes
    · rintro ⟨-, hoperand, -⟩
      exact absurd hoperand hkind

/-- The jumps among supported instructions carry their targets. -/
theorem targetsOf_of_supported (h : i.Supported a o arity) :
    ∃ ts, Schedule.targetsOf i = .ok ts := by
  rcases i with ⟨offset, opcode, operand⟩
  unfold Schedule.targetsOf
  by_cases hbranch : opcode.isBranch
  · have htarget : opcode.operandKind = .target := by
      simp only [Opcode.isBranch, Bool.and_eq_true, beq_iff_eq] at hbranch
      exact hbranch.1.1
    have hkind : operand.kind = .target := htarget ▸ h.operand (by simp [htarget])
    rw [if_pos hbranch]
    cases operand with
    | target t => exact ⟨[t], rfl⟩
    | _ => cases hkind
  · rw [if_neg hbranch]
    by_cases hswitch : opcode = .switch
    · subst hswitch
      have hkind : operand.kind = .targets := h.operand nofun
      rw [if_pos rfl]
      cases operand with
      | targets ts => exact ⟨ts, rfl⟩
      | _ => cases hkind
    · rw [if_neg hswitch]
      exact ⟨[], rfl⟩

/-- A body is acceptable if it can be structured and its instructions have sequences that can be
linked. -/
theorem acceptable_iff {body : MethodBody}
    (hfit : ∀ i ∈ body.instructions, i.AccessFits a headerSize) :
    (∃ s, Schedule.analyze body = .ok s ∧ ∀ i ∈ body.instructions, ∃ es,
      select a headerSize i = .ok es ∧ ∀ e ∈ es, e.Fits a o arity s.targets) ↔
        body.Acceptable a o arity := by
  have hselect : ∀ {s : Schedule}, Schedule.analyze body = .ok s → ∀ i ∈ body.instructions,
      ((∃ es, select a headerSize i = .ok es ∧ ∀ e ∈ es, e.Fits a o arity s.targets) ↔
        i.Supported a o arity) :=
    fun hs i hi => select_fits_iff (hfit i hi) fun t ht => (Schedule.mem_targets hs).2 ⟨i, hi, ht⟩
  constructor
  · rintro ⟨s, hs, hinstructions⟩
    rcases Schedule.analyze_ok_iff.1 ⟨s, hs⟩ with ⟨hregions, hascending, -, htargets⟩
    exact ⟨hregions, hascending, fun i hi => (hselect hs i hi).1 (hinstructions i hi), htargets⟩
  · intro h
    have hcarry := fun i hi => targetsOf_of_supported (h.instructions i hi)
    rcases Schedule.analyze_ok_iff.2 ⟨h.regions, h.ascending, hcarry, h.targets⟩ with ⟨s, hs⟩
    exact ⟨s, hs, fun i hi => (hselect hs i hi).2 (h.instructions i hi)⟩

end Selection

end CilCompiler
