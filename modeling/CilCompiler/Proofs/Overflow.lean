import CilCompiler.Listing.Declaration
import CilCompiler.Proofs.Faults

/-!
# Field offsets beyond thirty-two bits

Nothing bounds the offset that a field declares, or the size of the header: each of them fits in
thirty-two bits, but their sum need not. Here is said for which assemblies and options a build stops
for that reason, and that it ends with an image or another error for all others.

* `Assembly.FieldsFit` says that no field lies so far, accessed or not.
* `fieldOffset_eq_overflow_iff` says which references lead to an overflow.
* `build_overflow_iff` says which builds end with one.
-/

namespace CilCompiler

/-! ## Fields -/

/-- No offset of an instance field overflows. -/
def Assembly.FieldsFit (a : Assembly) (headerSize : UInt32) : Prop :=
  ∀ t ∈ a.types, ∀ f ∈ t.fields, f.isStatic = false → t.place headerSize f < UInt32.size

instance (a : Assembly) (headerSize : UInt32) : Decidable (a.FieldsFit headerSize) :=
  inferInstanceAs (Decidable (∀ t ∈ a.types, ∀ f ∈ t.fields, f.isStatic = false →
    t.place headerSize f < UInt32.size))

section Fields

variable {a : Assembly} {headerSize : UInt32} {r r' : FieldRef}

theorem extent_le_place (t : TypeDef) (f : FieldDef) :
    t.extent headerSize f ≤ t.place headerSize f := by
  unfold TypeDef.extent TypeDef.place
  cases f.offset with
  | some offset =>
      exact Nat.le_refl _
  | none =>
      exact Nat.add_le_add_left (Nat.mul_le_mul_left _ (List.takeWhile_sublist _).length_le) _

theorem mem_types_of_findType {name : TypeName} {t : TypeDef} (h : a.findType name = some t) :
    t ∈ a.types := by
  unfold Assembly.findType at h
  split at h
  · exact List.mem_of_find?_eq_some h
  · cases h

theorem not_overflows_of_fieldsFit (h : a.FieldsFit headerSize) : ¬ a.Overflows headerSize r := by
  rintro ⟨t, f, htype, hfield, hstatic, -, hbeyond⟩
  have hplace : t.place headerSize f < UInt32.size :=
    h t (mem_types_of_findType htype) f (List.mem_of_find?_eq_some hfield) hstatic
  exact absurd hplace (Nat.not_lt.2 (hbeyond.trans (extent_le_place t f)))

theorem boundedOffset_eq_overflow_iff {n : Nat} :
    boundedOffset r n = .error (.offsetOverflow r') ↔ r' = r ∧ UInt32.size ≤ n := by
  unfold boundedOffset
  split
  · next hlt => simp [Nat.not_le.2 hlt]
  · next hge => simp [Nat.not_lt.1 hge, eq_comm]

/-- The layout of a row of fields overflows if the words at its front do. -/
theorem offsetBehind_eq_overflow_iff {offset : UInt32} {fs : List FieldDef} :
    offsetBehind r offset fs = .error (.offsetOverflow r') ↔
      r' = r ∧ UInt32.size ≤ offset.toNat +
        fieldSize * ((fs.filter (!·.isStatic)).takeWhile (·.type.isWord)).length := by
  induction fs generalizing offset with
  | nil =>
      have hlt : offset.toNat < UInt32.size := offset.toNat_lt
      simp [offsetBehind, Nat.not_le.2 hlt]
  | cons f fs ih =>
      cases hstatic : f.isStatic with
      | true =>
          simp [offsetBehind, hstatic, ih]
      | false =>
          cases hkind : valueKind f.type with
          | error e =>
              -- the layout ends here, before any sum is made
              have hlt : offset.toNat < UInt32.size := offset.toNat_lt
              simp [offsetBehind, hstatic, hkind, isWord_of_error hkind, valueKind_error hkind,
                Nat.not_le.2 hlt]
          | ok kind =>
              have hword : f.type.isWord := valueKind_ok_iff.1 ⟨kind, hkind⟩
              have hfront : ((f :: fs).filter (!·.isStatic)).takeWhile (·.type.isWord) =
                  f :: (fs.filter (!·.isStatic)).takeWhile (·.type.isWord) := by
                simp [hstatic, hword]
              rw [hfront, List.length_cons]
              by_cases hnext : offset.toNat + fieldSize < UInt32.size
              · -- the next field starts where this one ends, and the rest is laid out from there
                have hsize : (offset.toNat + fieldSize).toUInt32.toNat = offset.toNat + fieldSize :=
                  Nat.mod_eq_of_lt hnext
                simp only [offsetBehind, hstatic, hkind, boundedOffset_of_lt hnext, ih, hsize,
                  Bool.false_eq_true, if_false, Nat.mul_succ, Nat.add_assoc, Nat.add_comm fieldSize]
              · -- this field already ends too far, whatever comes behind it
                have hbeyond : UInt32.size ≤ offset.toNat + fieldSize *
                    (((fs.filter (!·.isStatic)).takeWhile (·.type.isWord)).length + 1) := by
                  rw [Nat.mul_succ]
                  omega
                simp [offsetBehind, hstatic, hkind, boundedOffset, hnext, hbeyond, eq_comm]

/-- The offset of a field overflows for just these references. -/
theorem fieldOffset_eq_overflow_iff :
    fieldOffset a headerSize r = .error (.offsetOverflow r') ↔
      r' = r ∧ a.Overflows headerSize r := by
  unfold fieldOffset Assembly.Overflows
  cases htype : a.findType r.declaring with
  | none =>
      simp
  | some t =>
      cases hfield : t.findField r.name with
      | none =>
          simp [hfield]
      | some f =>
          -- the fields before `f` are those before its name, which is the name that `r` gives
          have hname : f.name = r.name := by simpa using List.find?_some hfield
          cases hstatic : f.isStatic with
          | true =>
              simp [hfield, hstatic]
          | false =>
              cases hkind : valueKind f.type with
              | error e =>
                  simp [hfield, hstatic, hkind, isWord_of_error hkind, valueKind_error hkind]
              | ok kind =>
                  have hword : f.type.isWord := valueKind_ok_iff.1 ⟨kind, hkind⟩
                  cases hoffset : f.offset with
                  | some offset =>
                      simp [hfield, hstatic, hkind, hword, hoffset, TypeDef.extent,
                        boundedOffset_eq_overflow_iff]
                  | none =>
                      simp [hfield, hstatic, hkind, hword, hoffset, hname, TypeDef.extent,
                        TypeDef.fieldsBefore, offsetBehind_eq_overflow_iff]

end Fields

/-! ## Builds -/

section Builds

variable {a : Assembly} {o : Options} {declaring : TypeName} {m : MethodDef} {r : FieldRef}

/-- A method stops for an overflow if its translation comes to an access to such a field. -/
theorem fault_overflow_iff :
    m.Fault (a.setting o) o declaring (.offsetOverflow r) ↔
      ∃ i, m.ComesTo (a.setting o) o declaring i ∧ i.opcode ∈ [.ldfld, .stfld] ∧
        i.operand = .field r ∧ a.Overflows o.headerSize r := by
  constructor
  · intro h
    -- of all that can be wrong with a method, only the offset of a field overflows
    rcases h.cases with ⟨_, he⟩ | ⟨_, _, _, he⟩ | ⟨_, he⟩ | ⟨_, _, i, _, htargets⟩ |
        ⟨i, hcomes, hselect⟩ | ⟨_, _, he⟩ | ⟨_, he⟩
    · cases he
    · cases he
    · cases he
    · cases (targetsOf_eq_error htargets).1
    · rcases select_eq_error hselect with he | ⟨he, _⟩ | ⟨r', hopcode, hoperand, hoffset⟩
      · cases he
      · cases he
      · rcases fieldOffset_eq_overflow_iff.1 hoffset with ⟨rfl, hoverflows⟩
        exact ⟨i, hcomes, hopcode, hoperand, hoverflows⟩
    · cases he
    · cases he
  · rintro ⟨i, hcomes, hopcode, hoperand, hoverflows⟩
    refine hcomes.fault ((select_field_eq_error_iff hopcode hoperand).2 ?_)
    exact fieldOffset_eq_overflow_iff.2 ⟨rfl, hoverflows⟩

/-- A build stops for an overflow if it comes to such an access. -/
theorem build_overflow_iff {name : String} :
    build a o = .error ⟨[.compilingMethod name], .compile (.offsetOverflow r)⟩ ↔
      ∃ before t m i, a.ComesTo o before t m ∧ nameOf (t, m) = name ∧
        m.ComesTo (a.setting o) o t.name i ∧ i.opcode ∈ [.ldfld, .stfld] ∧
        i.operand = .field r ∧ a.Overflows o.headerSize r := by
  rw [build_error_iff]
  constructor
  · rintro ⟨before, t, m, e, hcomes, hstops, hfailure⟩
    cases hfailure
    -- a name that is taken is another error
    rcases hstops with hfault | ⟨-, -, he⟩
    · rcases fault_overflow_iff.1 hfault with ⟨i, hi⟩
      exact ⟨before, t, m, i, hcomes, rfl, hi⟩
    · cases he
  · rintro ⟨before, t, m, i, hcomes, rfl, hi⟩
    exact ⟨before, t, m, _, hcomes, .inl (fault_overflow_iff.2 ⟨i, hi⟩), rfl⟩

/-- A build ends with an image or with an error. The error is an overflow just if the build comes to
an access to a field that lies beyond thirty-two bits, and never if all fields fit. -/
theorem build_overflows_iff_access (a : Assembly) (o : Options) :
    (∀ name r, build a o = .error ⟨[.compilingMethod name], .compile (.offsetOverflow r)⟩ ↔
      ∃ before t m i, a.ComesTo o before t m ∧ nameOf (t, m) = name ∧
        m.ComesTo (a.setting o) o t.name i ∧ i.opcode ∈ [.ldfld, .stfld] ∧
        i.operand = .field r ∧ a.Overflows o.headerSize r) ∧
      (a.FieldsFit o.headerSize →
        (∃ image, build a o = .ok image) ∨
          ∃ name e, build a o = .error ⟨[.compilingMethod name], .compile e⟩ ∧
            ∀ r, e ≠ .offsetOverflow r) := by
  refine ⟨fun name r => build_overflow_iff, fun hfit => ?_⟩
  cases hbuild : build a o with
  | ok image =>
      exact .inl ⟨image, rfl⟩
  | error failure =>
      rcases build_error_iff.1 hbuild with ⟨before, t, m, e, -, -, rfl⟩
      refine .inr ⟨_, e, rfl, ?_⟩
      rintro r rfl
      rcases build_overflow_iff.1 hbuild with ⟨_, _, _, _, _, _, _, _, _, hoverflows⟩
      exact not_overflows_of_fieldsFit hfit hoverflows

end Builds

/-! ## A cell at the last address -/

namespace LastCell

/-- Its field lies `4294967288` bytes behind the header. -/
def listing : String :=
  ".assembly Lib\n" ++
  ".class public Lib.Cell\n" ++
  "\x7b\n" ++
  "  .field [4294967288] int32 last\n" ++
  "  .method public int32 Get()\n" ++
  "  \x7b\n" ++
  "    IL_0000: ldarg.0\n" ++
  "    IL_0001: ldfld int32 Lib.Cell::last\n" ++
  "    IL_0006: ret\n" ++
  "  \x7d\n" ++
  "\x7d\n"

def cell : TypeName := ⟨none, "Lib", "Cell"⟩

def last : FieldRef := ⟨cell, "last", .int32⟩

def get : MethodDef where
  name := "Get"
  result := .int32
  params := []
  isPublic := true
  body := some {
    instructions := [⟨0, .ldarg0, .empty⟩, ⟨1, .ldfld, .field last⟩, ⟨6, .ret, .empty⟩] }

def assembly : Assembly where
  name := "Lib"
  types := [{
    name := cell
    isPublic := true
    fields := [⟨"last", .int32, false, some 4294967288⟩]
    methods := [get] }]

/-- With a header of seven bytes the field has the last offset of all, and the build ends
properly. -/
theorem ends_below :
    assembly.FieldsFit 7 ∧
      ((∃ image, build assembly { headerSize := 7 } = .ok image) ∨
        ∃ name e, build assembly { headerSize := 7 } =
            .error ⟨[.compilingMethod name], .compile e⟩ ∧
          ∀ r, e ≠ .offsetOverflow r) :=
  have hfit : assembly.FieldsFit 7 := by decide
  ⟨hfit, (build_overflows_iff_access assembly { headerSize := 7 }).2 hfit⟩

/-- With the usual header of eight bytes the listing can be read, but its build ends with an
overflow. -/
theorem overflows_at_eight :
    Listing.parse listing = .ok assembly ∧
      build assembly {} = .error ⟨[.compilingMethod "System.Int32 Lib.Cell::Get()"],
        .compile (.offsetOverflow last)⟩ := by
  decide +kernel

end LastCell

end CilCompiler
