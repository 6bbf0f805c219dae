import CilCompiler.Listing.Declaration
import CilCompiler.Proofs.ListingText

/-!
# Printing an assembly as a listing

* The functions named `pieces` write down types, references, instructions and declarations; `print`
  lays the pieces of an assembly out as text.
* The predicates named `Printable` say what can be written down: every name fits between quotes, no
  simple type name holds a dot, and every operand has the shape that its opcode asks for.
* `Assembly.spelled` says that everything printable is spelled in a way that the lexer takes.
-/

namespace CilCompiler

namespace Listing

/-- The words whose properties hold. -/
def chosen (flags : List (Bool × String)) : List String :=
  flags.filterMap fun (holds, word) => if holds then some word else none

/-- Rows of pieces with commas between them, in parentheses. -/
def parens (rows : List (List Piece)) : List Piece :=
  .punct '(' :: (List.intercalate [.punct ','] rows ++ [.punct ')'])

end Listing

open Listing

/-! ## Types and references -/

def TypeName.pieces (t : TypeName) : List Piece :=
  (match t.assembly with
    | some assembly => [.punct '[', .name assembly, .punct ']']
    | none => []) ++ [.name t.fullName]

def TypeSig.pieces : TypeSig → List Piece
  | .void => [.word "void"]
  | .boolean => [.word "bool"]
  | .char => [.word "char"]
  | .int8 => [.word "int8"]
  | .uint8 => [.word "uint8"]
  | .int16 => [.word "int16"]
  | .uint16 => [.word "uint16"]
  | .int32 => [.word "int32"]
  | .uint32 => [.word "uint32"]
  | .int64 => [.word "int64"]
  | .uint64 => [.word "uint64"]
  | .float32 => [.word "float32"]
  | .float64 => [.word "float64"]
  | .nativeInt => [.word "native", .word "int"]
  | .nativeUInt => [.word "native", .word "unsigned", .word "int"]
  | .string => [.word "string"]
  | .object => [.word "object"]
  | .classType name => .word "class" :: name.pieces
  | .valueType name => .word "valuetype" :: name.pieces
  | .array element => element.pieces ++ [.brackets]

def MethodRef.pieces (r : MethodRef) : List Piece :=
  (chosen [(r.hasThis, "instance")]).map .word ++ r.result.pieces ++ r.declaring.pieces ++
    [.doubleColon, .name r.name] ++ parens (r.params.map TypeSig.pieces)

def FieldRef.pieces (r : FieldRef) : List Piece :=
  r.type.pieces ++ r.declaring.pieces ++ [.doubleColon, .name r.name]

/-! ## Bodies -/

/-- An operand; floats and unread operands are left out. -/
def Operand.pieces : Operand → List Piece
  | .empty | .float _ | .raw _ => []
  | .int32 value => [.int value.toInt64]
  | .int64 value => [.int value]
  | .string text => [.string text]
  | .arg index | .loc index => [.int (Int64.ofNat index.toNat)]
  | .target offset => [.label offset]
  | .targets offsets => parens (offsets.map fun offset => [.label offset])
  | .method ref => ref.pieces
  | .field ref => ref.pieces
  | .type sig => sig.pieces

def Instruction.pieces (i : Instruction) : List Piece :=
  .mark i.offset :: .word i.opcode.mnemonic :: i.operand.pieces

def ExceptionRegion.pieces (r : ExceptionRegion) : List Piece :=
  [.word ".try", .label r.tryStart, .word "to", .label r.tryEnd,
   .word "handler", .label r.handlerStart, .word "to", .label r.handlerEnd]

def MethodBody.pieces (b : MethodBody) : List Piece :=
  .punct '\x7b' :: .word ".locals" :: .word "init" :: (parens (b.locals.map TypeSig.pieces) ++
    b.regions.flatMap ExceptionRegion.pieces ++ b.instructions.flatMap Instruction.pieces ++
    [.punct '\x7d'])

/-! ## Declarations -/

def FieldDef.pieces (f : FieldDef) : List Piece :=
  .word ".field" :: ((chosen [(f.isStatic, "static")]).map .word ++
    (match f.offset with
      | some offset => [.punct '[', .int (Int64.ofNat offset.toNat), .punct ']']
      | none => []) ++ f.type.pieces ++ [.name f.name])

def Param.pieces (p : Param) : List Piece :=
  p.type.pieces ++ p.name.toList.map .name

def MethodDef.words (m : MethodDef) : List String :=
  chosen [(m.isPublic, "public"), (m.isStatic, "static"), (m.isVirtual, "virtual")]

def MethodDef.pieces (m : MethodDef) : List Piece :=
  .word ".method" :: (m.words.map .word ++ m.result.pieces ++ [.name m.name] ++
    parens (m.params.map Param.pieces) ++ m.body.toList.flatMap MethodBody.pieces)

def TypeDef.words (t : TypeDef) : List String :=
  chosen [(t.isPublic, "public"), (t.isExplicit, "explicit")]

def TypeDef.pieces (t : TypeDef) : List Piece :=
  .word ".class" :: (t.words.map .word ++ [.name t.name.fullName, .punct '\x7b'] ++
    t.fields.flatMap FieldDef.pieces ++ t.methods.flatMap MethodDef.pieces ++ [.punct '\x7d'])

def Assembly.pieces (a : Assembly) : List Piece :=
  .word ".assembly" :: .name a.name :: a.types.flatMap TypeDef.pieces

/-- The listing of an assembly. -/
def Assembly.print (a : Assembly) : String :=
  String.ofList (layout a.pieces)

/-! ## What can be printed -/

/-- The name is quotable, and cutting it at its last dot gives its parts back. -/
def TypeName.Printable (t : TypeName) : Prop :=
  (∀ assembly ∈ t.assembly, Quotable assembly) ∧ Quotable t.qualifier ∧ Quotable t.name ∧
    '.' ∉ t.name.toList

instance (t : TypeName) : Decidable t.Printable :=
  inferInstanceAs (Decidable (_ ∧ _))

/-- The names of the types that a signature is made of. -/
def TypeSig.names : TypeSig → List TypeName
  | .classType name | .valueType name => [name]
  | .array element => element.names
  | _ => []

def TypeSig.Printable (s : TypeSig) : Prop :=
  ∀ t ∈ s.names, t.Printable

instance (s : TypeSig) : Decidable s.Printable :=
  inferInstanceAs (Decidable (∀ t ∈ s.names, t.Printable))

def MethodRef.Printable (r : MethodRef) : Prop :=
  r.declaring.Printable ∧ Quotable r.name ∧ r.result.Printable ∧ ∀ p ∈ r.params, p.Printable

instance (r : MethodRef) : Decidable r.Printable :=
  inferInstanceAs (Decidable (_ ∧ _))

def FieldRef.Printable (r : FieldRef) : Prop :=
  r.declaring.Printable ∧ Quotable r.name ∧ r.type.Printable

instance (r : FieldRef) : Decidable r.Printable :=
  inferInstanceAs (Decidable (_ ∧ _))

/-- What an operand names is printable; a string may hold anything. -/
def Operand.Printable : Operand → Prop
  | .method ref => ref.Printable
  | .field ref => ref.Printable
  | .type sig => sig.Printable
  | _ => True

instance : (o : Operand) → Decidable o.Printable
  | .method ref => inferInstanceAs (Decidable ref.Printable)
  | .field ref => inferInstanceAs (Decidable ref.Printable)
  | .type sig => inferInstanceAs (Decidable sig.Printable)
  | .empty | .int32 _ | .int64 _ | .float _ | .string _ | .arg _ | .loc _ | .target _
  | .targets _ | .raw _ => inferInstanceAs (Decidable True)

/-- The operand has the shape that the opcode asks for, and it is neither a float nor unread. -/
def Instruction.Printable (i : Instruction) : Prop :=
  i.operand.kind = i.opcode.operandKind ∧ i.opcode.operandKind ∉ [.float, .raw] ∧
    i.operand.Printable

instance (i : Instruction) : Decidable i.Printable :=
  inferInstanceAs (Decidable (_ ∧ _))

def MethodBody.Printable (b : MethodBody) : Prop :=
  (∀ s ∈ b.locals, s.Printable) ∧ ∀ i ∈ b.instructions, i.Printable

instance (b : MethodBody) : Decidable b.Printable :=
  inferInstanceAs (Decidable (_ ∧ _))

def FieldDef.Printable (f : FieldDef) : Prop :=
  Quotable f.name ∧ f.type.Printable

instance (f : FieldDef) : Decidable f.Printable :=
  inferInstanceAs (Decidable (_ ∧ _))

def Param.Printable (p : Param) : Prop :=
  (∀ name ∈ p.name, Quotable name) ∧ p.type.Printable

instance (p : Param) : Decidable p.Printable :=
  inferInstanceAs (Decidable (_ ∧ _))

def MethodDef.Printable (m : MethodDef) : Prop :=
  Quotable m.name ∧ m.result.Printable ∧ (∀ p ∈ m.params, p.Printable) ∧
    ∀ b ∈ m.body, b.Printable

instance (m : MethodDef) : Decidable m.Printable :=
  inferInstanceAs (Decidable (_ ∧ _))

/-- A type is defined without an assembly, and under a name that is not taken for an attribute. -/
def TypeDef.Printable (t : TypeDef) : Prop :=
  t.name.assembly = none ∧ t.name.fullName ∉ classWords ∧ t.name.Printable ∧
    (∀ f ∈ t.fields, f.Printable) ∧ ∀ m ∈ t.methods, m.Printable

instance (t : TypeDef) : Decidable t.Printable :=
  inferInstanceAs (Decidable (_ ∧ _))

def Assembly.Printable (a : Assembly) : Prop :=
  a.name ≠ "extern" ∧ Quotable a.name ∧ ∀ t ∈ a.types, t.Printable

instance (a : Assembly) : Decidable a.Printable :=
  inferInstanceAs (Decidable (_ ∧ _))

/-! ## Everything printable is well spelled -/

namespace Listing

/-- The lexer takes all of these pieces as they are written. -/
def Spelled (ps : List Piece) : Prop :=
  ∀ p ∈ ps, p.WellFormed

@[simp] theorem spelled_nil : Spelled [] := by
  intro p hp
  cases hp

@[simp] theorem spelled_cons {p : Piece} {ps : List Piece} :
    Spelled (p :: ps) ↔ p.WellFormed ∧ Spelled ps :=
  List.forall_mem_cons

@[simp] theorem spelled_append {ps qs : List Piece} :
    Spelled (ps ++ qs) ↔ Spelled ps ∧ Spelled qs :=
  List.forall_mem_append

theorem spelled_flatMap {α : Type} {f : α → List Piece} {xs : List α}
    (h : ∀ x ∈ xs, Spelled (f x)) : Spelled (xs.flatMap f) := by
  intro p hp
  obtain ⟨x, hx, hp⟩ := List.mem_flatMap.1 hp
  exact h x hx p hp

theorem spelled_chosen {flags : List (Bool × String)}
    (h : ∀ flag ∈ flags, isWord flag.2 = true) : Spelled ((chosen flags).map .word) := by
  intro p hp
  obtain ⟨word, hword, rfl⟩ := List.mem_map.1 hp
  obtain ⟨flag, hflag, hchosen⟩ := List.mem_filterMap.1 hword
  obtain ⟨-, heq⟩ := Option.ite_none_right_eq_some.1 hchosen
  cases heq
  exact h flag hflag

theorem spelled_parens {α : Type} {f : α → List Piece} {xs : List α}
    (h : ∀ x ∈ xs, Spelled (f x)) : Spelled (parens (xs.map f)) := by
  have hrows : Spelled (List.intercalate [.punct ','] (xs.map f)) := by
    induction xs with
    | nil => exact spelled_nil
    | cons x xs ih =>
      have hx := h x (.head _)
      have ih := ih fun y hy => h y (.tail _ hy)
      cases xs with
      | nil => simpa using hx
      | cons y xs =>
        rw [List.map_cons, List.map_cons, List.intercalate_cons_cons]
        simp +decide [hx, ← List.map_cons, ih]
  simp +decide [parens, hrows]

end Listing

theorem TypeName.quotable_fullName {t : TypeName} (h : t.Printable) : Quotable t.fullName := by
  obtain ⟨-, hqualifier, hname, -⟩ := h
  unfold fullName
  split
  · exact hname
  · simp [Quotable, hqualifier.1, hqualifier.2, hname.1, hname.2]

theorem TypeName.spelled {t : TypeName} (h : t.Printable) : Spelled t.pieces := by
  have hname : Quotable t.fullName := t.quotable_fullName h
  unfold pieces
  split
  · next assembly hassembly =>
    have hquote : Quotable assembly := h.1 assembly hassembly
    simp +decide [hquote, hname]
  · simpa using hname

theorem TypeSig.spelled {s : TypeSig} (h : s.Printable) : Spelled s.pieces := by
  induction s with
  | array element ih =>
    have helement : Spelled element.pieces := ih h
    simpa [pieces] using helement
  | classType name | valueType name =>
    have hname : Spelled name.pieces := name.spelled (h name (.head _))
    simp +decide [pieces, hname]
  | _ => simp +decide [pieces]

theorem MethodRef.spelled {r : MethodRef} (h : r.Printable) : Spelled r.pieces := by
  obtain ⟨hdeclaring, hname, hresult, hparams⟩ := h
  have hthis : Spelled ((chosen [(r.hasThis, "instance")]).map .word) :=
    spelled_chosen (by simp +decide)
  have hp : Spelled (parens (r.params.map TypeSig.pieces)) :=
    spelled_parens fun p hp => p.spelled (hparams p hp)
  simp [pieces, hthis, r.result.spelled hresult, r.declaring.spelled hdeclaring, hname, hp]

theorem FieldRef.spelled {r : FieldRef} (h : r.Printable) : Spelled r.pieces := by
  obtain ⟨hdeclaring, hname, htype⟩ := h
  simp [pieces, r.type.spelled htype, r.declaring.spelled hdeclaring, hname]

theorem Operand.spelled {o : Operand} (h : o.Printable) : Spelled o.pieces := by
  cases o with
  | targets offsets => exact spelled_parens (by simp)
  | method ref => exact ref.spelled h
  | field ref => exact ref.spelled h
  | type sig => exact sig.spelled h
  | _ => simp [pieces]

theorem Opcode.mem_all (op : Opcode) : op ∈ Opcode.all := by
  -- The list follows the order of the declaration.
  have h : Opcode.all[op.ctorIdx]? = some op := by
    cases op <;> rfl
  exact List.mem_of_getElem? h

theorem Opcode.isWord_mnemonic (op : Opcode) : isWord op.mnemonic = true := by
  have hall : ∀ op ∈ Opcode.all, isWord op.mnemonic = true := by
    decide +kernel
  exact hall op op.mem_all

theorem Instruction.spelled {i : Instruction} (h : i.Printable) : Spelled i.pieces := by
  simp [pieces, i.opcode.isWord_mnemonic, i.operand.spelled h.2.2]

theorem ExceptionRegion.spelled (r : ExceptionRegion) : Spelled r.pieces := by
  simp +decide [pieces]

theorem MethodBody.spelled {b : MethodBody} (h : b.Printable) : Spelled b.pieces := by
  obtain ⟨hlocals, hinstructions⟩ := h
  have hl : Spelled (parens (b.locals.map TypeSig.pieces)) :=
    spelled_parens fun s hs => s.spelled (hlocals s hs)
  have hr : Spelled (b.regions.flatMap ExceptionRegion.pieces) :=
    spelled_flatMap fun r _ => r.spelled
  have hi : Spelled (b.instructions.flatMap Instruction.pieces) :=
    spelled_flatMap fun i hi => i.spelled (hinstructions i hi)
  simp +decide [pieces, hl, hr, hi]

theorem FieldDef.spelled {f : FieldDef} (h : f.Printable) : Spelled f.pieces := by
  obtain ⟨hname, htype⟩ := h
  have hstatic : Spelled ((chosen [(f.isStatic, "static")]).map .word) :=
    spelled_chosen (by simp +decide)
  cases hoffset : f.offset with
  | none => simp +decide [pieces, hoffset, hstatic, f.type.spelled htype, hname]
  | some offset => simp +decide [pieces, hoffset, hstatic, f.type.spelled htype, hname]

theorem Param.spelled {p : Param} (h : p.Printable) : Spelled p.pieces := by
  obtain ⟨hname, htype⟩ := h
  cases hp : p.name with
  | none => simp [pieces, hp, p.type.spelled htype]
  | some name =>
    have hquote : Quotable name := hname name hp
    simp [pieces, hp, p.type.spelled htype, hquote]

theorem MethodDef.spelled {m : MethodDef} (h : m.Printable) : Spelled m.pieces := by
  obtain ⟨hname, hresult, hparams, hbody⟩ := h
  have hwords : Spelled (m.words.map .word) := spelled_chosen (by simp +decide)
  have hp : Spelled (parens (m.params.map Param.pieces)) :=
    spelled_parens fun p hp => p.spelled (hparams p hp)
  have hb : Spelled (m.body.toList.flatMap MethodBody.pieces) :=
    spelled_flatMap fun b hb => b.spelled (hbody b (Option.mem_toList.1 hb))
  simp +decide [pieces, hwords, m.result.spelled hresult, hname, hp, hb]

theorem TypeDef.spelled {t : TypeDef} (h : t.Printable) : Spelled t.pieces := by
  obtain ⟨-, -, hname, hfields, hmethods⟩ := h
  have hwords : Spelled (t.words.map .word) := spelled_chosen (by simp +decide)
  have hquote : Quotable t.name.fullName := t.name.quotable_fullName hname
  have hf : Spelled (t.fields.flatMap FieldDef.pieces) :=
    spelled_flatMap fun f hf => f.spelled (hfields f hf)
  have hm : Spelled (t.methods.flatMap MethodDef.pieces) :=
    spelled_flatMap fun m hm => m.spelled (hmethods m hm)
  simp +decide [pieces, hwords, hquote, hf, hm]

theorem Assembly.spelled {a : Assembly} (h : a.Printable) : Spelled a.pieces := by
  obtain ⟨-, hname, htypes⟩ := h
  have ht : Spelled (a.types.flatMap TypeDef.pieces) :=
    spelled_flatMap fun t ht => t.spelled (htypes t ht)
  simp +decide [pieces, hname, ht]

end CilCompiler
