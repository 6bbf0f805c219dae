import CilCompiler.Wasm.Binary

/-!
# Reading the binary form

A reader of the binary format, after the rules of the format and not after the functions that write
it: a number may take more groups than it needs, as long as they fit its width, and whatever stands
behind a size has to fill it.

* `Decoder` takes a value off the front of some bytes, or refuses them.
* `Decode.unsigned` and `Decode.signed` read numbers of a given width, `Decode.vector` counted lists
  and `Decode.within` what stands behind its size; `Decode.operator` reads an operator.
* `Decodes` says that a decoder reads a value from certain bytes, whatever stands behind them. It
  is proved of every way to write a value, from numbers up to operators and bodies.
-/

namespace CilCompiler.Wasm

/-- Takes a value off the front of some bytes, or refuses them. -/
abbrev Decoder := StateT Bytes Option

/-- The decoder reads `x` from `bytes` and leaves what stands behind them. -/
def Decodes {α : Type} (d : Decoder α) (bytes : Bytes) (x : α) : Prop :=
  ∀ rest, d (bytes ++ rest) = some (x, rest)

section Combination

variable {α β : Type} {d : Decoder α} {f : α → Decoder β} {bytes bytes' : Bytes} {x : α} {y : β}

theorem Decodes.pure (x : α) : Decodes (pure x) [] x := by
  intro rest
  rfl

theorem Decodes.bind_apply (h : Decodes d bytes x) (rest : Bytes) :
    (d >>= f) (bytes ++ rest) = f x rest := by
  have hrun : (d >>= f) (bytes ++ rest) = (d (bytes ++ rest)).bind fun p => f p.1 p.2 := rfl
  rw [hrun, h rest]
  rfl

theorem Decodes.bind (h : Decodes d bytes x) (h' : Decodes (f x) bytes' y) :
    Decodes (d >>= f) (bytes ++ bytes') y := by
  intro rest
  rw [List.append_assoc, h.bind_apply]
  exact h' rest

/-- What follows may look at the value without reading on. -/
theorem Decodes.bind_nil (h : Decodes d bytes x) (h' : Decodes (f x) [] y) :
    Decodes (d >>= f) bytes y := by
  have hbind := h.bind h'
  rwa [List.append_nil] at hbind

theorem Decodes.map (g : α → β) (h : Decodes d bytes x) :
    Decodes (d >>= fun a => Pure.pure (g a)) bytes (g x) :=
  h.bind_nil (Decodes.pure (g x))

end Combination

/-- Whether the numbers in an operator have thirty-two bits. -/
def Op.InBounds : Op → Prop
  | .br n | .brIf n | .call n | .localGet n | .localSet n | .globalGet n => n < UInt32.size
  | .brTable labels otherwise =>
    labels.length < UInt32.size ∧ (∀ label ∈ labels, label < UInt32.size) ∧ otherwise < UInt32.size
  | _ => True

namespace Decode

/-! ## Bytes -/

def byte : Decoder UInt8
  | [] => none
  | b :: bytes => some (b, bytes)

/-- The byte `expected`, and no other. -/
def exactly (expected : UInt8) : Decoder Unit := do
  let b ← byte
  if b = expected then return ()
  else failure

/-- That many bytes. -/
def block (size : Nat) : Decoder Bytes := fun bytes =>
  if size ≤ bytes.length then some (bytes.take size, bytes.drop size) else none

/-- Reads all of `bytes`. -/
def whole {α : Type} (d : Decoder α) (bytes : Bytes) : Option α :=
  match d bytes with
  | some (x, []) => some x
  | _ => none

theorem decodes_byte (b : UInt8) : Decodes byte [b] b := by
  intro rest
  rfl

theorem decodes_exactly (b : UInt8) : Decodes (exactly b) [b] () := by
  intro rest
  have hrun : exactly b ([b] ++ rest) = (if b = b then Pure.pure () else failure : Decoder Unit) rest :=
    rfl
  rw [hrun, if_pos rfl]
  rfl

theorem decodes_block (bytes : Bytes) : Decodes (block bytes.length) bytes bytes := by
  intro rest
  simp [block]

theorem whole_of_decodes {α : Type} {d : Decoder α} {bytes : Bytes} {x : α}
    (h : Decodes d bytes x) : whole d bytes = some x := by
  have hall := h []
  rw [List.append_nil] at hall
  simp [whole, hall]

/-! ## Numbers -/

/-- A natural number of at most `bits` bits, in groups of seven bits. -/
def unsigned (bits : Nat) : Decoder Nat
  | [] => none
  | b :: bytes =>
    if b.toNat < 128 then
      if b.toNat < 1 <<< bits then some (b.toNat, bytes) else none
    else if 7 < bits then
      (unsigned (bits - 7) bytes).map fun (n, rest) => (128 * n + (b.toNat - 128), rest)
    else none

/-- An integer of at most `bits` bits in two's complement, in groups of seven bits. -/
def signed (bits : Nat) : Decoder Int
  | [] => none
  | b :: bytes =>
    if b.toNat < 64 then
      if b.toNat < 1 <<< (bits - 1) then some (b.toNat, bytes) else none
    else if b.toNat < 128 then
      if 128 - b.toNat ≤ 1 <<< (bits - 1) then some ((b.toNat : Int) - 128, bytes) else none
    else if 7 < bits then
      (signed (bits - 7) bytes).map fun (n, rest) => (128 * n + ((b.toNat : Int) - 128), rest)
    else none

/-- An index, a count or a size. -/
def index : Decoder Nat := unsigned 32

theorem toNat_toUInt8 {n : Nat} (h : n < 256) : n.toUInt8.toNat = n := by
  simp [Nat.mod_eq_of_lt h]

theorem one_shiftLeft_add_seven (k : Nat) : 1 <<< (k + 7) = 128 * 1 <<< k := by
  rw [Nat.shiftLeft_add, Nat.shiftLeft_eq (1 <<< k), Nat.mul_comm]

/-- A width that exceeds `k` bits is one of the widths above `k`. -/
theorem lt_of_one_shiftLeft_lt {k bits : Nat} (h : 1 <<< k < 1 <<< bits) : k < bits := by
  rw [Nat.one_shiftLeft, Nat.one_shiftLeft] at h
  exact (Nat.pow_lt_pow_iff_right (by decide)).1 h

/-- A number is read back at every width that it fits. -/
theorem decodes_unsigned {bits n : Nat} (h : n < 1 <<< bits) :
    Decodes (unsigned bits) (Wasm.unsigned n) n := by
  intro rest
  induction n using Wasm.unsigned.induct generalizing bits with
  | case1 n hsmall =>
      have hbyte := toNat_toUInt8 (n := n) (by omega)
      rw [Wasm.unsigned, if_pos hsmall]
      simp only [List.cons_append, List.nil_append, unsigned, hbyte, if_pos hsmall, if_pos h]
  | case2 n hlarge ih =>
      have hbyte := toNat_toUInt8 (n := n % 128 + 128) (by omega)
      -- a number of more than one group is wider than a group, and the groups behind the first
      -- one are a number of seven bits less
      have hwide : 7 < bits := by
        apply lt_of_one_shiftLeft_lt
        omega
      have hrest : n / 128 < 1 <<< (bits - 7) := by
        have hsplit := one_shiftLeft_add_seven (bits - 7)
        rw [Nat.sub_add_cancel (Nat.le_of_lt hwide)] at hsplit
        omega
      rw [Wasm.unsigned, if_neg hlarge, List.cons_append, unsigned, hbyte,
        if_neg (by omega), if_pos hwide, ih hrest]
      simp only [Option.map_some, Option.some.injEq, Prod.mk.injEq, and_true]
      omega

/-- An integer is read back at every width that it fits. -/
theorem decodes_signed {bits : Nat} {n : Int} (hlow : -(1 <<< (bits - 1) : Nat) ≤ n)
    (hhigh : n < (1 <<< (bits - 1) : Nat)) : Decodes (signed bits) (Wasm.signed n) n := by
  intro rest
  induction n using Wasm.signed.induct generalizing bits with
  | case1 n hsmall =>
      have hbyte := toNat_toUInt8 (n := (n % 128).toNat) (by omega)
      rw [Wasm.signed, if_pos hsmall, List.cons_append, List.nil_append, signed, hbyte]
      -- bit six of the group tells the sign
      by_cases hsign : 0 ≤ n
      · rw [if_pos (by omega), if_pos (by omega)]
        simp only [Option.some.injEq, Prod.mk.injEq, and_true]
        omega
      · rw [if_neg (by omega), if_pos (by omega), if_pos (by omega)]
        simp only [Option.some.injEq, Prod.mk.injEq, and_true]
        omega
  | case2 n hlarge ih =>
      have hbyte := toNat_toUInt8 (n := (n % 128).toNat + 128) (by omega)
      have hwide : 6 < bits - 1 := by
        apply lt_of_one_shiftLeft_lt
        omega
      have hsplit := one_shiftLeft_add_seven (bits - 7 - 1)
      rw [show bits - 7 - 1 + 7 = bits - 1 by omega] at hsplit
      rw [Wasm.signed, if_neg hlarge, List.cons_append, signed, hbyte, if_neg (by omega),
        if_neg (by omega), if_pos (by omega), ih (by omega) (by omega)]
      simp only [Option.map_some, Option.some.injEq, Prod.mk.injEq, and_true]
      omega

theorem decodes_index {n : Nat} (h : n < UInt32.size) : Decodes index (Wasm.unsigned n) n :=
  decodes_unsigned h

/-! ## Lists and sizes -/

section Lists

variable {α β : Type} {d : Decoder α}

def times (d : Decoder α) : Nat → Decoder (List α)
  | 0 => return []
  | n + 1 => do
    let x ← d
    return x :: (← times d n)

/-- A counted list. -/
def vector (d : Decoder α) : Decoder (List α) := do
  let count ← index
  times d count

/-- What stands behind its size, and fills it. -/
def within (d : Decoder α) : Decoder α := do
  let size ← index
  let content ← block size
  match whole d content with
  | some x => return x
  | none => failure

/-- Items up to the end of the bytes. An item has to take at least one byte. -/
def toEnd (d : Decoder α) : Bytes → Option (List α)
  | [] => some []
  | b :: bytes =>
    match d (b :: bytes) with
    | some (x, rest) =>
      if rest.length ≤ bytes.length then (toEnd d rest).map (x :: ·) else none
    | none => none
termination_by bytes => bytes.length

/-- A name in UTF-8. -/
def name : Decoder String := do
  let size ← index
  let bytes ← block size
  match String.fromUTF8? ⟨bytes.toArray⟩ with
  | some text => return text
  | none => failure

variable {write : β → Bytes} {value : β → α} {ys : List β}

theorem decodes_times (h : ∀ y ∈ ys, Decodes d (write y) (value y)) :
    Decodes (times d ys.length) (ys.flatMap write) (ys.map value) := by
  induction ys with
  | nil =>
      exact Decodes.pure []
  | cons y ys ih =>
      have hrest := ih fun y' hy' => h y' (by simp [hy'])
      exact (h y (by simp)).bind (hrest.map (value y :: ·))

theorem decodes_vector (hcount : ys.length < UInt32.size)
    (h : ∀ y ∈ ys, Decodes d (write y) (value y)) :
    Decodes (vector d) (sequence write ys) (ys.map value) :=
  (decodes_index hcount).bind (decodes_times h)

theorem decodes_within {content : Bytes} {x : α} (hsize : content.length < UInt32.size)
    (h : whole d content = some x) : Decodes (within d) (sized content) x := by
  refine (decodes_index hsize).bind ((decodes_block content).bind_nil ?_)
  rw [h]
  exact Decodes.pure x

theorem toEnd_nil : toEnd d [] = some [] := by
  rw [toEnd]

/-- One round of reading to the end. -/
theorem toEnd_append {bytes rest : Bytes} {x : α} {xs : List α} (h : Decodes d bytes x)
    (hne : bytes ≠ []) (hrest : toEnd d rest = some xs) :
    toEnd d (bytes ++ rest) = some (x :: xs) := by
  rcases List.exists_cons_of_ne_nil hne with ⟨b, bytes, rfl⟩
  have hread : d (b :: (bytes ++ rest)) = some (x, rest) := h rest
  rw [List.cons_append, toEnd]
  simp [hread, hrest]

theorem toEnd_flatMap (h : ∀ y ∈ ys, Decodes d (write y) (value y))
    (hne : ∀ y ∈ ys, write y ≠ []) : toEnd d (ys.flatMap write) = some (ys.map value) := by
  induction ys with
  | nil =>
      exact toEnd_nil
  | cons y ys ih =>
      have hrest := ih (fun y' hy' => h y' (by simp [hy'])) fun y' hy' => hne y' (by simp [hy'])
      exact toEnd_append (h y (by simp)) (hne y (by simp)) hrest

theorem decodes_name {text : String} (hsize : text.utf8ByteSize < UInt32.size) :
    Decodes name (nameBytes text) text := by
  refine (decodes_index ?_).bind ((decodes_block _).bind_nil ?_)
  · exact hsize
  · have hbytes : (⟨text.toUTF8.data.toList.toArray⟩ : ByteArray) = text.toUTF8 := by simp
    have htext : String.fromUTF8? text.toUTF8 = some text := dif_pos text.isValidUTF8
    rw [hbytes, htext]
    exact Decodes.pure text

end Lists

/-! ## Operators -/

def valueKind : Decoder ValueKind := do
  let b ← byte
  match b.toNat with
  | 0x7f => return .i32
  | 0x7e => return .i64
  | 0x7d => return .f32
  | 0x7c => return .f64
  | _ => failure

/-- The operators on two words, by their numbers. -/
def binary? : Nat → Option BinOp
  | 0x46 => some .eq
  | 0x47 => some .ne
  | 0x48 => some .ltS
  | 0x49 => some .ltU
  | 0x4a => some .gtS
  | 0x4b => some .gtU
  | 0x4c => some .leS
  | 0x4d => some .leU
  | 0x4e => some .geS
  | 0x4f => some .geU
  | 0x6a => some .add
  | 0x6b => some .sub
  | 0x6c => some .mul
  | 0x6d => some .divS
  | 0x6e => some .divU
  | 0x6f => some .remS
  | 0x70 => some .remU
  | 0x71 => some .and
  | 0x72 => some .or
  | 0x73 => some .xor
  | 0x74 => some .shl
  | 0x75 => some .shrS
  | 0x76 => some .shrU
  | _ => none

/-- The offset of an access to a word that is aligned to four bytes. -/
def memoryOffset : Decoder UInt32 := do
  let alignment ← index
  if alignment = 2 then return (← index).toUInt32
  else failure

/-- What stands behind the number of an operator. Regions have the empty type. -/
def operatorAfter : Nat → Decoder Op
  | 0x00 => return .unreachable
  | 0x02 => do
    exactly 0x40
    return .block
  | 0x03 => do
    exactly 0x40
    return .loop
  | 0x0b => return .close
  | 0x0c => return .br (← index)
  | 0x0d => return .brIf (← index)
  | 0x0e => do
    let labels ← vector index
    return .brTable labels (← index)
  | 0x0f => return .ret
  | 0x10 => return .call (← index)
  | 0x1a => return .drop
  | 0x20 => return .localGet (← index)
  | 0x21 => return .localSet (← index)
  | 0x23 => return .globalGet (← index)
  | 0x28 => return .load (← memoryOffset)
  | 0x36 => return .store (← memoryOffset)
  | 0x41 => return .const (Int32.ofInt (← signed 32))
  | 0x45 => return .eqz
  | 0xc0 => return .extend8
  | 0xc1 => return .extend16
  | number =>
    match binary? number with
    | some op => return .bin op
    | none => failure

def operator : Decoder Op := do
  let b ← byte
  operatorAfter b.toNat

theorem decodes_valueKind (kind : ValueKind) : Decodes valueKind [kind.byte] kind := by
  cases kind <;> exact fun _ => rfl

theorem decodes_memoryOffset (offset : UInt32) :
    Decodes memoryOffset (0x02 :: Wasm.unsigned offset.toNat) offset := by
  have htwo : Decodes index [0x02] 2 := fun _ => rfl
  have hread := (decodes_index offset.toNat_lt).map Nat.toUInt32
  have hsame : offset.toNat.toUInt32 = offset := by simp
  rw [hsame] at hread
  exact htwo.bind hread

theorem decodes_operator {op : Op} (h : op.InBounds) : Decodes operator op.bytes op := by
  cases op with
  | br n | brIf n | call n | localGet n | localSet n | globalGet n =>
      exact (decodes_byte _).bind ((decodes_index h).map _)
  | brTable labels otherwise =>
      rcases h with ⟨hcount, hlabels, hotherwise⟩
      have hvector : Decodes (vector index) (sequence Wasm.unsigned labels) (labels.map id) :=
        decodes_vector hcount fun label hlabel => decodes_index (hlabels label hlabel)
      rw [List.map_id] at hvector
      exact (decodes_byte 0x0e).bind (hvector.bind ((decodes_index hotherwise).map _))
  | load offset | store offset =>
      exact (decodes_byte _).bind ((decodes_memoryOffset offset).map _)
  | const value =>
      have hlow := value.le_toInt
      have hhigh := value.toInt_lt
      have hread : Decodes (signed 32) (Wasm.signed value.toInt) value.toInt :=
        decodes_signed hlow hhigh
      have hmap := hread.map fun n => Op.const (Int32.ofInt n)
      rw [Int32.ofInt_toInt] at hmap
      exact (decodes_byte 0x41).bind hmap
  | bin op =>
      cases op <;> exact fun _ => rfl
  | _ =>
      exact fun _ => rfl

theorem bytes_ne_nil (op : Op) : op.bytes ≠ [] := by
  cases op <;> simp [Op.bytes]

/-! ## Bodies -/

/-- A run of locals of one kind. -/
def run : Decoder (Nat × ValueKind) := do
  let count ← index
  return (count, ← valueKind)

/-- The locals of a body, run by run. A body has fewer than `UInt32.size` of them. -/
def locals : Decoder (List ValueKind) := do
  let groups ← vector run
  let kinds := groups.flatMap fun (count, kind) => List.replicate count kind
  if kinds.length < UInt32.size then return kinds
  else failure

/-- A body: its locals, and operators up to its end. -/
def body (bytes : Bytes) : Option (List ValueKind × List Op) := do
  let (kinds, rest) ← locals bytes
  let ops ← toEnd operator rest
  return (kinds, ops)

/-- Runs stand for the list that they were taken from. -/
theorem flatMap_runs (kinds : List ValueKind) :
    (runs kinds).flatMap (fun (count, kind) => List.replicate count kind) = kinds := by
  induction kinds with
  | nil =>
      rfl
  | cons kind kinds ih =>
      rw [runs]
      -- the new kind lengthens the first run, or is a run of its own
      split
      · next count next rest hruns =>
          rw [hruns] at ih
          split
          · next hsame =>
              rw [hsame]
              exact congrArg (next :: ·) ih
          · exact congrArg (kind :: ·) ih
      · next hruns =>
          rw [hruns] at ih
          exact congrArg (kind :: ·) ih

theorem count_le_of_mem_runs {kinds : List ValueKind} {group : Nat × ValueKind}
    (h : group ∈ runs kinds) : group.1 ≤ kinds.length := by
  have hmem : List.replicate group.1 group.2 ∈
      (runs kinds).map fun (count, kind) => List.replicate count kind :=
    List.mem_map_of_mem h
  have hsub := List.sublist_flatten_of_mem hmem
  rw [← List.flatMap_def, flatMap_runs] at hsub
  simpa using hsub.length_le

theorem length_runs_le (kinds : List ValueKind) : (runs kinds).length ≤ kinds.length := by
  induction kinds with
  | nil =>
      exact Nat.le_refl 0
  | cons kind kinds ih =>
      rw [runs]
      split
      · next hruns =>
          rw [hruns] at ih
          split <;> simp at ih ⊢ <;> omega
      · simp

theorem decodes_locals {kinds : List ValueKind} (hcount : kinds.length < UInt32.size) :
    Decodes locals (sequence (fun (count, kind) => Wasm.unsigned count ++ [kind.byte]) (runs kinds))
      kinds := by
  have hrun : ∀ group ∈ runs kinds, Decodes run (Wasm.unsigned group.1 ++ [group.2.byte]) group := by
    intro group hgroup
    have hfits := Nat.lt_of_le_of_lt (count_le_of_mem_runs hgroup) hcount
    exact (decodes_index hfits).bind ((decodes_valueKind group.2).map _)
  have hgroups := Nat.lt_of_le_of_lt (length_runs_le kinds) hcount
  refine (decodes_vector hgroups hrun).bind_nil ?_
  rw [List.map_id', flatMap_runs, if_pos hcount]
  exact Decodes.pure kinds

theorem body_bodyBytes {kinds : List ValueKind} {ops : List Op} (hcount : kinds.length < UInt32.size)
    (hops : ∀ op ∈ ops, op.InBounds) : body (bodyBytes kinds ops) = some (kinds, ops) := by
  have hread : toEnd operator (ops.flatMap Op.bytes) = some (ops.map id) :=
    toEnd_flatMap (fun op hop => decodes_operator (hops op hop)) fun op _ => bytes_ne_nil op
  rw [List.map_id] at hread
  simp [body, bodyBytes, decodes_locals hcount _, hread]

end Decode

end CilCompiler.Wasm
