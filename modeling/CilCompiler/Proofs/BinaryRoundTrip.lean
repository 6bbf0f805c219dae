import CilCompiler.Image.Binary
import CilCompiler.Image.Validation
import CilCompiler.Proofs.BinaryReader

/-!
# Reading back a written module

A reader for whole modules, and the proof that it gives back what an image holds.

* `Wasm.Section` is what a section of a module says, without the way in which it is written.
* `Wasm.decode` reads a module section by section. Each section fills its size, and the sections
  stand in ascending order.
* `Image.InBounds` says that the numbers of an image fit the fields of the format: counts, indices
  and sizes have thirty-two bits, the size of the memory has sixty-four.
* `Image.decode_encode` says that nothing of an image is lost or moved.
-/

namespace CilCompiler

namespace Wasm

/-- What can be imported. -/
inductive Item where
  | function (type : Nat)
  | memory (minimum : Nat) (maximum : Option Nat)
  | global (kind : ValueKind) (isMutable : Bool)
  deriving DecidableEq

/-- What stands behind the names of an import. -/
def Item.bytes : Item → Bytes
  | .function type => 0x00 :: unsigned type
  | .memory minimum none => 0x02 :: 0x00 :: unsigned minimum
  | .memory minimum (some maximum) => 0x02 :: 0x01 :: (unsigned minimum ++ unsigned maximum)
  | .global kind isMutable => [0x03, kind.byte, if isMutable then 0x01 else 0x00]

/-- Whether the numbers in an item fit the format. -/
def Item.InBounds : Item → Prop
  | .function type => type < UInt32.size
  | .memory minimum maximum => minimum < UInt64.size ∧ ∀ pages ∈ maximum, pages < UInt64.size
  | .global _ _ => True

structure Import where
  module : String
  name : String
  item : Item
  deriving DecidableEq

/-- A section of a module. -/
inductive Section where
  | types (signatures : List Signature)
  | imports (entries : List Import)
  | functions (types : List Nat)
  /-- Exported functions, with their names. -/
  | exports (entries : List (String × Nat))
  /-- The locals and the operators of each function. -/
  | code (bodies : List (List ValueKind × List Op))
  deriving DecidableEq

/-- The number that stands in front of a section. -/
def Section.number : Section → Nat
  | .types _ => 1
  | .imports _ => 2
  | .functions _ => 3
  | .exports _ => 7
  | .code _ => 10

namespace Decode

/-! ## Entries of sections -/

/-- The type of a function with at most one result. -/
def signature : Decoder Signature := do
  exactly 0x60
  let params ← vector valueKind
  let results ← vector valueKind
  match results with
  | [] => return ⟨params, none⟩
  | [result] => return ⟨params, some result⟩
  | _ => failure

def flag : Decoder Bool := do
  let b ← byte
  match b.toNat with
  | 0 => return false
  | 1 => return true
  | _ => failure

/-- The size of a memory in pages, which may be bounded above. -/
def memory : Decoder Item := do
  let bounded ← flag
  let minimum ← unsigned 64
  if bounded then return .memory minimum (some (← unsigned 64))
  else return .memory minimum none

def item : Decoder Item := do
  let b ← byte
  match b.toNat with
  | 0x00 => return .function (← index)
  | 0x02 => memory
  | 0x03 => do
    let kind ← valueKind
    return .global kind (← flag)
  | _ => failure

def importEntry : Decoder Import := do
  let module ← name
  let field ← name
  return ⟨module, field, ← item⟩

/-- An exported function. -/
def exportEntry : Decoder (String × Nat) := do
  let field ← name
  exactly 0x00
  return (field, ← index)

/-- A body behind its size. -/
def code : Decoder (List ValueKind × List Op) := do
  let size ← index
  let content ← block size
  match body content with
  | some entry => return entry
  | none => failure

/-! ## Sections -/

/-- What stands behind the number of a section. -/
def sectionAfter : Nat → Decoder Section
  | 1 => return .types (← within (vector signature))
  | 2 => return .imports (← within (vector importEntry))
  | 3 => return .functions (← within (vector index))
  | 7 => return .exports (← within (vector exportEntry))
  | 10 => return .code (← within (vector code))
  | _ => failure

def anySection : Decoder Section := do
  let b ← byte
  sectionAfter b.toNat

/-- The magic number `\0asm` and version one. -/
def preamble : Decoder Unit := do
  let bytes ← block 8
  if bytes = [0x00, 0x61, 0x73, 0x6d, 0x01, 0x00, 0x00, 0x00] then return ()
  else failure

end Decode

/-- Reads a module. No section stands twice or in front of a smaller one. -/
def decode (bytes : Bytes) : Option (List Section) := do
  let (_, rest) ← Decode.preamble bytes
  let sections ← Decode.toEnd Decode.anySection rest
  if (sections.map Section.number).Pairwise (· < ·) then return sections
  else none

end Wasm

namespace Image

open Wasm

/-! ## What an image holds -/

/-- The imports of an image: the memory, the functions and the globals. -/
def importEntries (image : Image) : List Import :=
  ⟨image.memory.module, image.memory.name, .memory image.memory.minimumPages none⟩ ::
    image.imports.map (fun f => ⟨f.module, f.name, .function f.type⟩) ++
    image.globals.map (fun g => ⟨g.module, g.name, .global .i32 false⟩)

def sections (image : Image) : List Section :=
  [.types image.types, .imports image.importEntries,
    .functions (image.functions.map Definition.type), .exports image.exports,
    .code (image.functions.map fun d => (d.function.locals, d.function.body))]

/-- The contents of the written sections, behind their numbers. -/
def contents (image : Image) : List (UInt8 × Bytes) :=
  [(1, sequence signatureBytes image.types),
    (2, sequence (fun (module, name, item) => importBytes module name item) image.imported),
    (3, sequence (fun d => unsigned d.type) image.functions),
    (7, sequence (fun (name, index) => exportBytes name index) image.exports),
    (10, sequence (fun d => sized (bodyBytes d.function.locals d.function.body))
      image.functions)]

theorem encode_eq (image : Image) :
    image.encode = header ++ image.contents.flatMap fun (number, content) =>
      sectionBytes number content := by
  simp [encode, contents]

/-- The numbers of an image fit the fields of the binary format. -/
structure InBounds (image : Image) : Prop where
  types : image.types.length < UInt32.size
  params : ∀ s ∈ image.types, s.params.length < UInt32.size
  pages : image.memory.minimumPages < UInt64.size
  imported : image.imported.length < UInt32.size
  importTypes : ∀ f ∈ image.imports, f.type < UInt32.size
  names : ∀ name ∈ image.names, name.utf8ByteSize < UInt32.size
  functions : image.imports.length + image.functions.length < UInt32.size
  functionTypes : ∀ d ∈ image.functions, d.type < UInt32.size
  locals : ∀ d ∈ image.functions, d.function.locals.length < UInt32.size
  operators : ∀ d ∈ image.functions, ∀ op ∈ d.function.body, op.InBounds
  bodies : ∀ d ∈ image.functions,
    (bodyBytes d.function.locals d.function.body).length < UInt32.size
  contents : ∀ entry ∈ image.contents, entry.2.length < UInt32.size

theorem imported_eq (image : Image) :
    image.imported = image.importEntries.map fun entry =>
      (entry.module, entry.name, entry.item.bytes) := by
  simp [imported, importEntries, Item.bytes, Function.comp_def]

section Entries

open Decode

theorem decodes_kinds {kinds : List ValueKind} (h : kinds.length < UInt32.size) :
    Decodes (vector Decode.valueKind) (sequence (fun kind => [ValueKind.byte kind]) kinds) kinds := by
  have hvector := decodes_vector h fun kind _ => decodes_valueKind kind
  rwa [List.map_id'] at hvector

theorem decodes_signature {s : Signature} (h : s.params.length < UInt32.size) :
    Decodes signature (signatureBytes s) s := by
  rcases s with ⟨params, result⟩
  have hresult : result.toList.length < UInt32.size :=
    Nat.lt_of_le_of_lt Option.length_toList_le (by decide)
  refine (decodes_exactly 0x60).bind ((decodes_kinds h).bind ((decodes_kinds hresult).bind_nil ?_))
  cases result with
  | none => exact Decodes.pure _
  | some kind => exact Decodes.pure _

theorem decodes_flag (b : Bool) : Decodes flag [if b then 0x01 else 0x00] b := by
  cases b <;> exact fun _ => rfl

theorem decodes_item {x : Item} (h : x.InBounds) : Decodes item x.bytes x := by
  cases x with
  | function type =>
      exact (decodes_byte 0x00).bind ((decodes_index h).map _)
  | memory minimum maximum =>
      rcases h with ⟨hminimum, hmaximum⟩
      have hlow : Decodes (Decode.unsigned 64) (unsigned minimum) minimum :=
        decodes_unsigned hminimum
      cases maximum with
      | none =>
          exact (decodes_byte 0x02).bind ((decodes_flag false).bind
            (hlow.bind_nil (Decodes.pure _)))
      | some maximum =>
          have hhigh : Decodes (Decode.unsigned 64) (unsigned maximum) maximum :=
            decodes_unsigned (hmaximum maximum rfl)
          exact (decodes_byte 0x02).bind ((decodes_flag true).bind (hlow.bind (hhigh.map _)))
  | global kind isMutable =>
      exact (decodes_byte 0x03).bind ((decodes_valueKind kind).bind ((decodes_flag isMutable).map _))

theorem decodes_importEntry {entry : Import} (hmodule : entry.module.utf8ByteSize < UInt32.size)
    (hname : entry.name.utf8ByteSize < UInt32.size) (hitem : entry.item.InBounds) :
    Decodes importEntry (importBytes entry.module entry.name entry.item.bytes) entry := by
  unfold importBytes
  rw [List.append_assoc]
  exact (decodes_name hmodule).bind ((decodes_name hname).bind ((decodes_item hitem).map _))

theorem decodes_exportEntry {name : String} {index : Nat}
    (hname : name.utf8ByteSize < UInt32.size) (h : index < UInt32.size) :
    Decodes exportEntry (exportBytes name index) (name, index) :=
  (decodes_name hname).bind ((decodes_exactly 0x00).bind ((decodes_index h).map _))

theorem decodes_code {kinds : List ValueKind} {ops : List Op} (hcount : kinds.length < UInt32.size)
    (hops : ∀ op ∈ ops, op.InBounds) (hsize : (bodyBytes kinds ops).length < UInt32.size) :
    Decodes code (sized (bodyBytes kinds ops)) (kinds, ops) := by
  refine (decodes_index hsize).bind ((decodes_block _).bind_nil ?_)
  rw [body_bodyBytes hcount hops]
  exact Decodes.pure _

/-- A section is read back if its content is read as a counted list of its entries. -/
theorem decodes_section {α : Type} {number : UInt8} {d : Decoder α} {make : List α → Section}
    {content : Bytes} {xs : List α}
    (hafter : sectionAfter number.toNat = (do return make (← within (vector d))))
    (hsize : content.length < UInt32.size) (h : Decodes (vector d) content xs) :
    Decodes anySection (sectionBytes number content) (make xs) := by
  refine (decodes_byte number).bind ?_
  rw [hafter]
  exact (decodes_within hsize (whole_of_decodes h)).map make

end Entries

/-! ## The sections of an image -/

namespace InBounds

variable {image : Image}

theorem decodes_types (h : image.InBounds) :
    Decodes Decode.anySection (sectionBytes 1 (sequence signatureBytes image.types))
      (.types image.types) := by
  have hvector := Decode.decodes_vector h.types fun s hs => decodes_signature (h.params s hs)
  rw [List.map_id'] at hvector
  exact decodes_section rfl (h.contents _ (.head _)) hvector

/-- All imports have names that fit. -/
theorem importEntries (h : image.InBounds) : ∀ entry ∈ image.importEntries,
    entry.module.utf8ByteSize < UInt32.size ∧ entry.name.utf8ByteSize < UInt32.size ∧
      entry.item.InBounds := by
  intro entry hentry
  have hnames := h.names
  simp only [Image.importEntries, List.cons_append, List.mem_cons, List.mem_append,
    List.mem_map] at hentry
  rcases hentry with rfl | ⟨f, hf, rfl⟩ | ⟨g, hg, rfl⟩
  · have hmodule : image.memory.module ∈ image.names := by simp [Image.names]
    have hname : image.memory.name ∈ image.names := by simp [Image.names]
    exact ⟨hnames _ hmodule, hnames _ hname, h.pages, by simp⟩
  · have hboth : ∀ name ∈ [f.module, f.name], name ∈ image.names := by
      intro name hname
      have hflat : name ∈ image.imports.flatMap fun f => [f.module, f.name] :=
        List.mem_flatMap.2 ⟨f, hf, hname⟩
      exact List.mem_append_left _ (List.mem_append_left _ (List.mem_append_right _ hflat))
    exact ⟨hnames _ (hboth _ (by simp)), hnames _ (hboth _ (by simp)), h.importTypes f hf⟩
  · have hboth : ∀ name ∈ [g.module, g.name], name ∈ image.names := by
      intro name hname
      have hflat : name ∈ image.globals.flatMap fun g => [g.module, g.name] :=
        List.mem_flatMap.2 ⟨g, hg, hname⟩
      exact List.mem_append_left _ (List.mem_append_right _ hflat)
    exact ⟨hnames _ (hboth _ (by simp)), hnames _ (hboth _ (by simp)), trivial⟩

theorem decodes_imports (h : image.InBounds) :
    Decodes Decode.anySection
      (sectionBytes 2 (sequence (fun (module, name, item) => importBytes module name item)
        image.imported))
      (.imports image.importEntries) := by
  have hcount : image.importEntries.length < UInt32.size := by
    have hlength := congrArg List.length (imported_eq image)
    rw [List.length_map] at hlength
    exact hlength ▸ h.imported
  have hvector := Decode.decodes_vector hcount fun entry hentry =>
    have hfits := h.importEntries entry hentry
    decodes_importEntry hfits.1 hfits.2.1 hfits.2.2
  rw [List.map_id'] at hvector
  refine decodes_section rfl (h.contents _ (.tail _ (.head _))) ?_
  rw [imported_eq]
  simpa [Wasm.sequence, List.flatMap_map] using hvector

theorem decodes_functions (h : image.InBounds) :
    Decodes Decode.anySection (sectionBytes 3 (sequence (fun d => unsigned d.type) image.functions))
      (.functions (image.functions.map Definition.type)) := by
  have hcount : image.functions.length < UInt32.size := by
    have hfunctions := h.functions
    omega
  have hvector := Decode.decodes_vector hcount fun d hd =>
    Decode.decodes_index (h.functionTypes d hd)
  exact decodes_section rfl (h.contents _ (.tail _ (.tail _ (.head _)))) hvector

/-- An exported index counts functions that the image holds. -/
theorem exports (h : image.InBounds) : ∀ entry ∈ image.exports,
    entry.1.utf8ByteSize < UInt32.size ∧ entry.2 < UInt32.size := by
  intro entry hentry
  have hname : entry.1 ∈ image.names :=
    List.mem_append_right _ (List.mem_map_of_mem hentry)
  refine ⟨h.names _ hname, ?_⟩
  rcases List.mem_filterMap.1 hentry with ⟨⟨d, i⟩, hmem, hexport⟩
  have hlt := List.snd_lt_of_mem_zipIdx hmem
  have hfunctions := h.functions
  simp only [Option.map_eq_some_iff] at hexport
  rcases hexport with ⟨_, _, rfl⟩
  simp only [Nat.add_zero] at hlt ⊢
  omega

theorem decodes_exports (h : image.InBounds) :
    Decodes Decode.anySection
      (sectionBytes 7 (sequence (fun (name, index) => exportBytes name index) image.exports))
      (.exports image.exports) := by
  have hcount : image.exports.length < UInt32.size := by
    have hle : image.exports.length ≤ image.functions.zipIdx.length := List.length_filterMap_le ..
    have hfunctions := h.functions
    rw [List.length_zipIdx] at hle
    omega
  have hvector := Decode.decodes_vector hcount fun entry hentry =>
    decodes_exportEntry (h.exports entry hentry).1 (h.exports entry hentry).2
  rw [List.map_id'] at hvector
  exact decodes_section rfl (h.contents _ (.tail _ (.tail _ (.tail _ (.head _))))) hvector

theorem decodes_bodies (h : image.InBounds) :
    Decodes Decode.anySection
      (sectionBytes 10 (sequence (fun d => sized (bodyBytes d.function.locals d.function.body))
        image.functions))
      (.code (image.functions.map fun d => (d.function.locals, d.function.body))) := by
  have hcount : image.functions.length < UInt32.size := by
    have hfunctions := h.functions
    omega
  have hvector := Decode.decodes_vector hcount fun d hd =>
    decodes_code (h.locals d hd) (h.operators d hd) (h.bodies d hd)
  exact decodes_section rfl (h.contents _ (.tail _ (.tail _ (.tail _ (.tail _ (.head _)))))) hvector

end InBounds

theorem sectionBytes_ne_nil (number : UInt8) (content : Bytes) : sectionBytes number content ≠ [] :=
  List.cons_ne_nil _ _

/-- Reading a written image gives back its five sections, in order and with all that they hold. -/
theorem decode_encode {image : Image} (h : image.InBounds) :
    decode image.encode = some image.sections := by
  have hpreamble : Decodes Decode.preamble header () := fun _ => rfl
  have hread : Decode.toEnd Decode.anySection
      (image.contents.flatMap fun (number, content) => sectionBytes number content) =
        some image.sections := by
    refine Decode.toEnd_append h.decodes_types (sectionBytes_ne_nil _ _) ?_
    refine Decode.toEnd_append h.decodes_imports (sectionBytes_ne_nil _ _) ?_
    refine Decode.toEnd_append h.decodes_functions (sectionBytes_ne_nil _ _) ?_
    refine Decode.toEnd_append h.decodes_exports (sectionBytes_ne_nil _ _) ?_
    exact Decode.toEnd_append h.decodes_bodies (sectionBytes_ne_nil _ _) Decode.toEnd_nil
  have hascending : (image.sections.map Section.number).Pairwise (· < ·) := by
    have hnumbers : image.sections.map Section.number = [1, 2, 3, 7, 10] := rfl
    rw [hnumbers]
    decide
  rw [encode_eq]
  simp [decode, hpreamble _, hread, hascending]

/-! ## An image at the edges of the groups -/

namespace Edges

/-- Operators whose numbers take one group, or just more than one. They are not balanced. -/
def ops : List Op :=
  [.const (-65), .const (-64), .const 63, .const 64, .const (-2147483648), .const 2147483647,
    .close, .brTable [0, 127, 128] 4294967295, .load 4294967295, .store 0, .call 16384, .bin .shrU,
    .block]

def image : Image where
  types := [⟨[], none⟩, ⟨[.i32, .f64, .i64], some .f32⟩]
  memory := ⟨"mémoire", "", 18446744073709551615⟩
  imports := [⟨"sys", "log", 1⟩]
  globals := [⟨"", "type:Ω"⟩]
  functions := [⟨300, ⟨"Run", ⟨[], none⟩, [.i32, .i32, .f64, .i32], ops, some "run"⟩⟩]

theorem inBounds : image.InBounds where
  types := by decide
  params := by decide
  pages := by decide
  imported := by decide +kernel
  importTypes := by decide
  names := by decide +kernel
  functions := by decide
  functionTypes := by decide
  locals := by decide
  operators := by simp [image, ops, Op.InBounds, UInt32.size]
  bodies := by decide +kernel
  contents := by decide +kernel

theorem reads_back : image.InBounds ∧ decode image.encode = some image.sections :=
  ⟨inBounds, decode_encode inBounds⟩

end Edges

end Image

end CilCompiler
