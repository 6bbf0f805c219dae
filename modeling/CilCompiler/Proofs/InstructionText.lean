import CilCompiler.Proofs.ListingRoundTrip

/-!
# Printed instructions read back

An instruction is also printed by itself, in traces and messages. That text is not laid out by the
printer of listings, but for operands without names the tokens are the same.

* `scans_operandText` and `scans_instructionText` say which tokens the text has.
* `Instruction.text_reads_back` says that reading them gives the instruction back.
-/

namespace CilCompiler

namespace Listing

/-- The shapes of operands that are printed as they are written: numbers and labels. -/
def plainShapes : List OperandKind :=
  [.empty, .int32, .int64, .arg, .loc, .target, .targets]

/-! ## The tokens of an operand -/

theorem toList_toString_int (value : Int) : (toString value).toList = decimal value := by
  rw [Int.toString_eq_repr, Int.repr_eq_if]
  unfold decimal
  by_cases hneg : value < 0
  · have habs : (-value).toNat = value.natAbs := by omega
    rw [if_neg (by omega), if_pos hneg, String.toList_append, Nat.toList_repr, habs]
    rfl
  · have habs : value.toNat = value.natAbs := by omega
    rw [if_pos (by omega), if_neg hneg, Nat.toList_repr, habs, List.nil_append]

theorem toList_toString_nat (n : Nat) : (toString n).toList = decimal n := by
  rw [Nat.toString_eq_repr, Nat.toList_repr]
  simp [decimal]

/-- A number that ends the text. -/
theorem scans_lastInt (value : Int64) :
    Scans (decimal value.toInt) [.int value, .endOfInput] := by
  have h : Scans (decimal value.toInt ++ []) _ := scans_int value nofun Scans.nil
  rwa [List.append_nil] at h

/-- A label that ends the text. -/
theorem scans_lastLabel (offset : UInt32) :
    Scans (Text.label offset).toList [.ident (Text.label offset), .endOfInput] := by
  have h : Scans ((Text.label offset).toList ++ []) _ :=
    scans_word (isWord_label offset) nofun Scans.nil
  rwa [List.append_nil] at h

/-- Labels with commas and blanks between them, and the parenthesis that closes the list. -/
theorem scans_labels (offsets : List UInt32) :
    Scans ([',', ' '].intercalate (offsets.map fun offset => (Text.label offset).toList) ++ [')'])
      (tokens ([.punct ','].intercalate (offsets.map fun offset => [.label offset])) ++
        [.punct ')', .endOfInput]) := by
  have hclose : Scans [')'] [.punct ')', .endOfInput] := scans_punct rfl (by decide) Scans.nil
  induction offsets with
  | nil =>
      exact hclose
  | cons offset offsets ih =>
      have hword := isWord_label offset
      cases offsets with
      | nil =>
          simpa using scans_word hword (Stops.cons rfl []) hclose
      | cons next offsets =>
          -- the comma keeps the label apart from the next one
          have hcomma := scans_punct (c := ',') rfl (by decide) ih.blank
          have := scans_word hword (Stops.cons rfl _) hcomma
          simpa [List.intercalate_cons_cons] using this

theorem scans_operandText {o : Operand} (h : o.kind ∈ plainShapes) :
    Scans o.text.toList (tokens o.pieces ++ [.endOfInput]) := by
  cases o with
  | empty =>
      exact Scans.nil
  | int32 value =>
      have hint := scans_lastInt value.toInt64
      rw [Int32.toInt_toInt64] at hint
      exact toList_toString_int value.toInt ▸ hint
  | int64 value =>
      exact toList_toString_int value.toInt ▸ scans_lastInt value
  | arg index | loc index =>
      have hvalue : (Int64.ofNat index.toNat).toInt = index.toNat :=
        toInt_ofNat (by have := index.toNat_lt; omega)
      have hint := scans_lastInt (Int64.ofNat index.toNat)
      rw [hvalue] at hint
      exact toList_toString_nat index.toNat ▸ hint
  | target offset =>
      exact scans_lastLabel offset
  | targets offsets =>
      have hlist := scans_punct (c := '(') rfl (by decide) (scans_labels offsets)
      simpa [Operand.text, Operand.pieces, parens, Function.comp_def] using hlist
  | float _ | string _ | method _ | field _ | type _ | raw _ =>
      simp [Operand.kind, plainShapes] at h

/-! ## The tokens of an instruction -/

/-- The text of an instruction: its label, a colon and a blank, its mnemonic, and a blank before the
operand if there is one. -/
theorem toList_instructionText (i : Instruction) :
    i.text.toList = (Text.label i.offset).toList ++ ':' :: ' ' :: (i.opcode.mnemonic.toList ++
      if i.operand = .empty then [] else ' ' :: i.operand.text.toList) := by
  unfold Instruction.text
  split
  · next hempty =>
      simp [hempty]
  · next hne =>
      rw [if_neg hne]
      simp

theorem scans_instructionText {i : Instruction} (h : i.operand.kind ∈ plainShapes) :
    Scans i.text.toList (tokens i.pieces ++ [.endOfInput]) := by
  rw [toList_instructionText]
  refine scans_mark i.offset ?_
  split
  · next hempty =>
      rw [hempty]
      exact scans_word i.opcode.isWord_mnemonic nofun Scans.nil
  · exact scans_word i.opcode.isWord_mnemonic (Stops.cons rfl _) (scans_operandText h).blank

/-- What is printed by numbers and labels names nothing that could be misspelled. -/
theorem printable_of_plain {i : Instruction} (hkind : i.operand.kind = i.opcode.operandKind)
    (h : i.operand.kind ∈ plainShapes) : i.Printable := by
  obtain ⟨offset, opcode, operand⟩ := i
  dsimp only at hkind h
  refine ⟨hkind, ?_, ?_⟩
  · rw [← hkind]
    revert h
    cases operand.kind <;> decide
  · cases operand with
    | method _ | field _ | type _ =>
        simp [Operand.kind, plainShapes] at h
    | _ =>
        trivial

end Listing

open Listing

/-- The text of an instruction has tokens from which a label, a colon and, in whatever scope, the
instruction can be read. All tokens but the end mark are taken. -/
theorem Instruction.text_reads_back {i : Instruction}
    (hkind : i.operand.kind = i.opcode.operandKind) (hshape : i.opcode.operandKind ∈ plainShapes) :
    ∃ front mark, scan i.text = .ok (front ++ [mark]) ∧ mark.token = .endOfInput ∧
      ∀ scope, (do
          let offset ← label
          expectPunct ':'
          instruction scope offset : Reader Instruction) (front ++ [mark]) = .ok (i, [mark]) := by
  have hplain : i.operand.kind ∈ plainShapes := hkind ▸ hshape
  obtain ⟨located, hscan, hlocated⟩ := scans_instructionText hplain 1
  obtain ⟨front, rest, rfl, hfront, hrest⟩ := List.map_eq_append_iff.1 hlocated
  obtain ⟨mark, rfl, hmark⟩ := List.map_eq_singleton_iff.1 hrest
  refine ⟨front, mark, hscan, hmark, fun scope => ?_⟩
  have hread : Reads (do
      let offset ← label
      expectPunct ':'
      instruction scope offset) (tokens i.pieces) i NoBrackets := by
    refine (reads_label i.offset).cons ?_
    refine (reads_expectPunct ':').cons ?_
    exact reads_instruction scope (printable_of_plain hkind hplain)
  refine hread front [mark] hfront ?_
  simp [NoBrackets]

namespace FarSwitch

/-- A switch at the last offset, whose labels have four, five and eight digits. -/
def instruction : Instruction :=
  ⟨0xffffffff, .switch, .targets [0, 0x12345, 0xffffffff]⟩

/-- The labels between the parentheses come back as the targets. -/
theorem labels_come_back :
    instruction.text = "IL_ffffffff: switch (IL_0000, IL_12345, IL_ffffffff)" ∧
      instruction.operand.kind = instruction.opcode.operandKind ∧
      instruction.opcode.operandKind ∈ plainShapes ∧
      ∃ front mark, scan instruction.text = .ok (front ++ [mark]) ∧ mark.token = .endOfInput ∧
        ∀ scope, (do
            let offset ← label
            expectPunct ':'
            Listing.instruction scope offset : Reader Instruction) (front ++ [mark]) =
          .ok (instruction, [mark]) := by
  have hkind : instruction.operand.kind = instruction.opcode.operandKind := rfl
  have hplain : instruction.opcode.operandKind ∈ plainShapes := by decide
  exact ⟨by decide +kernel, hkind, hplain, Instruction.text_reads_back hkind hplain⟩

end FarSwitch

end CilCompiler
