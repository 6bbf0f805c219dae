import CilCompiler.Proofs.Expansion
import CilCompiler.Proofs.Flow
import CilCompiler.Proofs.Linked

/-!
# Regions

Where a jump out of the regions of a compiled body lands.

* `behindClose_behindClose` composes ways out of regions, and `regionLabels` are the labels of the
  regions that are open before some code.
* `Site` is a place in a lowered body, right behind the ends of the regions that close there.
* `LoweredFrom.landing` says that the way out of an open region leads to the site of its target.
-/

namespace CilCompiler

open Wasm

/-! ## Ways out of regions -/

/-- The operators that open or close a region. -/
def Wasm.Op.isBracket : Op → Bool
  | .block | .loop | .close => true
  | _ => false

theorem behindClose_cons {op : Op} (h : op.isBracket = false) (d : Nat) (code : List Op) :
    behindClose d (op :: code) = behindClose d code := by
  cases op with
  | block =>
      cases h
  | loop =>
      cases h
  | close =>
      cases h
  | _ =>
      cases d <;> rfl

theorem behindClose_append {ops : List Op} (h : ∀ op ∈ ops, op.isBracket = false) (d : Nat)
    (code : List Op) : behindClose d (ops ++ code) = behindClose d code := by
  induction ops with
  | nil =>
      rfl
  | cons op ops ih =>
      have hop := h op (by simp)
      rw [List.cons_append, behindClose_cons hop, ih fun o ho => h o (by simp [ho])]

/-- The way out of `d + 1` regions and then of `e + 1` more. -/
theorem behindClose_behindClose (d e : Nat) (code : List Op) :
    behindClose e (behindClose d code) = behindClose (d + 1 + e) code := by
  induction code generalizing d with
  | nil =>
      simp [behindClose]
  | cons op code ih =>
      cases op with
      | block =>
          simpa [behindClose, Nat.add_right_comm] using ih (d + 1)
      | loop =>
          simpa [behindClose, Nat.add_right_comm] using ih (d + 1)
      | close =>
          cases d with
          | zero =>
              simp [behindClose, Nat.add_comm 1 e]
          | succ d =>
              simpa [behindClose, Nat.add_right_comm] using ih d
      | _ =>
          rw [behindClose_cons rfl, behindClose_cons rfl]
          exact ih d

/-- The labels of `n` regions that are open before `code`, the innermost first. All of them were
entered without operands. -/
def regionLabels (n : Nat) (code : List Op) : List Machine.Label :=
  (List.range n).map fun d => ⟨behindClose d code, []⟩

theorem length_regionLabels (n : Nat) (code : List Op) : (regionLabels n code).length = n := by
  simp [regionLabels]

theorem regionLabels_append {ops : List Op} (h : ∀ op ∈ ops, op.isBracket = false) (n : Nat)
    (code : List Op) : regionLabels n (ops ++ code) = regionLabels n code := by
  simp [regionLabels, behindClose_append h]

theorem regionLabels_close (n : Nat) (code : List Op) :
    regionLabels (n + 1) (.close :: code) = ⟨code, []⟩ :: regionLabels n code := by
  simp [regionLabels, List.range_succ_eq_map, behindClose, Function.comp_def]

theorem regionLabels_block (n : Nat) (code : List Op) :
    ⟨behindClose 0 code, []⟩ :: regionLabels n (.block :: code) = regionLabels (n + 1) code := by
  simp [regionLabels, List.range_succ_eq_map, behindClose, Function.comp_def]

theorem getElem?_regionLabels {n d : Nat} (h : d < n) (code : List Op) :
    (regionLabels n code)[d]? = some ⟨behindClose d code, []⟩ := by
  simp [regionLabels, h]

theorem drop_regionLabels (n d : Nat) (code : List Op) :
    (regionLabels n code).drop (d + 1) = regionLabels (n - (d + 1)) (behindClose d code) := by
  apply List.ext_getElem?
  intro e
  by_cases he : e < n - (d + 1)
  · have hde : d + 1 + e < n := by omega
    rw [List.getElem?_drop, getElem?_regionLabels hde, getElem?_regionLabels he,
      behindClose_behindClose]
  · have hleft : ((regionLabels n code).drop (d + 1)).length ≤ e := by
      rw [List.length_drop, length_regionLabels]
      omega
    have hright : (regionLabels (n - (d + 1)) (behindClose d code)).length ≤ e := by
      rw [length_regionLabels]
      omega
    rw [List.getElem?_eq_none hleft, List.getElem?_eq_none hright]

/-! ## Linked code has no brackets -/

section Linked

variable {l : Linkage} {c : Cursor}

theorem isBracket_of_isSimple {op : Op} (h : op.isSimple) : op.isBracket = false := by
  cases op with
  | block =>
      cases h
  | loop =>
      cases h
  | close =>
      cases h
  | _ =>
      rfl

theorem Emit.Linked.isBracket {e : Emit} {ops : List Op} (h : e.Linked l c ops)
    (he : e.isSimple) : ∀ op ∈ ops, op.isBracket = false := by
  cases h with
  | op o =>
      intro op hop
      cases List.mem_singleton.1 hop
      exact isBracket_of_isSimple he
  | @forward target conditional label _ =>
      cases conditional <;> simp [jump, Op.isBracket]
  | @backward target conditional resume label i _ _ =>
      cases conditional <;> simp [jump, Op.isBracket]
  | _ =>
      simp [Op.isBracket]

theorem LinkedAll.isBracket {es : List Emit} {ops : List Op} (h : LinkedAll l c es ops)
    (hes : ∀ e ∈ es, e.isSimple) : ∀ op ∈ ops, op.isBracket = false :=
  h.forall_op fun e he _ hlinked => hlinked.isBracket (hes e he)

end Linked

/-! ## Sites -/

/-- The place of the instruction `i` of a body, with its operators `ops`, the instructions `is` that
are left behind it, and the operators `rest` of those. -/
structure Site (l : Linkage) (body : MethodBody) (c : Cursor) (i : Instruction)
    (is : List Instruction) (ops rest : List Op) : Prop where
  suffix : i :: is <:+ body.instructions
  stands : c.Stands is
  past : ∀ t ∈ c.schedule.targets.take c.next, t ≤ i.offset
  linked : ∃ es, select l.assembly l.headerSize i = .ok es ∧ LinkedAll l c es ops
  lowered : LoweredFrom l c is rest

section Sites

variable {l : Linkage} {body : MethodBody} {c : Cursor} {i : Instruction} {is : List Instruction}
  {ops rest code : List Op}

theorem Site.isBracket (h : Site l body c i is ops rest) :
    ∀ op ∈ ops, op.isBracket = false := by
  rcases h.linked with ⟨es, hselect, hlinked⟩
  exact hlinked.isBracket (isSimple_of_select hselect)

/-- Lowering goes on from before an instruction to its site, behind the regions that close. -/
theorem LoweredFrom.site (hstands : c.Stands (i :: is))
    (hsuffix : i :: is <:+ body.instructions) (h : LoweredFrom l c (i :: is) code) :
    ∃ ops rest, code = List.replicate (c.closing i.offset) .close ++ (ops ++ rest) ∧
      Site l body (c.advance i.offset) i is ops rest := by
  cases h with
  | @cons _ _ _ es ops rest hselect hlinked hrest =>
      refine ⟨ops, rest, by simp, ?_⟩
      exact
        { suffix := hsuffix
          stands := hstands.advance.1
          past := hstands.le_offset
          linked := ⟨es, hselect, hlinked⟩
          lowered := hrest }

/-- The way out of the `d`th open region leads to the site of its target. -/
theorem LoweredFrom.landing (hstands : c.Stands is) (hsuffix : is <:+ body.instructions)
    (h : LoweredFrom l c is code) {d : Nat} (hd : d < c.openRegions) (tail : List Op) :
    ∃ c' j js ops rest, behindClose d (code ++ tail) = ops ++ rest ++ tail ∧
      c'.schedule = c.schedule ∧ c'.next = c.next + d + 1 ∧
      c.schedule.targets[c.next + d]? = some j.offset ∧ Site l body c' j js ops rest := by
  -- the induction is on the instructions that are left; each of them ends one region or none
  induction is generalizing c d code with
  | nil =>
      rw [hstands.openRegions_nil] at hd
      cases hd
  | cons i is ih =>
      rcases h.site hstands hsuffix with ⟨ops, rest, rfl, hsite⟩
      have hrest : is <:+ body.instructions := (List.suffix_cons i is).trans hsuffix
      rcases hstands.advance with ⟨hstands', ⟨_, hclosing, hget⟩ | ⟨_, hclosing⟩⟩
      · have hnext : (c.advance i.offset).next = c.next + 1 := by simp [Cursor.advance, hclosing]
        cases d with
        | zero =>
            refine ⟨c.advance i.offset, i, is, ops, rest, ?_, rfl, hnext, hget, hsite⟩
            simp [hclosing, behindClose]
        | succ d =>
            have hd' : d < (c.advance i.offset).openRegions := by
              have hsame : (c.advance i.offset).schedule = c.schedule := rfl
              simp only [Cursor.openRegions, hnext, hsame] at hd ⊢
              omega
            rcases ih hstands' hrest hsite.lowered hd' with
              ⟨c', j, js, ops', rest', hcode, hsame, hnext', hget', hsite'⟩
            have harith : (c.advance i.offset).next + d = c.next + (d + 1) := by omega
            refine ⟨c', j, js, ops', rest', ?_, hsame, by omega, harith ▸ hget', hsite'⟩
            simp only [hclosing, List.replicate_one, List.append_assoc, List.cons_append,
              List.nil_append, behindClose]
            rw [behindClose_append hsite.isBracket]
            simpa using hcode
      · have hstay : c.advance i.offset = c := by simp [Cursor.advance, hclosing]
        rw [hstay] at hstands' hsite
        rcases ih hstands' hrest hsite.lowered hd with
          ⟨c', j, js, ops', rest', hcode, hsame, hnext', hget', hsite'⟩
        refine ⟨c', j, js, ops', rest', ?_, hsame, hnext', hget', hsite'⟩
        simp only [hclosing, List.replicate_zero, List.nil_append, List.append_assoc]
        rw [behindClose_append hsite.isBracket]
        simpa using hcode

end Sites

end CilCompiler
