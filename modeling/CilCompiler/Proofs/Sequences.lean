import Mathlib.Logic.Function.Basic
import CilCompiler.Proofs.Expansion
import CilCompiler.Proofs.Linked

/-!
# Running linked sequences

A machine that runs a linked sequence works on locals by index. Seen through the slots, it works on
words that have names.

* `Holds` says which words the locals hold, slot by slot.
* `Runs` is a run through a sequence as seen through the slots, `RunsTo` one that ends in it. Both
  compose along sequences, and there is one lemma for every kind of step.
-/

namespace CilCompiler

open Wasm

/-! ## Locals as slots -/

/-- Every slot that has a place holds its word there. -/
def Holds (table : SlotTable) (slots : Slot → Word) (locals : List Word) : Prop :=
  ∀ x place, table.find? x = some place → locals[place.index]? = some (slots x)

theorem Holds.index_lt {table : SlotTable} {slots : Slot → Word} {locals : List Word} {x : Slot}
    {place : Place} (h : Holds table slots locals) (hx : table.find? x = some place) :
    place.index < locals.length := by
  rcases List.getElem?_eq_some_iff.1 (h x place hx) with ⟨hlt, _⟩
  exact hlt

theorem Holds.set {params : List ValueKind} {table : SlotTable} {slots : Slot → Word}
    {locals : List Word} {x : Slot} {place : Place} (hw : table.WellPlaced params)
    (h : Holds table slots locals) (hx : table.find? x = some place) (w : Word) :
    Holds table (Function.update slots x w) (locals.set place.index w) := by
  intro y place' hy
  by_cases hxy : y = x
  · subst hxy
    rw [hx] at hy
    cases hy
    simp [h.index_lt hx]
  · have hne : place.index ≠ place'.index := fun hi => hxy (hw.injective hx hy hi).symm
    rw [List.getElem?_set_ne hne, Function.update_of_ne hxy]
    exact h y place' hy

/-! ## Sequences -/

section Inversion

variable {l : Linkage} {c : Cursor}

theorem LinkedAll.of_append {es es' : List Emit} {ops : List Op}
    (h : LinkedAll l c (es ++ es') ops) :
    ∃ first rest, ops = first ++ rest ∧ LinkedAll l c es first ∧ LinkedAll l c es' rest := by
  induction es generalizing ops with
  | nil =>
      exact ⟨[], ops, rfl, .nil, h⟩
  | cons e es ih =>
      cases h with
      | @cons _ _ first rest he hes =>
          rcases ih hes with ⟨first', rest', rfl, hfirst, hrest⟩
          exact ⟨first ++ first', rest', by simp, .cons he hfirst, hrest⟩

theorem LinkedAll.of_singleton {e : Emit} {ops : List Op} (h : LinkedAll l c [e] ops) :
    e.Linked l c ops := by
  cases h with
  | cons he hes =>
      cases hes
      simpa using he

end Inversion

/-- A state of a machine as seen through the slots. -/
structure View (σ : Type) where
  slots : Slot → Word
  stack : List Word
  host : σ

variable {σ : Type} {m : Machine σ} {l : Linkage} {c : Cursor} {es es' : List Emit}
  {v v' v'' : View σ} {slots : Slot → Word} {stack : List Word} {host host' : σ} {o : Outcome σ}

/-- The machine runs through the sequence, from one view to another. Whatever code stands behind
the sequence and whatever regions are open stay as they are. -/
def Runs (m : Machine σ) (l : Linkage) (c : Cursor) (es : List Emit) (v v' : View σ) : Prop :=
  ∀ ⦃ops : List Op⦄ (code : List Op) ⦃locals : List Word⦄ (labels : List Machine.Label),
    LinkedAll l c es ops → Holds l.slots v.slots locals →
      ∃ locals', Holds l.slots v'.slots locals' ∧
        Reaches m.step ⟨ops ++ code, locals, v.stack, labels, v.host⟩
          ⟨code, locals', v'.stack, labels, v'.host⟩

/-- The machine comes to an end in the sequence. -/
def RunsTo (m : Machine σ) (l : Linkage) (c : Cursor) (es : List Emit) (v : View σ)
    (o : Outcome σ) : Prop :=
  ∀ ⦃ops : List Op⦄ (code : List Op) ⦃locals : List Word⦄ (labels : List Machine.Label),
    LinkedAll l c es ops → Holds l.slots v.slots locals →
      Ends m.step ⟨ops ++ code, locals, v.stack, labels, v.host⟩ o

namespace Runs

theorem nil (v : View σ) : Runs m l c [] v v := by
  intro ops code locals labels hl hv
  cases hl
  exact ⟨locals, hv, .refl⟩

theorem append (h : Runs m l c es v v') (h' : Runs m l c es' v' v'') :
    Runs m l c (es ++ es') v v'' := by
  intro ops code locals labels hl hv
  rcases hl.of_append with ⟨first, rest, rfl, hfirst, hrest⟩
  rcases h (rest ++ code) labels hfirst hv with ⟨locals₁, hv₁, hreach⟩
  rcases h' code labels hrest hv₁ with ⟨locals₂, hv₂, hreach'⟩
  refine ⟨locals₂, hv₂, ?_⟩
  rw [List.append_assoc]
  exact hreach.trans hreach'

theorem cons {e : Emit} (h : Runs m l c [e] v v') (h' : Runs m l c es v' v'') :
    Runs m l c (e :: es) v v'' :=
  h.append h'

theorem runsTo (h : Runs m l c es v v') (h' : RunsTo m l c es' v' o) :
    RunsTo m l c (es ++ es') v o := by
  intro ops code locals labels hl hv
  rcases hl.of_append with ⟨first, rest, rfl, hfirst, hrest⟩
  rcases h (rest ++ code) labels hfirst hv with ⟨locals₁, hv₁, hreach⟩
  rw [List.append_assoc]
  exact Ends.of_reaches hreach (h' code labels hrest hv₁)

end Runs

theorem RunsTo.append (h : RunsTo m l c es v o) : RunsTo m l c (es ++ es') v o := by
  intro ops code locals labels hl hv
  rcases hl.of_append with ⟨first, rest, rfl, hfirst, _⟩
  rw [List.append_assoc]
  exact h (rest ++ code) labels hfirst hv

/-! ## Steps -/

namespace Runs

/-- An operator that leaves the slots alone. -/
theorem op {op : Op} {stack' : List Word}
    (h : ∀ code locals labels, m.execute ⟨code, locals, stack, labels, host⟩ op =
      .next ⟨code, locals, stack', labels, host'⟩) :
    Runs m l c [.op op] ⟨slots, stack, host⟩ ⟨slots, stack', host'⟩ := by
  intro ops code locals labels hl hv
  cases hl.of_singleton
  exact ⟨locals, hv, .one (h code locals labels)⟩

theorem load {x : Slot} {w : Word} (hw : slots x = w) :
    Runs m l c [.load x] ⟨slots, stack, host⟩ ⟨slots, w :: stack, host⟩ := by
  intro ops code locals labels hl hv
  cases hl.of_singleton with
  | @load _ i hx =>
      have hget : locals[i]? = some w := hw ▸ hv x _ hx
      refine ⟨locals, hv, .one ?_⟩
      simp [Machine.step, Machine.execute, Machine.State.push, hget]

theorem store {params : List ValueKind} (hw : l.slots.WellPlaced params) (x : Slot) (w : Word) :
    Runs m l c [.store x] ⟨slots, w :: stack, host⟩ ⟨Function.update slots x w, stack, host⟩ := by
  intro ops code locals labels hl hv
  cases hl.of_singleton with
  | @store _ i hx =>
      have hlt : i < locals.length := hv.index_lt hx
      refine ⟨locals.set i w, hv.set hw hx w, .one ?_⟩
      simp [Machine.step, Machine.execute, Machine.State.pop, hlt]

theorem handle {name : String} {value : σ → Word}
    (h : ∀ n, l.tables.globals.find? name = some n → m.engine.global n = value) :
    Runs m l c [.handle name] ⟨slots, stack, host⟩ ⟨slots, value host :: stack, host⟩ := by
  intro ops code locals labels hl hv
  cases hl.of_singleton with
  | handle hn =>
      refine ⟨locals, hv, .one ?_⟩
      simp [Machine.step, Machine.execute, Machine.State.push, h _ hn]

end Runs

theorem RunsTo.op {op : Op}
    (h : ∀ code locals labels, m.execute ⟨code, locals, stack, labels, host⟩ op = .done o) :
    RunsTo m l c [.op op] ⟨slots, stack, host⟩ o := by
  intro ops code locals labels hl _
  cases hl.of_singleton
  exact .of_done (h code locals labels)

/-! ## Calls -/

theorem step_call {n : Nat} {args : List Word} (hn : m.engine.arity n = args.length)
    (code : List Op) (locals stack : List Word) (labels : List Machine.Label) (host : σ) :
    m.step ⟨.call n :: code, locals, args.reverse ++ stack, labels, host⟩ =
      match m.engine.call n args host with
      | some (result, host) => .next ⟨code, locals, result.toList ++ stack, labels, host⟩
      | none => .done (.trapped host) := by
  have hpop : popArgs (m.engine.arity n) (args.reverse ++ stack) = some (args, stack) := by
    rw [hn]
    exact popArgs_append
  cases hcall : m.engine.call n args host with
  | none =>
      simp only [Machine.step, Machine.execute, hpop, hcall]
  | some answer =>
      simp only [Machine.step, Machine.execute, hpop, hcall]

/-- A step that calls the function `n` on some arguments. -/
def CallsWith (m : Machine σ) (l : Linkage) (c : Cursor) (e : Emit) (args : List Word) (host : σ)
    (result : Option (Option Word × σ)) : Prop :=
  ∀ ops, e.Linked l c ops → ∃ n, ops = [.call n] ∧ m.engine.arity n = args.length ∧
    m.engine.call n args host = result

theorem Runs.call {e : Emit} {args : List Word} {result : Option Word}
    (h : CallsWith m l c e args host (some (result, host'))) :
    Runs m l c [e] ⟨slots, args.reverse ++ stack, host⟩
      ⟨slots, result.toList ++ stack, host'⟩ := by
  intro ops code locals labels hl hv
  rcases h ops hl.of_singleton with ⟨n, rfl, harity, hcall⟩
  refine ⟨locals, hv, .one ?_⟩
  simpa [hcall] using step_call harity code locals stack labels host

theorem RunsTo.call {e : Emit} {args : List Word} (h : CallsWith m l c e args host none) :
    RunsTo m l c [e] ⟨slots, args.reverse ++ stack, host⟩ (.trapped host) := by
  intro ops code locals labels hl _
  rcases h ops hl.of_singleton with ⟨n, rfl, harity, hcall⟩
  refine .of_done ?_
  simpa [hcall] using step_call harity code locals stack labels host

/-! ## Jumps -/

/-- What a jump finds on the stack when it is taken, and what it leaves there. -/
inductive Taken : Bool → List Word → List Word → Prop
  | always (stack : List Word) : Taken false stack stack
  | holds {w : Word} (stack : List Word) : w ≠ 0 → Taken true (w :: stack) stack

theorem step_jump {conditional : Bool} {stack' : List Word} (h : Taken conditional stack stack')
    (label : Nat) (code : List Op) (locals : List Word) (labels : List Machine.Label) :
    m.step ⟨jump conditional label :: code, locals, stack, labels, host⟩ =
      m.branch ⟨code, locals, stack', labels, host⟩ label := by
  cases h with
  | always stack =>
      rfl
  | holds stack hw =>
      simp only [jump, Machine.step, Machine.execute, Machine.State.pop, if_true, if_neg hw]

/-- Storing where to go on after a jump backwards. -/
theorem reaches_selector {params : List ValueKind} {i : Nat} {locals : List Word} (c : Cursor)
    (hw : l.slots.WellPlaced params) (hx : l.slots.find? .resumeSelector = some ⟨i, .i32⟩)
    (hv : Holds l.slots slots locals) (resume : Nat) (code : List Op) (stack : List Word)
    (labels : List Machine.Label) (host : σ) :
    ∃ locals', Holds l.slots
        (Function.update slots .resumeSelector (Int32.ofNat resume).toBitVec) locals' ∧
      Reaches m.step ⟨.const (Int32.ofNat resume) :: .localSet i :: code, locals, stack, labels, host⟩
        ⟨code, locals', stack, labels, host⟩ := by
  have hconst : Runs m l c [.op (.const (Int32.ofNat resume)), .store .resumeSelector]
      ⟨slots, stack, host⟩
      ⟨Function.update slots .resumeSelector (Int32.ofNat resume).toBitVec, stack, host⟩ :=
    .cons (.op fun _ _ _ => rfl) (.store hw .resumeSelector _)
  exact hconst code labels (.cons (.op _) (.cons (.store hx) .nil)) hv

/-- A conditional jump that is not taken leaves all slots alone but the selector. -/
theorem Runs.not_taken {params : List ValueKind} (hw : l.slots.WellPlaced params)
    (target : UInt32) :
    ∃ slots', (∀ x, x ≠ .resumeSelector → slots' x = slots x) ∧
      Runs m l c [.branch target true] ⟨slots, 0 :: stack, host⟩ ⟨slots', stack, host⟩ := by
  have hpass : ∀ label code locals labels,
      m.step ⟨.brIf label :: code, locals, 0 :: stack, labels, host⟩ =
        .next ⟨code, locals, stack, labels, host⟩ := by
    intro label code locals labels
    simp [Machine.step, Machine.execute, Machine.State.pop]
  cases hr : c.reach target with
  | error e =>
      refine ⟨slots, fun _ _ => rfl, ?_⟩
      intro ops code locals labels hl _
      cases hl.of_singleton with
      | forward h =>
          cases hr.symm.trans h
      | backward h _ =>
          cases hr.symm.trans h
  | ok r =>
      cases r with
      | forward label =>
          refine ⟨slots, fun _ _ => rfl, ?_⟩
          intro ops code locals labels hl hv
          cases hl.of_singleton with
          | forward _ =>
              exact ⟨locals, hv, .one (hpass _ code locals labels)⟩
          | backward h _ =>
              cases hr.symm.trans h
      | backward resume label =>
          refine ⟨Function.update slots .resumeSelector (Int32.ofNat resume).toBitVec,
            fun x hx => Function.update_of_ne hx _ _, ?_⟩
          intro ops code locals labels hl hv
          cases hl.of_singleton with
          | forward h =>
              cases hr.symm.trans h
          | backward h hx =>
              cases hr.symm.trans h
              rcases reaches_selector (m := m) c hw hx hv resume (.brIf label :: code)
                (0 :: stack) labels host with ⟨locals', hv', hreach⟩
              exact ⟨locals', hv', hreach.tail (hpass _ code locals' labels)⟩

end CilCompiler
