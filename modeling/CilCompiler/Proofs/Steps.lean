import CilCompiler.Proofs.Growth
import CilCompiler.Proofs.Slots
import CilCompiler.Lowering.Linking

/-!
# Steps of a build

A step of a build threads the tables, the log and perhaps a slot table, and may fail. The lemmas
here take a successful run apart, one `bind` at a time, so that no later proof looks inside the
monads.

* `Build.run_bind_ok` and `Linker.exec_bind_ok` split a run at a `bind`.
* `Build.reserve_ok`, `Build.global_ok`, `Build.define_ok` and `Build.callIndex_ok` say what the
  steps on tables do.
* `Linker.slot_ok` is a request for a slot.
-/

namespace CilCompiler

variable {α β : Type} {s s' : BuildState}

namespace Build

/-! ## Runs -/

theorem run_bind (x : Build α) (f : α → Build β) (s : BuildState) :
    Build.run (x >>= f) s =
      match Build.run x s with
      | (.ok a, s₁) => Build.run (f a) s₁
      | (.error e, s₁) => (.error e, s₁) := by
  rcases hx : Build.run x s with ⟨outcome, s₁⟩
  have hx' : x s = (outcome, s₁) := hx
  have hbind : Build.run (x >>= f) s = ExceptT.bindCont f (x s).1 (x s).2 := rfl
  rw [hbind, hx']
  cases outcome with
  | ok a =>
      rfl
  | error e =>
      rfl

theorem run_bind_ok {x : Build α} {f : α → Build β} {b : β} :
    Build.run (x >>= f) s = (.ok b, s') ↔
      ∃ a s₁, Build.run x s = (.ok a, s₁) ∧ Build.run (f a) s₁ = (.ok b, s') := by
  rw [run_bind]
  rcases hx : Build.run x s with ⟨outcome, s₁⟩
  cases outcome with
  | ok a =>
      constructor
      · intro h
        exact ⟨a, s₁, rfl, h⟩
      · rintro ⟨a', s₂, heq, h⟩
        cases heq
        exact h
  | error e =>
      constructor
      · intro h
        cases h
      · rintro ⟨a', s₂, heq, _⟩
        cases heq

@[simp] theorem run_pure (a : α) (s : BuildState) : Build.run (pure a) s = (.ok a, s) := rfl

@[simp] theorem run_get (s : BuildState) : Build.run get s = (.ok s, s) := rfl

@[simp] theorem run_set (s s' : BuildState) : Build.run (set s') s = (.ok ⟨⟩, s') := rfl

@[simp] theorem run_throw (e : CompileError) (s : BuildState) :
    Build.run (throw e : Build α) s = (.error e, s) := rfl

@[simp] theorem run_report (event : Event) (s : BuildState) :
    Build.run (report event) s = (.ok ⟨⟩, { s with log := s.log.push event }) := rfl

theorem run_ofExcept_ok {x : Except CompileError α} {a : α} :
    Build.run (ofExcept x) s = (.ok a, s') ↔ x = .ok a ∧ s' = s := by
  cases x with
  | ok b =>
      simp [ofExcept, eq_comm]
  | error e =>
      simp [ofExcept]

/-! ## Steps on tables -/

/-- An event that is told only on some condition changes nothing but the log. -/
theorem run_unless_report (told : Bool) (event : Event) (a : α) (s : BuildState) :
    Build.run (do unless told do report event
                  return a) s =
      (.ok a, { s with log := if told then s.log else s.log.push event }) := by
  cases told with
  | true =>
      rfl
  | false =>
      rfl

theorem run_reserve_eq (name : String) (s : BuildState) :
    Build.run (reserve name) s =
      (.ok (s.tables.reserve name).1,
        { tables := (s.tables.reserve name).2
          log := if s.tables.functions.contains name then s.log
            else s.log.push (.reservedFunction name (s.tables.reserve name).1) }) :=
  run_unless_report (s.tables.functions.contains name)
    (.reservedFunction name (s.tables.reserve name).1) (s.tables.reserve name).1
    { s with tables := (s.tables.reserve name).2 }

/-- Asking for a function always gives an index. -/
theorem run_reserve (name : String) (s : BuildState) : ∃ log,
    Build.run (reserve name) s =
      (.ok (s.tables.reserve name).1, { tables := (s.tables.reserve name).2, log }) :=
  ⟨_, run_reserve_eq name s⟩

theorem reserve_ok {name : String} {i : Nat} (h : Build.run (reserve name) s = (.ok i, s')) :
    i = (s.tables.reserve name).1 ∧ s'.tables = (s.tables.reserve name).2 := by
  rcases run_reserve name s with ⟨log, hrun⟩
  rw [hrun] at h
  cases h
  exact ⟨rfl, rfl⟩

theorem run_global_eq (name : String) (s : BuildState) :
    Build.run (global name) s =
      (.ok (s.tables.global name).1,
        { tables := (s.tables.global name).2
          log := if s.tables.globals.contains name then s.log
            else s.log.push (.boundGlobal name (s.tables.global name).1) }) :=
  run_unless_report (s.tables.globals.contains name)
    (.boundGlobal name (s.tables.global name).1) (s.tables.global name).1
    { s with tables := (s.tables.global name).2 }

/-- Asking for a global always gives an index. -/
theorem run_global (name : String) (s : BuildState) : ∃ log,
    Build.run (global name) s =
      (.ok (s.tables.global name).1, { tables := (s.tables.global name).2, log }) :=
  ⟨_, run_global_eq name s⟩

theorem global_ok {name : String} {i : Nat} (h : Build.run (global name) s = (.ok i, s')) :
    i = (s.tables.global name).1 ∧ s'.tables = (s.tables.global name).2 := by
  rcases run_global name s with ⟨log, hrun⟩
  rw [hrun] at h
  cases h
  exact ⟨rfl, rfl⟩

theorem run_define (f : Function) (s : BuildState) :
    Build.run (define f) s = ((s.tables.define f).1, { s with tables := (s.tables.define f).2 }) := by
  have hset : Build.run (define f) s =
      Build.run (ofExcept (s.tables.define f).1) { s with tables := (s.tables.define f).2 } := rfl
  rw [hset]
  cases (s.tables.define f).1 with
  | ok i =>
      rfl
  | error e =>
      rfl

theorem define_ok {f : Function} {i : Nat} (h : Build.run (define f) s = (.ok i, s')) :
    s.tables.define f = (.ok i, s'.tables) := by
  rw [run_define] at h
  rcases Prod.mk.inj h with ⟨houtcome, hstate⟩
  rw [← hstate, ← houtcome]

/-- A call gives the callee its index, and the tables know it from then on. -/
theorem callIndex_ok {a : Assembly} {m : MethodRef} {i : Nat}
    (h : Build.run (callIndex a m) s = (.ok i, s')) :
    s.tables.Extends s'.tables ∧ s'.tables.callee a m = some i := by
  unfold callIndex at h
  cases hm : a.findMethod m with
  | some found =>
      simp only [hm] at h
      rcases reserve_ok h with ⟨hi, ht⟩
      have hfind := Numbering.find?_request s.tables.functions m.fullName
      have hfunctions : s'.tables.functions = (s.tables.functions.request m.fullName).2 := by
        rw [ht]
        rfl
      have himports : s'.tables.imports = s.tables.imports := by
        rw [ht]
        rfl
      refine ⟨ht ▸ s.tables.extends_reserve m.fullName, ?_⟩
      simp only [Tables.callee, hm, hfunctions, hfind, himports, Option.map_some, hi]
      rfl
  | none =>
      simp only [hm] at h
      rcases run_bind_ok.1 h with ⟨s₁, s₂, hget, hrun⟩
      cases hget
      rcases run_ofExcept_ok.1 hrun with ⟨hindex, rfl⟩
      refine ⟨Tables.Extends.refl _, ?_⟩
      cases hl : s'.tables.hostMethods.lookup (Handle.methodIdentifier a.name m) with
      | none =>
          simp [Tables.importIndex, hl] at hindex
      | some k =>
          have hk : k = i := by simpa [Tables.importIndex, hl] using hindex
          simp [Tables.callee, hm, hl, hk]

end Build

namespace Linker

variable {slots slots' : SlotTable}

/-- The outcome of a step on slots and a build. -/
def exec (x : Linker α) (slots : SlotTable) (s : BuildState) :
    Except CompileError (α × SlotTable) × BuildState :=
  Build.run (StateT.run x slots) s

theorem exec_bind_ok {x : Linker α} {f : α → Linker β} {b : β} :
    exec (x >>= f) slots s = (.ok (b, slots'), s') ↔
      ∃ a slots₁ s₁, exec x slots s = (.ok (a, slots₁), s₁) ∧
        exec (f a) slots₁ s₁ = (.ok (b, slots'), s') := by
  have hsplit : exec (x >>= f) slots s =
      Build.run (StateT.run x slots >>= fun p => StateT.run (f p.1) p.2) s := rfl
  rw [hsplit, Build.run_bind_ok]
  constructor
  · rintro ⟨⟨a, slots₁⟩, s₁, hx, hf⟩
    exact ⟨a, slots₁, s₁, hx, hf⟩
  · rintro ⟨a, slots₁, s₁, hx, hf⟩
    exact ⟨(a, slots₁), s₁, hx, hf⟩

theorem exec_pure_ok {a b : α} :
    exec (pure a) slots s = (.ok (b, slots'), s') ↔ a = b ∧ slots = slots' ∧ s = s' := by
  have hpure : exec (pure a) slots s = (.ok (a, slots), s) := rfl
  rw [hpure]
  constructor
  · intro h
    cases h
    exact ⟨rfl, rfl, rfl⟩
  · rintro ⟨rfl, rfl, rfl⟩
    rfl

/-- A step of the build leaves the slots as they are. -/
theorem exec_lift_ok {x : Build α} {a : α} :
    exec (liftM x) slots s = (.ok (a, slots'), s') ↔
      slots = slots' ∧ Build.run x s = (.ok a, s') := by
  have hlift : exec (liftM x) slots s =
      Build.run (x >>= fun a => pure (a, slots)) s := rfl
  rw [hlift, Build.run_bind_ok]
  constructor
  · rintro ⟨b, s₁, hx, hp⟩
    cases hp
    exact ⟨rfl, hx⟩
  · rintro ⟨rfl, hx⟩
    exact ⟨a, s', hx, rfl⟩

theorem exec_get_bind (f : SlotTable → Linker β) (slots : SlotTable) (s : BuildState) :
    exec (get >>= f) slots s = exec (f slots) slots s := rfl

/-- A request for a slot is a request to the slot table. -/
theorem exec_slot (x : Slot) (slots : SlotTable) (s : BuildState) :
    exec (slot x) slots s = (slots.resolved x .i32, s) := by
  unfold slot SlotTable.resolved
  rw [exec_get_bind]
  rcases slots.resolve x .i32 with ⟨e | index, table⟩
  · rfl
  · rfl

theorem slot_ok {x : Slot} {i : Nat} (h : exec (slot x) slots s = (.ok (i, slots'), s')) :
    slots.resolve x .i32 = (.ok i, slots') ∧ s = s' := by
  rw [exec_slot] at h
  exact ⟨SlotTable.resolved_eq_ok_iff.1 (congrArg Prod.fst h), congrArg Prod.snd h⟩

end Linker

end CilCompiler
