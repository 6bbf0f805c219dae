import CilCompiler.Proofs.ModuleDrafts

/-!
# Faults

A build stops at the first fault of its input. Here is said which one that is: of the methods, the
first that has a fault; in its body, what keeps it from being structured, or else the first
instruction that cannot be translated.

* `FirstFault` is the fault of a list: that of its first element that has one.
* `Draft.FailsWith` says with just which errors a draft fails. It is closed under `bind`.
* `Emit.Fault`, `Instruction.Fault`, `MethodBody.Fault` and `MethodDef.Fault` are the faults of the
  parts of an assembly.
* `build_error_iff` says with which failure a build ends.
-/

namespace CilCompiler

open Wasm (ValueKind)

variable {α β : Type}

/-! ## First faults -/

/-- Of all elements with a fault, the first has the fault `e`. -/
inductive FirstFault (F : α → CompileError → Prop) : List α → CompileError → Prop
  | here {x : α} {xs : List α} {e : CompileError} : F x e → FirstFault F (x :: xs) e
  | later {x : α} {xs : List α} {e : CompileError} :
      (∀ e', ¬ F x e') → FirstFault F xs e → FirstFault F (x :: xs) e

section FirstFault

variable {F : α → CompileError → Prop} {x : α} {xs : List α} {e : CompileError}

theorem firstFault_nil_iff : FirstFault F [] e ↔ False :=
  ⟨nofun, False.elim⟩

theorem firstFault_cons_iff :
    FirstFault F (x :: xs) e ↔ F x e ∨ (∀ e', ¬ F x e') ∧ FirstFault F xs e := by
  constructor
  · intro h
    cases h with
    | here hx =>
        exact .inl hx
    | later hx hxs =>
        exact .inr ⟨hx, hxs⟩
  · rintro (hx | ⟨hx, hxs⟩)
    · exact .here hx
    · exact .later hx hxs

/-- A list with a fault has it at some element, and none before. -/
theorem firstFault_iff :
    FirstFault F xs e ↔
      ∃ before x, before ++ [x] <+: xs ∧ (∀ y ∈ before, ∀ e', ¬ F y e') ∧ F x e := by
  induction xs with
  | nil =>
      rw [firstFault_nil_iff]
      refine iff_of_false id ?_
      rintro ⟨before, x, hfront, -⟩
      simpa using hfront.length_le
  | cons y ys ih =>
      rw [firstFault_cons_iff, ih]
      constructor
      · rintro (hy | ⟨hy, before, x, hfront, hbefore, hx⟩)
        · exact ⟨[], y, by simp, by simp, hy⟩
        · refine ⟨y :: before, x, by simpa using hfront, ?_, hx⟩
          intro z hz
          rcases List.mem_cons.1 hz with rfl | hz
          · exact hy
          · exact hbefore z hz
      · rintro ⟨before, x, hfront, hbefore, hx⟩
        cases before with
        | nil =>
            have hhead : x = y := by simpa using hfront
            exact .inl (hhead ▸ hx)
        | cons z before =>
            rcases List.cons_prefix_cons.1 hfront with ⟨rfl, hrest⟩
            exact .inr ⟨hbefore z (by simp), before, x, hrest,
              fun w hw => hbefore w (by simp [hw]), hx⟩

theorem FirstFault.exists_mem (h : FirstFault F xs e) : ∃ x ∈ xs, F x e := by
  rcases firstFault_iff.1 h with ⟨before, x, hfront, -, hx⟩
  exact ⟨x, hfront.subset (by simp), hx⟩

end FirstFault

/-! ## Drafts that fail -/

/-- The slots of a function that takes `arity` words. -/
structure SlotTable.Takes (arity : Nat) (t : SlotTable) : Prop extends t.HoldsWords arity where
  paramCount : t.paramCount = arity

theorem SlotTable.takes_ofParams (arity : Nat) :
    (SlotTable.ofParams (List.replicate arity .i32)).Takes arity where
  toHoldsWords := holdsWords_ofParams
  paramCount := by simp [SlotTable.ofParams]

/-- From the slots of a function that takes `arity` words, the draft fails with just the errors in
`E`, and otherwise leaves such slots. -/
def Draft.FailsWith (arity : Nat) (E : CompileError → Prop) (x : Draft α) : Prop :=
  ∀ slots : SlotTable, slots.Takes arity →
    (∀ e, StateT.run x slots = .error e ↔ E e) ∧
      ∀ p, StateT.run x slots = .ok p → p.2.Takes arity

namespace Draft.FailsWith

variable {arity : Nat} {E : CompileError → Prop} {x : Draft α}

theorem congr {E' : CompileError → Prop} (h : FailsWith arity E x) (hiff : ∀ e, E e ↔ E' e) :
    FailsWith arity E' x :=
  fun slots hslots => ⟨fun e => ((h slots hslots).1 e).trans (hiff e), (h slots hslots).2⟩

theorem pure {r : α} : FailsWith arity (fun _ => False) (pure r) := by
  intro slots hslots
  refine ⟨fun e => ⟨nofun, False.elim⟩, ?_⟩
  intro p hp
  cases hp
  exact hslots

theorem bind {E' : CompileError → Prop} {f : α → Draft β} (hx : FailsWith arity E x)
    (hf : ∀ r, FailsWith arity E' (f r)) :
    FailsWith arity (fun e => E e ∨ (∀ e', ¬ E e') ∧ E' e) (x >>= f) := by
  intro slots hslots
  rcases hx slots hslots with ⟨herror, hok⟩
  have hrun : StateT.run (x >>= f) slots =
      StateT.run x slots >>= fun p => StateT.run (f p.1) p.2 := rfl
  rw [hrun]
  -- a draft that fails does so with one error, so the second part is reached only if `E` is empty
  cases hfirst : StateT.run x slots with
  | error e₀ =>
      have he₀ : E e₀ := (herror e₀).1 hfirst
      refine ⟨fun e => ?_, nofun⟩
      have hsame : (Except.error e₀ : Except CompileError (β × SlotTable)) = .error e ↔ E e := by
        rw [← herror e, hfirst]
        simp
      exact hsame.trans ⟨.inl, fun h => h.elim id fun hnone => absurd he₀ (hnone.1 e₀)⟩
  | ok p =>
      have hnone : ∀ e, ¬ E e := by
        intro e he
        rw [← herror e, hfirst] at he
        cases he
      rcases hf p.1 p.2 (hok p hfirst) with ⟨herror', hok'⟩
      refine ⟨fun e => ?_, hok'⟩
      exact (herror' e).trans
        ⟨fun he => .inr ⟨hnone, he⟩, fun h => h.elim (absurd · (hnone e)) And.right⟩

/-- What follows a value that is only computed may depend on it. -/
theorem lift_bind {y : Except CompileError α} {f : α → Draft β} {E' : α → CompileError → Prop}
    (hf : ∀ r, y = .ok r → FailsWith arity (E' r) (f r)) :
    FailsWith arity (fun e => y = .error e ∨ ∃ r, y = .ok r ∧ E' r e) (liftM y >>= f) := by
  intro slots hslots
  cases y with
  | error e₀ =>
      have hrun : StateT.run ((liftM (Except.error e₀ : Except CompileError α) : Draft α) >>= f)
          slots = .error e₀ := rfl
      rw [hrun]
      exact ⟨fun e => by simp, nofun⟩
  | ok r =>
      have hrun : StateT.run ((liftM (Except.ok r : Except CompileError α) : Draft α) >>= f) slots =
          StateT.run (f r) slots := rfl
      rw [hrun]
      rcases hf r rfl slots hslots with ⟨herror, hok⟩
      exact ⟨fun e => by simp [herror e], hok⟩

end Draft.FailsWith

/-! ## Faults of instructions -/

/-- A slot has a fault if it is an argument beyond the last one. -/
def Slot.Fault (arity : Nat) (z : Slot) (e : CompileError) : Prop :=
  ∃ n, z = .arg n ∧ arity ≤ n.toNat ∧ e = .malformedOperand (.noSuchArgument n arity)

/-- What is wrong with a step of a sequence, in a body with the given branch targets. -/
inductive Emit.Fault (x : Setting) (arity : Nat) (targets : List UInt32) :
    Emit → CompileError → Prop
  | load {z : Slot} {e : CompileError} : z.Fault arity e → Fault x arity targets (.load z) e
  | store {z : Slot} {e : CompileError} : z.Fault arity e → Fault x arity targets (.store z) e
  | branch {target : UInt32} {conditional : Bool} : target ∉ targets →
      Fault x arity targets (.branch target conditional) (.controlFlow (.unscheduled target))
  | call {r : MethodRef} {e : CompileError} :
      x.callee r = .error e → Fault x arity targets (.call r) e

/-- What is wrong with an instruction: it has no sequence, or one with a fault. -/
def Instruction.Fault (x : Setting) (arity : Nat) (targets : List UInt32) (i : Instruction)
    (e : CompileError) : Prop :=
  x.select i = .error e ∨
    ∃ es, x.select i = .ok es ∧ FirstFault (Emit.Fault x arity targets) es e

section Instructions

variable {x : Setting} {arity : Nat} {c : Cursor}

theorem slot_failsWith (z : Slot) : Draft.FailsWith arity (z.Fault arity) (Draft.slot z) := by
  intro slots hslots
  have hrun : StateT.run (Draft.slot z) slots = slots.resolved z .i32 := rfl
  rw [hrun]
  constructor
  · intro e
    have hplaced : ∀ n : UInt16, slots.find? (.arg n) = none ↔ arity ≤ n.toNat := by
      intro n
      rw [← Nat.not_lt, ← hslots.arg n, Option.eq_none_iff_forall_ne_some, not_exists]
    constructor
    · intro he
      rcases SlotTable.resolved_eq_error_iff.1 he with ⟨slots', hr⟩
      rcases (SlotTable.resolve_error_cases hr).2 with ⟨place, hfind, hkind, -⟩ |
        ⟨n, rfl, hfind, rfl⟩
      · exact absurd (hslots.kind hfind) hkind
      · exact ⟨n, rfl, (hplaced n).1 hfind, by rw [hslots.paramCount]⟩
    · rintro ⟨n, rfl, hle, rfl⟩
      simp [SlotTable.resolved, SlotTable.resolve, (hplaced n).2 hle, hslots.paramCount, Except.map]
  · intro p hp
    have hr := SlotTable.resolved_eq_ok_iff.1 hp
    refine ⟨hslots.toHoldsWords.resolve hr, ?_⟩
    rcases SlotTable.resolve_cases hr with ⟨-, hsame⟩ | ⟨-, -, heq⟩
    · rw [hsame, hslots.paramCount]
    · rw [congrArg Prod.snd heq]
      exact hslots.paramCount

theorem reach_eq_error_iff {target : UInt32} {e : CompileError} :
    c.reach target = .error e ↔
      target ∉ c.schedule.targets ∧ e = .controlFlow (.unscheduled target) := by
  by_cases hmem : target ∈ c.schedule.targets
  · rcases reach_ok_iff.2 hmem with ⟨reach, hreach⟩
    simp [hreach, hmem]
  · have hnone : c.schedule.targets.idxOf? target = none := by simpa using hmem
    simp [Cursor.reach, Schedule.position, hnone, hmem, eq_comm]

theorem draft_failsWith (e : Emit) :
    Draft.FailsWith arity (e.Fault x arity c.schedule.targets) (e.draft x c) := by
  cases e with
  | op op =>
      exact Draft.FailsWith.pure.congr fun e => ⟨False.elim, nofun⟩
  | load z =>
      refine ((slot_failsWith z).bind fun i => .pure).congr fun e => ?_
      simp only [and_false, or_false]
      exact ⟨.load, fun h => by cases h; assumption⟩
  | store z =>
      refine ((slot_failsWith z).bind fun i => .pure).congr fun e => ?_
      simp only [and_false, or_false]
      exact ⟨.store, fun h => by cases h; assumption⟩
  | branch target conditional =>
      -- only the way to the target can be missing: the selector is no argument
      have hreach : Draft.FailsWith arity
          (fun e => c.reach target = .error e ∨ ∃ r, c.reach target = .ok r ∧ False)
          (Emit.draft x c (.branch target conditional)) := by
        refine Draft.FailsWith.lift_bind fun reach _ => ?_
        cases reach with
        | forward label =>
            exact .pure
        | backward resume label =>
            refine ((slot_failsWith .resumeSelector).bind fun i => .pure).congr fun e => ?_
            simp [Slot.Fault]
      refine hreach.congr fun e => ?_
      simp only [and_false, exists_false, or_false, reach_eq_error_iff]
      constructor
      · rintro ⟨hmem, rfl⟩
        exact .branch hmem
      · intro h
        cases h with
        | branch hmem =>
            exact ⟨hmem, rfl⟩
  | handle name =>
      exact Draft.FailsWith.pure.congr fun e => ⟨False.elim, nofun⟩
  | allocate =>
      exact Draft.FailsWith.pure.congr fun e => ⟨False.elim, nofun⟩
  | call r =>
      have hcallee : Draft.FailsWith arity
          (fun e => x.callee r = .error e ∨ ∃ callee, x.callee r = .ok callee ∧ False)
          (Emit.draft x c (.call r)) :=
        Draft.FailsWith.lift_bind fun callee _ => .pure
      refine hcallee.congr fun e => ?_
      simp only [and_false, exists_false, or_false]
      exact ⟨.call, fun h => by cases h; assumption⟩

theorem draftAll_failsWith (es : List Emit) :
    Draft.FailsWith arity (FirstFault (Emit.Fault x arity c.schedule.targets) es)
      (draftAll x c es) := by
  induction es with
  | nil =>
      exact Draft.FailsWith.pure.congr fun e => firstFault_nil_iff.symm
  | cons e es ih =>
      refine ((draft_failsWith e).bind fun named => ih.bind fun rest => .pure).congr fun e => ?_
      simp only [firstFault_cons_iff, and_false, or_false]

theorem draftInstructions_failsWith (is : List Instruction) :
    Draft.FailsWith arity (FirstFault (Instruction.Fault x arity c.schedule.targets) is)
      (draftInstructions x c is) := by
  -- the cursor moves on with every instruction, but its schedule stays the same
  induction is generalizing c with
  | nil =>
      exact Draft.FailsWith.pure.congr fun e => firstFault_nil_iff.symm
  | cons i is ih =>
      have hrest : ∀ es, Draft.FailsWith arity _ (draftAll x (c.advance i.offset) es >>= _) :=
        fun es => (draftAll_failsWith es).bind fun named =>
          (ih (c := c.advance i.offset)).bind fun rest =>
            Draft.FailsWith.pure (r := (List.replicate (c.closing i.offset) Wasm.Op.close).map
              NamedOp.plain ++ named ++ rest)
      refine (Draft.FailsWith.lift_bind fun es _ => hrest es).congr fun e => ?_
      have hsame : (c.advance i.offset).schedule = c.schedule := rfl
      simp only [firstFault_cons_iff, hsame, and_false, or_false, Instruction.Fault]
      cases x.select i <;> simp

end Instructions

/-! ## Faults of methods -/

/-- What is wrong with a body: it cannot be structured, or one of its instructions has a fault. -/
def MethodBody.Fault (x : Setting) (arity : Nat) (body : MethodBody) (e : CompileError) : Prop :=
  body.instructions ≠ [] ∧
    (Schedule.analyze body = .error e ∨
      ∃ s, Schedule.analyze body = .ok s ∧
        FirstFault (Instruction.Fault x arity s.targets) body.instructions e)

/-- What is wrong with a method of `declaring`: its types, the number of its parameters if it only
forwards to the host, or its body. -/
inductive MethodDef.Fault (x : Setting) (o : Options) (declaring : TypeName) (m : MethodDef) :
    CompileError → Prop
  | signature {e : CompileError} : methodSignature m = .error e → Fault x o declaring m e
  | arity : m.HasWords → o.isInterop (m.ref declaring).fullName →
      Tables.maxInteropArgs < m.arity → Fault x o declaring m
        (.arityExceeded (m.ref declaring).fullName m.arity Tables.maxInteropArgs)
  | body {body : MethodBody} {e : CompileError} : m.HasWords →
      o.isInterop (m.ref declaring).fullName = false → m.body = some body →
      body.Fault x m.arity e → Fault x o declaring m e

section Methods

variable {x : Setting} {o : Options} {declaring : TypeName} {m : MethodDef} {e : CompileError}

theorem draftDispatch_failsWith (arity size : Nat) :
    Draft.FailsWith arity (fun _ => False) (draftDispatch size) := by
  unfold draftDispatch
  split
  · exact .pure
  · refine ((slot_failsWith .resumeSelector).bind fun i => .pure).congr fun e => ?_
    simp [Slot.Fault]

theorem draftBody_failsWith (arity : Nat) (hasResult : Bool) (body : MethodBody) :
    Draft.FailsWith arity (body.Fault x arity) (draftBody x hasResult body) := by
  unfold draftBody MethodBody.Fault
  -- an empty body is not even analysed
  by_cases hempty : body.instructions = []
  · rw [if_pos (by simp [hempty])]
    exact Draft.FailsWith.pure.congr fun e => by simp [hempty]
  · rw [if_neg (by simp [hempty])]
    have hcode : ∀ s : Schedule, Draft.FailsWith arity _ (draftDispatch s.size >>= _) :=
      fun s => (draftDispatch_failsWith arity s.size).bind fun table =>
        (draftInstructions_failsWith (x := x) (c := { schedule := s }) body.instructions).bind
          fun code => Draft.FailsWith.pure (r :=
            (Wasm.Op.loop :: List.replicate s.size .block).map NamedOp.plain ++ table ++ code ++
              (Wasm.Op.close :: epilogue hasResult).map NamedOp.plain)
    refine (Draft.FailsWith.lift_bind fun s _ => hcode s).congr fun e => ?_
    simp [hempty]

theorem map_eq_error_iff {y : Except CompileError α} (g : α → β) :
    (y >>= fun r => pure (g r)) = .error e ↔ y = .error e := by
  cases y with
  | error e₀ =>
      exact ⟨fun h => by cases h; rfl, fun h => by cases h; rfl⟩
  | ok r =>
      exact ⟨nofun, nofun⟩

/-- The operators of a method with a signature cannot be drafted if it forwards too many arguments
to the host, or if its body has a fault. -/
theorem draftCode_eq_error_iff {fullName : String} {signature : Wasm.Signature}
    (h : methodSignature m = .ok signature) :
    draftCode x o fullName signature m = .error e ↔
      (o.isInterop fullName ∧ Tables.maxInteropArgs < m.arity ∧
        e = .arityExceeded fullName m.arity Tables.maxInteropArgs) ∨
      (o.isInterop fullName = false ∧ ∃ body, m.body = some body ∧ body.Fault x m.arity e) := by
  have hparams := params_of_methodSignature h
  have hlength : signature.params.length = m.arity := by
    rw [hparams, List.length_replicate]
  unfold draftCode
  cases hinterop : o.isInterop fullName with
  | true =>
      by_cases hmany : m.arity > Tables.maxInteropArgs <;> simp [hlength, hmany, eq_comm]
  | false =>
      cases hbody : m.body with
      | none =>
          simp
      | some body =>
          have hslots : (SlotTable.ofParams signature.params).Takes m.arity :=
            hparams ▸ SlotTable.takes_ofParams m.arity
          have hdraft := (draftBody_failsWith (x := x) m.arity signature.result.isSome body
            _ hslots).1 e
          simpa using hdraft

/-- A method cannot be drafted for just the faults that it has. -/
theorem draftMethod_eq_error_iff :
    draftMethod x o declaring m = .error e ↔ m.Fault x o declaring e := by
  have hwords : (∃ signature, methodSignature m = .ok signature) ↔ m.HasWords :=
    methodSignature_ok_iff
  -- without a signature neither the arguments nor the body are looked at
  unfold draftMethod
  cases hsignature : methodSignature m with
  | error e₀ =>
      have hnot : ¬ m.HasWords := by
        rw [← hwords, hsignature]
        simp
      constructor
      · intro h
        cases h
        exact .signature hsignature
      · intro h
        cases h with
        | signature he =>
            cases hsignature.symm.trans he
            rfl
        | arity hm =>
            exact absurd hm hnot
        | body hm =>
            exact absurd hm hnot
  | ok signature =>
      have hm : m.HasWords := hwords.1 ⟨signature, hsignature⟩
      have hcode : draftCode x o (m.ref declaring).fullName signature m = .error e ↔ _ :=
        draftCode_eq_error_iff hsignature
      refine (map_eq_error_iff _).trans (hcode.trans ?_)
      constructor
      · rintro (⟨hinterop, hmany, rfl⟩ | ⟨hinterop, body, hbody, hfault⟩)
        · exact .arity hm hinterop hmany
        · exact .body hm hinterop hbody hfault
      · intro h
        cases h with
        | signature he =>
            cases hsignature.symm.trans he
        | arity _ hinterop hmany =>
            exact .inl ⟨hinterop, hmany, rfl⟩
        | body _ hinterop hbody hfault =>
            exact .inr ⟨hinterop, _, hbody, hfault⟩

end Methods

/-! ## Failing builds -/

/-- The full name of a method with its declaring type. -/
abbrev nameOf (tm : TypeDef × MethodDef) : String := (tm.2.ref tm.1.name).fullName

/-- What stops a build at a method behind functions of the names `defined`: a fault of the method,
or else its name, which is taken. -/
def Assembly.StopsAt (a : Assembly) (o : Options) (defined : List String) (t : TypeDef)
    (m : MethodDef) (e : CompileError) : Prop :=
  m.Fault (a.setting o) o t.name e ∨
    (∀ e', ¬ m.Fault (a.setting o) o t.name e') ∧ nameOf (t, m) ∈ defined ∧
      e = .duplicateFunction (nameOf (t, m))

/-- A build comes to the method `m` of `t` behind the methods `before`: all of those can be
compiled, and no name comes twice among them. -/
structure Assembly.ComesTo (a : Assembly) (o : Options) (before : List (TypeDef × MethodDef))
    (t : TypeDef) (m : MethodDef) : Prop where
  order : before ++ [(t, m)] <+: a.methods
  sound : ∀ tm ∈ before, ∀ e, ¬ tm.2.Fault (a.setting o) o tm.1.name e
  names : (before.map nameOf).Nodup

section Builds

variable {a : Assembly} {o : Options} {defined : List String} {t : TypeDef} {m : MethodDef}
  {e : CompileError}

theorem draftNext_eq_error_iff :
    draftNext (a.setting o) o defined t.name m = .error e ↔ a.StopsAt o defined t m e := by
  unfold draftNext Assembly.StopsAt
  simp only [← draftMethod_eq_error_iff]
  cases hdraft : draftMethod (a.setting o) o t.name m with
  | error e₀ =>
      simp [bind, Except.bind]
  | ok f =>
      have hname : f.name = nameOf (t, m) := ((draftMethod_proper t.name m).holds hdraft).1
      by_cases htaken : nameOf (t, m) ∈ defined
      · simp [bind, Except.bind, hname, htaken, throw, throwThe, MonadExceptOf.throw, eq_comm]
      · simp [bind, Except.bind, hname, htaken, pure, Except.pure]

/-- A method stops nothing if it has no fault and its name is not taken. -/
theorem not_stopsAt_iff :
    (∀ e, ¬ a.StopsAt o defined t m e) ↔
      (∀ e, ¬ m.Fault (a.setting o) o t.name e) ∧ nameOf (t, m) ∉ defined := by
  constructor
  · intro h
    have hsound : ∀ e, ¬ m.Fault (a.setting o) o t.name e := fun e hfault => h e (.inl hfault)
    exact ⟨hsound, fun htaken => h _ (.inr ⟨hsound, htaken, rfl⟩)⟩
  · rintro ⟨hsound, hname⟩ e (hfault | ⟨-, htaken, -⟩)
    · exact hsound e hfault
    · exact hname htaken

/-- Drafting stops at the first of some methods, or behind it. -/
theorem draftMethods_cons_eq_error_iff {ms : List (TypeDef × MethodDef)} {failure : Failure} :
    draftMethods (a.setting o) o defined ((t, m) :: ms) = .error failure ↔
      (∃ e, a.StopsAt o defined t m e ∧
        failure = ⟨[.compilingMethod (nameOf (t, m))], .compile e⟩) ∨
      ((∀ e, ¬ a.StopsAt o defined t m e) ∧
        draftMethods (a.setting o) o (defined ++ [nameOf (t, m)]) ms = .error failure) := by
  simp only [← draftNext_eq_error_iff]
  cases hnext : draftNext (a.setting o) o defined t.name m with
  | error e =>
      simp [draftMethods_cons_error hnext, eq_comm]
  | ok f =>
      have hname : f.name = nameOf (t, m) :=
        ((draftMethod_proper t.name m).holds (draftNext_ok_iff.1 hnext).1).1
      rw [draftMethods_cons_ok hnext, hname]
      cases draftMethods (a.setting o) o (defined ++ [nameOf (t, m)]) ms <;>
        simp [Functor.map, Except.map]

/-- Drafting stops at the first method that has a fault or a name that is taken. -/
theorem draftMethods_eq_error_iff {ms : List (TypeDef × MethodDef)} {failure : Failure} :
    draftMethods (a.setting o) o defined ms = .error failure ↔
      ∃ before t m e, before ++ [(t, m)] <+: ms ∧
        (∀ tm ∈ before, ∀ e', ¬ tm.2.Fault (a.setting o) o tm.1.name e') ∧
        (before.map nameOf).Nodup ∧ (∀ tm ∈ before, nameOf tm ∉ defined) ∧
        a.StopsAt o (defined ++ before.map nameOf) t m e ∧
        failure = ⟨[.compilingMethod (nameOf (t, m))], .compile e⟩ := by
  -- the names that are taken grow by one with every method, up to the one where drafting stops
  induction ms generalizing defined with
  | nil =>
      refine iff_of_false nofun ?_
      rintro ⟨before, t, m, e, hfront, -⟩
      simpa using hfront.length_le
  | cons tm ms ih =>
      rcases tm with ⟨t, m⟩
      rw [draftMethods_cons_eq_error_iff, ih, not_stopsAt_iff]
      constructor
      · rintro (⟨e, hstops, rfl⟩ | ⟨⟨hsound, hnew⟩, before, t', m', e, hfront, hbefore, hnodup,
          hnames, hstops, rfl⟩)
        · exact ⟨[], t, m, e, by simp, by simp, by simp, by simp, by simpa using hstops, rfl⟩
        · have hfirst : nameOf (t, m) ∉ before.map nameOf := by
            intro hmem
            rcases List.mem_map.1 hmem with ⟨tm, htm, heq⟩
            exact hnames tm htm (by simp [heq])
          refine ⟨(t, m) :: before, t', m', e, by simpa using hfront, ?_, ?_, ?_,
            by simpa using hstops, rfl⟩
          · exact List.forall_mem_cons.2 ⟨hsound, hbefore⟩
          · exact List.nodup_cons.2 ⟨hfirst, hnodup⟩
          · exact List.forall_mem_cons.2 ⟨hnew, fun tm htm hmem => hnames tm htm (by simp [hmem])⟩
      · rintro ⟨before, t', m', e, hfront, hbefore, hnodup, hnames, hstops, rfl⟩
        cases before with
        | nil =>
            have hhead : t' = t ∧ m' = m := by simpa using hfront
            rcases hhead with ⟨rfl, rfl⟩
            exact .inl ⟨e, by simpa using hstops, rfl⟩
        | cons tm before =>
            rcases List.cons_prefix_cons.1 hfront with ⟨rfl, hrest⟩
            rcases List.nodup_cons.1 hnodup with ⟨hfirst, hnodup'⟩
            rcases List.forall_mem_cons.1 hbefore with ⟨hsound, hbefore'⟩
            rcases List.forall_mem_cons.1 hnames with ⟨hnew, hnames'⟩
            refine .inr ⟨⟨hsound, hnew⟩, before, t', m', e, hrest, hbefore', hnodup', ?_,
              by simpa using hstops, rfl⟩
            intro tm htm hmem
            rcases List.mem_append.1 hmem with hmem | hmem
            · exact hnames' tm htm hmem
            · exact hfirst (List.mem_singleton.1 hmem ▸ List.mem_map_of_mem htm)

/-- A build fails at the first method that has a fault, or whose name one before it has. -/
theorem build_error_iff {failure : Failure} :
    build a o = .error failure ↔
      ∃ before t m e, a.ComesTo o before t m ∧ a.StopsAt o (before.map nameOf) t m e ∧
        failure = ⟨[.compilingMethod (nameOf (t, m))], .compile e⟩ := by
  have hdrafts : build a o = .error failure ↔
      draftMethods (a.setting o) o [] a.methods = .error failure := by
    rcases build_drafted a o with ⟨fs, image, hdrafts, hbuild, -⟩ | ⟨failure', hdrafts, hbuild⟩
    · rw [hdrafts, hbuild]
      exact ⟨nofun, nofun⟩
    · rw [hdrafts, hbuild]
      simp
  rw [hdrafts, draftMethods_eq_error_iff]
  constructor
  · rintro ⟨before, t, m, e, hfront, hsound, hnames, -, hstops, hfailure⟩
    exact ⟨before, t, m, e, ⟨hfront, hsound, hnames⟩, by simpa using hstops, hfailure⟩
  · rintro ⟨before, t, m, e, hcomes, hstops, hfailure⟩
    exact ⟨before, t, m, e, hcomes.order, hcomes.sound, hcomes.names, by simp,
      by simpa using hstops, hfailure⟩

end Builds

/-! ## What a fault says -/

section Causes

variable {a : Assembly} {o : Options} {headerSize : UInt32} {arity : Nat} {i : Instruction}
  {e : CompileError}

/-- A jump has no targets if its operand has another shape than the opcode asks for. -/
theorem targetsOf_eq_error (h : Schedule.targetsOf i = .error e) :
    e = .malformedOperand (.noTarget i.opcode i.operand) ∧
      i.operand.kind ≠ i.opcode.operandKind := by
  rcases i with ⟨offset, opcode, operand⟩
  unfold Schedule.targetsOf at h
  by_cases hbranch : opcode.isBranch
  · have hkind : opcode.operandKind = .target := by
      simp only [Opcode.isBranch, Bool.and_eq_true, beq_iff_eq] at hbranch
      exact hbranch.1.1
    rw [if_pos hbranch] at h
    cases operand <;> cases h <;> simp [Operand.kind, hkind]
  · rw [if_neg hbranch] at h
    by_cases hswitch : opcode = .switch
    · rw [if_pos hswitch] at h
      have hkind : opcode.operandKind = .targets := by
        rw [hswitch]
        rfl
      cases operand <;> cases h <;> simp [Operand.kind, hkind]
    · rw [if_neg hswitch] at h
      cases h

theorem collect_eq_error {found : List UInt32} {is : List Instruction}
    (h : Schedule.collect found is = .error e) : ∃ i ∈ is, Schedule.targetsOf i = .error e := by
  induction is generalizing found with
  | nil =>
      cases h
  | cons i is ih =>
      unfold Schedule.collect at h
      cases hi : Schedule.targetsOf i with
      | error e' =>
          rw [hi] at h
          cases h
          exact ⟨i, by simp, hi⟩
      | ok ts =>
          rw [hi] at h
          rcases ih h with ⟨j, hj, hfault⟩
          exact ⟨j, by simp [hj], hfault⟩

/-- A body cannot be structured for its control flow, or for a jump without targets. -/
theorem analyze_eq_error {body : MethodBody} (h : Schedule.analyze body = .error e) :
    (∃ fault, e = .controlFlow fault) ∨
      ∃ i ∈ body.instructions, Schedule.targetsOf i = .error e := by
  unfold Schedule.analyze at h
  split at h
  · cases h
    exact .inl ⟨_, rfl⟩
  · split at h
    · cases h
      exact .inl ⟨_, rfl⟩
    · split at h
      · next e' hcollect =>
        cases h
        exact .inr (collect_eq_error hcollect)
      · split at h <;> cases h
        exact .inl ⟨_, rfl⟩

theorem callee_eq_error {r : MethodRef} (h : a.callee o r = .error e) :
    ∃ identifier, e = .unresolvedImport identifier := by
  unfold Assembly.callee at h
  split at h
  · cases h
  · split at h <;> cases h
    exact ⟨_, rfl⟩

/-- A step of a sequence fails for an argument that is not there, for its target or for its
callee. -/
theorem Emit.Fault.cases {targets : List UInt32} {step : Emit}
    (h : step.Fault (a.setting o) arity targets e) :
    (∃ n : UInt16, arity ≤ n.toNat ∧ e = .malformedOperand (.noSuchArgument n arity)) ∨
      (∃ fault, e = .controlFlow fault) ∨ ∃ identifier, e = .unresolvedImport identifier := by
  cases h with
  | load hz =>
      rcases hz with ⟨n, -, hle, rfl⟩
      exact .inl ⟨n, hle, rfl⟩
  | store hz =>
      rcases hz with ⟨n, -, hle, rfl⟩
      exact .inl ⟨n, hle, rfl⟩
  | branch _ =>
      exact .inr (.inl ⟨_, rfl⟩)
  | call hr =>
      exact .inr (.inr (callee_eq_error hr))

theorem boundedOffset_eq_error {r : FieldRef} {n : Nat} (h : boundedOffset r n = .error e) :
    e = .offsetOverflow r := by
  unfold boundedOffset at h
  split at h <;> cases h
  rfl

theorem offsetBehind_eq_error {r : FieldRef} {offset : UInt32} {fs : List FieldDef}
    (h : offsetBehind r offset fs = .error e) :
    (∃ type, e = .unsupportedType type) ∨ e = .offsetOverflow r := by
  induction fs generalizing offset with
  | nil =>
      cases h
  | cons f fs ih =>
      unfold offsetBehind at h
      split at h
      · exact ih h
      · split at h
        · next e' hkind =>
          cases h
          exact .inl ⟨f.type, valueKind_error hkind⟩
        · split at h
          · next e' hnext =>
            cases h
            exact .inr (boundedOffset_eq_error hnext)
          · exact ih h

/-- A field has no offset if it cannot be found, if it belongs to no object, if it or one before it
holds no word, or if it lies too far from the start. -/
theorem fieldOffset_eq_error {r : FieldRef} (h : fieldOffset a headerSize r = .error e) :
    e = .unresolvedField r ∨
      (e = .malformedOperand (.staticField r) ∧
        ∃ t f, a.findType r.declaring = some t ∧ t.findField r.name = some f ∧ f.isStatic) ∨
      (∃ type, e = .unsupportedType type) ∨ e = .offsetOverflow r := by
  unfold fieldOffset at h
  split at h
  · cases h
    exact .inl rfl
  · next t htype =>
    split at h
    · cases h
      exact .inl rfl
    · next f hfield =>
      split at h
      · next hstatic =>
        cases h
        exact .inr (.inl ⟨rfl, t, f, htype, hfield, hstatic⟩)
      · split at h
        · next e' hkind =>
          cases h
          exact .inr (.inr (.inl ⟨f.type, valueKind_error hkind⟩))
        · split at h
          · exact .inr (.inr (.inr (boundedOffset_eq_error h)))
          · exact .inr (.inr (offsetBehind_eq_error h))

/-- Selection fails for the opcode, for the shape of the operand, or for a field. -/
theorem select_eq_error (h : select a headerSize i = .error e) :
    e = .unsupportedInstruction i.opcode ∨
      (e = .malformedOperand (.wrongShape i.opcode i.offset) ∧
        i.operand.kind ≠ i.opcode.operandKind) ∨
      ∃ r, i.opcode ∈ [.ldfld, .stfld] ∧ i.operand = .field r ∧
        fieldOffset a headerSize r = .error e := by
  by_cases hkind : i.opcode.action.operandKind ≠ .empty →
      i.operand.kind = i.opcode.action.operandKind
  · have hfield : i.opcode ∈ [.ldfld, .stfld] ↔ _ := mem_field_opcodes_iff
    rcases i with ⟨offset, opcode, operand⟩
    unfold select at h
    simp only at h hkind hfield ⊢
    rw [hfield]
    generalize opcode.action = action at h hkind ⊢
    cases action with
    | fixed ops | load slot | store slot | duplicate =>
        cases h
    | loadArg | storeArg =>
        cases operand with
        | arg n => cases h
        | _ => cases hkind nofun
    | loadLocal | storeLocal =>
        cases operand with
        | loc n => cases h
        | _ => cases hkind nofun
    | constant =>
        cases operand with
        | int32 value => cases h
        | _ => cases hkind nofun
    | branch test conditional =>
        cases operand with
        | target t => cases h
        | _ => cases hkind nofun
    | switch =>
        cases operand with
        | targets ts => cases h
        | _ => cases hkind nofun
    | call | construct =>
        cases operand with
        | method r => cases h
        | _ => cases hkind nofun
    | loadField | storeField =>
        cases operand with
        | field r => exact .inr (.inr ⟨r, by simp, rfl, (map_eq_error_iff _).1 h⟩)
        | _ => cases hkind nofun
    | unsupported =>
        cases h
        exact .inl rfl
  · -- the opcode is one that is translated, so it asks for the operand that its action works on
    have hne := Classical.not_imp.1 hkind
    have hsupported : i.opcode.action ≠ .unsupported := by
      intro heq
      rw [heq] at hne
      exact hne.1 rfl
    rw [select_of_kind_ne hne.1 hne.2] at h
    cases h
    exact .inr (.inl ⟨rfl, operandKind_eq hsupported ▸ hne.2⟩)

/-- The access to a field fails as its offset does. -/
theorem select_field_eq_error_iff {r : FieldRef} (hopcode : i.opcode ∈ [.ldfld, .stfld])
    (hoperand : i.operand = .field r) :
    select a headerSize i = .error e ↔ fieldOffset a headerSize r = .error e := by
  unfold select
  rcases mem_field_opcodes_iff.1 hopcode with haction | haction <;> rw [haction, hoperand] <;>
    exact map_eq_error_iff _

/-- The translation of a method of `declaring` comes to the instruction `i`: the body can be
structured, and no instruction before `i` has a fault. -/
structure MethodDef.ComesTo (x : Setting) (o : Options) (declaring : TypeName) (m : MethodDef)
    (i : Instruction) : Prop where
  words : m.HasWords
  translated : o.isInterop (m.ref declaring).fullName = false
  reached : ∃ body s before, m.body = some body ∧ Schedule.analyze body = .ok s ∧
    before ++ [i] <+: body.instructions ∧ ∀ j ∈ before, ∀ e, ¬ j.Fault x m.arity s.targets e

variable {declaring : TypeName} {m : MethodDef}

theorem MethodDef.ComesTo.fault {x : Setting} (h : m.ComesTo x o declaring i)
    (hselect : x.select i = .error e) : m.Fault x o declaring e := by
  rcases h.reached with ⟨body, s, before, hbody, hs, horder, hbefore⟩
  have hne : body.instructions ≠ [] := by
    rintro heq
    rw [heq] at horder
    simpa using horder.length_le
  exact .body h.words h.translated hbody
    ⟨hne, .inr ⟨s, hs, firstFault_iff.2 ⟨before, i, horder, hbefore, .inl hselect⟩⟩⟩

/-- Everything that can be wrong with a method: its types, the number of its parameters, its control
flow, the operand of a jump, an instruction without a sequence, an argument, or a callee. -/
theorem MethodDef.Fault.cases (h : m.Fault (a.setting o) o declaring e) :
    (∃ type, e = .unsupportedType type) ∨
      (∃ name count limit, e = .arityExceeded name count limit) ∨
      (∃ fault, e = .controlFlow fault) ∨
      (∃ body ∈ m.body, ∃ i ∈ body.instructions, Schedule.targetsOf i = .error e) ∨
      (∃ i, m.ComesTo (a.setting o) o declaring i ∧ select a o.headerSize i = .error e) ∨
      (∃ n : UInt16, m.arity ≤ n.toNat ∧ e = .malformedOperand (.noSuchArgument n m.arity)) ∨
      ∃ identifier, e = .unresolvedImport identifier := by
  cases h with
  | signature hsignature =>
      exact .inl (methodSignature_error hsignature)
  | arity =>
      exact .inr (.inl ⟨_, _, _, rfl⟩)
  | @body body _ hwords htranslated hbody hfault =>
      rcases hfault with ⟨-, hanalyze | ⟨s, hs, hfirst⟩⟩
      · rcases analyze_eq_error hanalyze with hflow | ⟨i, hi, htargets⟩
        · exact .inr (.inr (.inl hflow))
        · exact .inr (.inr (.inr (.inl ⟨body, hbody, i, hi, htargets⟩)))
      · rcases firstFault_iff.1 hfirst with ⟨before, i, horder, hbefore, hselect | ⟨es, -, hes⟩⟩
        · exact .inr (.inr (.inr (.inr (.inl
            ⟨i, ⟨hwords, htranslated, body, s, before, hbody, hs, horder, hbefore⟩, hselect⟩))))
        · rcases hes.exists_mem with ⟨step, -, hstep⟩
          rcases hstep.cases with harg | hflow | hcallee
          · exact .inr (.inr (.inr (.inr (.inr (.inl harg)))))
          · exact .inr (.inr (.inl hflow))
          · exact .inr (.inr (.inr (.inr (.inr (.inr hcallee)))))

end Causes

end CilCompiler
