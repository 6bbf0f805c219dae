import CilCompiler.Proofs.DraftOutcomes

/-!
# Relabelled bodies

The offsets of a body only say in which order its instructions stand and which of them its jumps
mean. Other offsets in the same order give the same code.

* `MethodBody.relabel` replaces the offsets of a body, and `MethodBody.Mentions` are those that
  matter.
* `analyze_relabel` says that the schedule is relabelled with the body, `reach_relabel` that the
  ways to its targets stay the same.
* `Linker.Alike` relates two steps that differ in nothing but what they report.
* `lowerBody_relabel` says that a relabelled body is lowered to the same operators.
-/

namespace CilCompiler

/-! ## Other offsets -/

section Relabel

variable (f : UInt32 → UInt32)

def Operand.relabel : Operand → Operand
  | .target t => .target (f t)
  | .targets ts => .targets (ts.map f)
  | operand => operand

def Instruction.relabel (i : Instruction) : Instruction :=
  { i with offset := f i.offset, operand := i.operand.relabel f }

/-- The body with other offsets, at its instructions as well as in its jumps. -/
def MethodBody.relabel (body : MethodBody) : MethodBody :=
  { body with instructions := body.instructions.map (·.relabel f) }

def Schedule.relabel (s : Schedule) : Schedule :=
  ⟨s.targets.map f⟩

def Cursor.relabel (c : Cursor) : Cursor :=
  { schedule := c.schedule.relabel f, next := c.next }

def Emit.relabel : Emit → Emit
  | .branch target conditional => .branch (f target) conditional
  | e => e

end Relabel

/-- An offset that matters in a body: that of an instruction, or one to which it jumps. -/
def MethodBody.Mentions (body : MethodBody) (p : UInt32) : Prop :=
  p ∈ offsets body.instructions ∨ ∃ i ∈ body.instructions, i.JumpsTo p

/-- Keeps the order of all offsets with the property `P`. -/
def KeepsOrder (f : UInt32 → UInt32) (P : UInt32 → Prop) : Prop :=
  ∀ p q, P p → P q → p < q → f p < f q

section Order

variable {f : UInt32 → UInt32} {P : UInt32 → Prop} {p q : UInt32}

theorem KeepsOrder.lt_iff (h : KeepsOrder f P) (hp : P p) (hq : P q) : f p < f q ↔ p < q := by
  refine ⟨fun hlt => ?_, h p q hp hq⟩
  rcases UInt32.lt_or_eq_of_le (UInt32.not_lt.1 fun hqp => UInt32.lt_asymm hlt (h q p hq hp hqp))
    with hpq | rfl
  · exact hpq
  · exact absurd hlt (UInt32.lt_irrefl _)

theorem KeepsOrder.le_iff (h : KeepsOrder f P) (hp : P p) (hq : P q) : f p ≤ f q ↔ p ≤ q := by
  rw [← UInt32.not_lt, ← UInt32.not_lt, h.lt_iff hq hp]

theorem KeepsOrder.eq_iff (h : KeepsOrder f P) (hp : P p) (hq : P q) : f p = f q ↔ p = q := by
  refine ⟨fun heq => ?_, congrArg f⟩
  have hle : p ≤ q := (h.le_iff hp hq).1 (heq ▸ UInt32.le_refl _)
  have hge : q ≤ p := (h.le_iff hq hp).1 (heq ▸ UInt32.le_refl _)
  exact UInt32.le_antisymm hle hge

/-- The order of ascending offsets is kept if their images ascend. -/
theorem keepsOrder_of_pairwise {ts : List UInt32} (hts : ts.Pairwise (· < ·))
    (hmap : (ts.map f).Pairwise (· < ·)) : KeepsOrder f (· ∈ ts) := by
  induction ts with
  | nil =>
      exact fun p q hp => nomatch hp
  | cons t ts ih =>
      rcases List.pairwise_cons.1 hts with ⟨hfirst, hrest⟩
      rcases List.pairwise_cons.1 hmap with ⟨hfirst', hrest'⟩
      intro p q hp hq hlt
      rcases List.mem_cons.1 hp with rfl | hp'
      · rcases List.mem_cons.1 hq with rfl | hq'
        · exact absurd hlt (UInt32.lt_irrefl _)
        · exact hfirst' (f q) (List.mem_map_of_mem hq')
      · rcases List.mem_cons.1 hq with rfl | hq'
        · exact absurd hlt (UInt32.lt_asymm (hfirst p hp'))
        · exact ih hrest hrest' p q hp' hq' hlt

end Order

/-! ## Schedules -/

section Schedules

variable {f : UInt32 → UInt32} {body : MethodBody} {i : Instruction} {s : Schedule}

theorem offsets_relabel :
    offsets (body.relabel f).instructions = (offsets body.instructions).map f := by
  simp [MethodBody.relabel, Instruction.relabel, Function.comp_def]

theorem jumpsTo_relabel {q : UInt32} : (i.relabel f).JumpsTo q ↔ ∃ t, i.JumpsTo t ∧ f t = q := by
  rcases i with ⟨offset, opcode, operand⟩
  cases operand with
  | target t =>
      simp [Instruction.JumpsTo, Instruction.relabel, Operand.relabel, and_assoc]
  | targets ts =>
      simp [Instruction.JumpsTo, Instruction.relabel, Operand.relabel, and_assoc]
  | _ =>
      simp [Instruction.JumpsTo, Instruction.relabel, Operand.relabel]

theorem targetsOf_relabel_ok :
    (∃ ts, Schedule.targetsOf (i.relabel f) = .ok ts) ↔ ∃ ts, Schedule.targetsOf i = .ok ts := by
  rcases i with ⟨offset, opcode, operand⟩
  unfold Schedule.targetsOf Instruction.relabel
  by_cases hbranch : opcode.isBranch
  · rw [if_pos hbranch, if_pos hbranch]
    cases operand <;> simp [Operand.relabel]
  · rw [if_neg hbranch, if_neg hbranch]
    by_cases hswitch : opcode = .switch
    · rw [if_pos hswitch, if_pos hswitch]
      cases operand <;> simp [Operand.relabel]
    · rw [if_neg hswitch, if_neg hswitch]

theorem mentions_of_mem_targets (hs : Schedule.analyze body = .ok s) {t : UInt32}
    (ht : t ∈ s.targets) : body.Mentions t :=
  .inr ((Schedule.mem_targets hs).1 ht)

variable (hf : KeepsOrder f body.Mentions)

include hf

theorem pairwise_offsets_relabel :
    (offsets (body.relabel f).instructions).Pairwise (· < ·) ↔
      (offsets body.instructions).Pairwise (· < ·) := by
  rw [offsets_relabel, List.pairwise_map]
  exact List.Pairwise.iff_of_mem fun {p q} hp hq => hf.lt_iff (.inl hp) (.inl hq)

theorem jumps_relabel :
    (∀ i ∈ (body.relabel f).instructions, ∀ t, i.JumpsTo t →
        t ∈ offsets (body.relabel f).instructions) ↔
      ∀ i ∈ body.instructions, ∀ t, i.JumpsTo t → t ∈ offsets body.instructions := by
  rw [offsets_relabel]
  constructor
  · -- the images of a jump and of an offset agree only if the two did
    intro h i hi t ht
    have hmem := h (i.relabel f) (List.mem_map_of_mem hi) (f t) (jumpsTo_relabel.2 ⟨t, ht, rfl⟩)
    rcases List.mem_map.1 hmem with ⟨p, hp, heq⟩
    exact (hf.eq_iff (.inl hp) (.inr ⟨i, hi, ht⟩)).1 heq ▸ hp
  · intro h j hj q hq
    rcases List.mem_map.1 hj with ⟨i, hi, rfl⟩
    rcases jumpsTo_relabel.1 hq with ⟨t, ht, rfl⟩
    exact List.mem_map_of_mem (h i hi t ht)

theorem pairwise_targets_relabel (hs : Schedule.analyze body = .ok s) :
    (s.targets.map f).Pairwise (· < ·) := by
  refine List.pairwise_map.2 ((Schedule.analyze_ok hs).2.1.imp_of_mem ?_)
  intro p q hp hq
  exact hf p q (mentions_of_mem_targets hs hp) (mentions_of_mem_targets hs hq)

/-- A relabelled body can be structured if the body can, and then its schedule is relabelled. -/
theorem analyze_relabel :
    (Schedule.analyze (body.relabel f)).toOption =
      (Schedule.analyze body).toOption.map (Schedule.relabel f) := by
  have hiff : (∃ s, Schedule.analyze (body.relabel f) = .ok s) ↔
      ∃ s, Schedule.analyze body = .ok s := by
    rw [Schedule.analyze_ok_iff, Schedule.analyze_ok_iff, pairwise_offsets_relabel hf,
      jumps_relabel hf]
    simp [MethodBody.relabel, targetsOf_relabel_ok]
  cases hs : Schedule.analyze body with
  | error e =>
      cases hs' : Schedule.analyze (body.relabel f) with
      | error e' =>
          rfl
      | ok s' =>
          rcases hiff.1 ⟨s', hs'⟩ with ⟨s, hok⟩
          cases hs.symm.trans hok
  | ok s =>
      rcases hiff.2 ⟨s, hs⟩ with ⟨s', hs'⟩
      -- both schedules ascend, so it is enough that they have the same entries
      have htargets : s'.targets = s.targets.map f := by
        refine (Schedule.analyze_ok hs').2.1.eq_of_mem_iff (pairwise_targets_relabel hf hs) ?_
        intro q
        rw [Schedule.mem_targets hs', List.mem_map]
        simp only [MethodBody.relabel, List.mem_map, exists_exists_and_eq_and, jumpsTo_relabel,
          Schedule.mem_targets hs]
        constructor
        · rintro ⟨i, hi, t, ht, rfl⟩
          exact ⟨t, ⟨i, hi, ht⟩, rfl⟩
        · rintro ⟨t, ⟨i, hi, ht⟩, rfl⟩
          exact ⟨i, hi, t, ht, rfl⟩
      rw [hs']
      simp [Except.toOption, Schedule.relabel, ← htargets]

end Schedules

/-! ## Cursors -/

section Cursors

variable {f : UInt32 → UInt32} {P : UInt32 → Prop} {c : Cursor} {ts : List UInt32} {p t : UInt32}

theorem length_takeWhile_map (hf : KeepsOrder f P) (hts : ∀ t ∈ ts, P t) (hp : P p) :
    ((ts.map f).takeWhile (· ≤ f p)).length = (ts.takeWhile (· ≤ p)).length := by
  induction ts with
  | nil =>
      rfl
  | cons t ts ih =>
      rcases List.forall_mem_cons.1 hts with ⟨ht, hrest⟩
      by_cases hle : t ≤ p
      · simpa [(hf.le_iff ht hp).2 hle, hle] using ih hrest
      · simp [mt (hf.le_iff ht hp).1 hle, hle]

theorem idxOf?_map (hf : KeepsOrder f P) (hts : ∀ t ∈ ts, P t) (hp : P p) :
    (ts.map f).idxOf? (f p) = ts.idxOf? p := by
  induction ts with
  | nil =>
      rfl
  | cons t ts ih =>
      rcases List.forall_mem_cons.1 hts with ⟨ht, hrest⟩
      by_cases heq : t = p
      · simp [List.idxOf?_cons, heq]
      · simp [List.idxOf?_cons, mt (hf.eq_iff ht hp).1 heq, heq, ih hrest]

variable (hf : KeepsOrder f P) (hc : ∀ t ∈ c.schedule.targets, P t)

include hf hc

theorem closing_relabel (hp : P p) : (c.relabel f).closing (f p) = c.closing p := by
  have hdrop : ∀ t ∈ c.schedule.targets.drop c.next, P t :=
    fun t ht => hc t (List.mem_of_mem_drop ht)
  simpa [Cursor.closing, Cursor.relabel, Schedule.relabel, ← List.map_drop] using
    length_takeWhile_map hf hdrop hp

theorem advance_relabel (hp : P p) : (c.relabel f).advance (f p) = (c.advance p).relabel f := by
  unfold Cursor.advance
  rw [closing_relabel hf hc hp]
  rfl

/-- The way to a target does not change with the names of the offsets. -/
theorem reach_relabel (ht : t ∈ c.schedule.targets) : (c.relabel f).reach (f t) = c.reach t := by
  have hindex : (c.schedule.targets.map f).idxOf? (f t) = c.schedule.targets.idxOf? t :=
    idxOf?_map hf hc (hc t ht)
  cases hk : c.schedule.targets.idxOf? t with
  | none =>
      exact absurd ht (List.idxOf?_eq_none_iff.1 hk)
  | some k =>
      simp [Cursor.reach, Schedule.position, Cursor.relabel, Schedule.relabel, hindex, hk,
        Cursor.openRegions, Schedule.size]

end Cursors

/-! ## Sequences -/

section Sequences

variable {f : UInt32 → UInt32} {a : Assembly} {headerSize : UInt32} {i : Instruction}

theorem switchSequence_relabel (ts : List UInt32) :
    switchSequence (ts.map f) = (switchSequence ts).map (Emit.relabel f) := by
  simp [switchSequence, List.zipIdx_map, List.flatMap_map, List.map_flatMap, Emit.relabel]

theorem callSequence_relabel (m : MethodRef) :
    (callSequence m).map (Emit.relabel f) = callSequence m := by
  unfold callSequence
  split <;> rfl

theorem constructSequence_relabel (home : String) (m : MethodRef) :
    (constructSequence home m).map (Emit.relabel f) = constructSequence home m := by
  unfold constructSequence
  split <;> simp [Emit.relabel, Function.comp_def]

/-- An instruction and the relabelled one have the same sequence, up to the targets of jumps. -/
theorem select_relabel :
    (select a headerSize (i.relabel f)).toOption =
      (select a headerSize i).toOption.map (List.map (Emit.relabel f)) := by
  rcases i with ⟨offset, opcode, operand⟩
  unfold select Instruction.relabel
  simp only
  generalize opcode.action = action
  cases action with
  | fixed ops =>
      simp [Except.toOption, Emit.relabel]
  | load slot | store slot | duplicate | unsupported =>
      rfl
  | loadArg | storeArg | loadLocal | storeLocal | constant =>
      cases operand <;> rfl
  | branch test conditional =>
      cases operand with
      | target t =>
          simp [Operand.relabel, Except.toOption, Emit.relabel]
      | _ =>
          rfl
  | switch =>
      cases operand with
      | targets ts =>
          simp [Operand.relabel, Except.toOption, switchSequence_relabel]
      | _ =>
          rfl
  | call =>
      cases operand with
      | method m =>
          simp [Operand.relabel, Except.toOption, callSequence_relabel]
      | _ =>
          rfl
  | construct =>
      cases operand with
      | method m =>
          simp [Operand.relabel, Except.toOption, constructSequence_relabel]
      | _ =>
          rfl
  | loadField | storeField =>
      cases operand with
      | field r =>
          cases hoffset : fieldOffset a headerSize r <;> simp [Operand.relabel, hoffset] <;> rfl
      | _ =>
          rfl

end Sequences

/-! ## Runs that are alike -/

namespace Linker

variable {α β γ : Type}

theorem exec_bind (x : Linker α) (g : α → Linker β) (slots : SlotTable) (s : BuildState) :
    exec (x >>= g) slots s =
      match exec x slots s with
      | (.ok p, s₁) => exec (g p.1) p.2 s₁
      | (.error e, s₁) => (.error e, s₁) := by
  rcases hx : exec x slots s with ⟨outcome, s₁⟩
  have hrun : Build.run (StateT.run x slots) s = (outcome, s₁) := hx
  have hsplit : exec (x >>= g) slots s =
      Build.run (StateT.run x slots >>= fun p => StateT.run (g p.1) p.2) s := rfl
  rw [hsplit, Build.run_bind, hrun]
  cases outcome with
  | error e =>
      rfl
  | ok p =>
      rfl

/-- From the same slots and tables, both steps end with the same slots and tables, and with the same
result unless both fail. What they report may differ. -/
def Alike (x y : Linker α) : Prop :=
  ∀ slots s s', s.tables = s'.tables →
    (exec x slots s).1.toOption = (exec y slots s').1.toOption ∧
      (exec x slots s).2.tables = (exec y slots s').2.tables

theorem Alike.pure (r : α) : Alike (pure r) (pure r) :=
  fun _ _ _ htables => ⟨rfl, htables⟩

theorem Alike.bind {x y : Linker α} {g g' : α → Linker β} (h : Alike x y)
    (hg : ∀ r, Alike (g r) (g' r)) : Alike (x >>= g) (y >>= g') := by
  intro slots s s' htables
  rcases h slots s s' htables with ⟨hresult, htables₁⟩
  rw [exec_bind, exec_bind]
  rcases hx : exec x slots s with ⟨r, s₁⟩
  rcases hy : exec y slots s' with ⟨r', s₁'⟩
  rw [hx, hy] at hresult htables₁
  -- one of two alike runs does not fail alone
  cases r with
  | error e =>
      cases r' with
      | error e' =>
          exact ⟨rfl, htables₁⟩
      | ok p' =>
          cases hresult
  | ok p =>
      cases r' with
      | error e' =>
          cases hresult
      | ok p' =>
          cases hresult
          exact hg p.1 p.2 s₁ s₁' htables₁

theorem Alike.report (event event' : Event) :
    Alike (liftM (Build.report event)) (liftM (Build.report event')) :=
  fun _ _ _ htables => ⟨rfl, htables⟩

/-- What follows two values that are only computed may depend on how they are related. -/
theorem Alike.ofExcept_bind {x : Except CompileError α} {y : Except CompileError β} {k : α → β}
    {g : α → Linker γ} {g' : β → Linker γ} (hxy : y.toOption = x.toOption.map k)
    (hg : ∀ r, x = .ok r → Alike (g r) (g' (k r))) :
    Alike (liftM (Build.ofExcept x) >>= g) (liftM (Build.ofExcept y) >>= g') := by
  cases x with
  | error e =>
      cases y with
      | error e' =>
          exact fun _ _ _ htables => ⟨rfl, htables⟩
      | ok r' =>
          cases hxy
  | ok r =>
      cases y with
      | error e' =>
          cases hxy
      | ok r' =>
          cases hxy
          exact hg r rfl

theorem Alike.slot (z : Slot) : Alike (slot z) (slot z) := by
  intro slots s s' htables
  rw [exec_slot, exec_slot]
  cases slots.resolved z .i32 with
  | error e =>
      exact ⟨rfl, htables⟩
  | ok place =>
      exact ⟨rfl, htables⟩

/-- Steps of the build leave the slots as they are. -/
theorem Alike.lift {x : Build α}
    (h : ∀ s s', s.tables = s'.tables → (Build.run x s).1 = (Build.run x s').1 ∧
      (Build.run x s).2.tables = (Build.run x s').2.tables) :
    Alike (liftM x) (liftM x) := by
  intro slots s s' htables
  have hlift : ∀ s, exec (liftM x) slots s = Build.run (x >>= fun r => Pure.pure (r, slots)) s :=
    fun _ => rfl
  rcases h s s' htables with ⟨hresult, htables₁⟩
  rw [hlift, hlift, Build.run_bind, Build.run_bind]
  rcases hx : Build.run x s with ⟨r, s₁⟩
  rcases hy : Build.run x s' with ⟨r', s₁'⟩
  rw [hx, hy] at hresult htables₁
  cases hresult
  cases r with
  | error e =>
      exact ⟨rfl, htables₁⟩
  | ok r =>
      exact ⟨rfl, htables₁⟩

theorem Alike.global (name : String) :
    Alike (liftM (Build.global name)) (liftM (Build.global name)) := by
  refine .lift fun s s' htables => ?_
  rcases Build.run_global name s with ⟨log, hrun⟩
  rcases Build.run_global name s' with ⟨log', hrun'⟩
  rw [hrun, hrun', htables]
  exact ⟨rfl, rfl⟩

theorem Alike.callIndex (a : Assembly) (m : MethodRef) :
    Alike (liftM (Build.callIndex a m)) (liftM (Build.callIndex a m)) := by
  refine .lift fun s s' htables => ?_
  unfold Build.callIndex
  cases a.findMethod m with
  | some found =>
      rcases Build.run_reserve m.fullName s with ⟨log, hrun⟩
      rcases Build.run_reserve m.fullName s' with ⟨log', hrun'⟩
      simp only
      rw [hrun, hrun', htables]
      exact ⟨rfl, rfl⟩
  | none =>
      simp only [Build.run_bind, Build.run_get, htables]
      cases s'.tables.importIndex (Handle.methodIdentifier a.name m) with
      | error e =>
          exact ⟨rfl, htables⟩
      | ok index =>
          exact ⟨rfl, htables⟩

end Linker

/-! ## Lowering -/

section Lowering

open Linker (Alike)

variable {f : UInt32 → UInt32} {P : UInt32 → Prop} {a : Assembly} {headerSize : UInt32}
  {c : Cursor} {is : List Instruction}

/-- A step is linked alike at a relabelled cursor, if it jumps only to targets. -/
theorem link_relabel (hf : KeepsOrder f P) (hc : ∀ t ∈ c.schedule.targets, P t) {e : Emit}
    (he : ∀ t conditional, e = .branch t conditional → t ∈ c.schedule.targets) :
    Alike (e.link a c) ((e.relabel f).link a (c.relabel f)) := by
  cases e with
  | op op =>
      exact .pure _
  | load z =>
      exact (Alike.slot z).bind fun _ => .pure _
  | store z =>
      exact (Alike.slot z).bind fun _ => .pure _
  | branch t conditional =>
      have hreach : (c.relabel f).reach (f t) = c.reach t :=
        reach_relabel hf hc (he t conditional rfl)
      have hsame : ((c.relabel f).reach (f t)).toOption = (c.reach t).toOption.map id := by
        simp [hreach]
      refine Alike.ofExcept_bind hsame fun reach _ => ?_
      cases reach with
      | forward label =>
          exact .pure _
      | backward resume label =>
          exact (Alike.slot .resumeSelector).bind fun _ => .pure _
  | handle name =>
      exact (Alike.global name).bind fun _ => .pure _
  | allocate =>
      exact .pure _
  | call m =>
      exact (Alike.callIndex a m).bind fun _ => .pure _

theorem linkAll_relabel (hf : KeepsOrder f P) (hc : ∀ t ∈ c.schedule.targets, P t)
    {es : List Emit} (hes : ∀ t conditional, .branch t conditional ∈ es → t ∈ c.schedule.targets) :
    Alike (linkAll a c es) (linkAll a (c.relabel f) (es.map (Emit.relabel f))) := by
  induction es with
  | nil =>
      exact .pure _
  | cons e es ih =>
      have hfirst : Alike (e.link a c) ((e.relabel f).link a (c.relabel f)) :=
        link_relabel hf hc fun t conditional heq => hes t conditional (by simp [heq])
      have hrest := ih fun t conditional hmem => hes t conditional (by simp [hmem])
      exact hfirst.bind fun _ => hrest.bind fun _ => .pure _

/-- Instructions and the relabelled ones are lowered alike. -/
theorem lowerInstructions_relabel (hf : KeepsOrder f P) (hc : ∀ t ∈ c.schedule.targets, P t)
    (his : ∀ i ∈ is, P i.offset) (hjumps : ∀ i ∈ is, ∀ t, i.JumpsTo t → t ∈ c.schedule.targets) :
    Alike (lowerInstructions a headerSize c is)
      (lowerInstructions a headerSize (c.relabel f) (is.map (·.relabel f))) := by
  -- both cursors move on together
  induction is generalizing c with
  | nil =>
      have hopen : (c.relabel f).openRegions = c.openRegions := by
        simp [Cursor.openRegions, Cursor.relabel, Schedule.relabel, Schedule.size]
      simp only [lowerInstructions, List.map_nil, hopen]
      exact .pure _
  | cons i is ih =>
      rcases List.forall_mem_cons.1 his with ⟨hi, his'⟩
      rcases List.forall_mem_cons.1 hjumps with ⟨hjump, hjumps'⟩
      have hclosing : (c.relabel f).closing (i.relabel f).offset = c.closing i.offset :=
        closing_relabel hf hc hi
      have hadvance : (c.relabel f).advance (i.relabel f).offset =
          (c.advance i.offset).relabel f := advance_relabel hf hc hi
      have hrest := ih (c := c.advance i.offset) hc his' hjumps'
      simp only [lowerInstructions, List.map_cons, hclosing, hadvance]
      -- what is reported shows the offsets, and nothing else does
      refine (Alike.report _ _).bind fun _ => ?_
      refine Alike.ofExcept_bind select_relabel fun es hes => ?_
      have hlink := linkAll_relabel (a := a) (c := c.advance i.offset) hf hc
        fun t conditional hmem => hjump t ((select_proper i).holds hes t conditional hmem)
      exact hlink.bind fun _ => hrest.bind fun _ => .pure _

theorem dispatch_alike (size : Nat) : Alike (dispatch size) (dispatch size) := by
  unfold dispatch
  split
  · exact .pure _
  · exact (Alike.slot .resumeSelector).bind fun _ => .pure _

end Lowering

theorem lowerBody_alike {f : UInt32 → UInt32} {body : MethodBody}
    (hf : KeepsOrder f body.Mentions) (a : Assembly) (headerSize : UInt32) (hasResult : Bool) :
    Linker.Alike (lowerBody a headerSize hasResult body)
      (lowerBody a headerSize hasResult (body.relabel f)) := by
  have hempty : (body.relabel f).instructions.isEmpty = body.instructions.isEmpty := by
    simp [MethodBody.relabel]
  unfold lowerBody
  rw [hempty]
  split
  · exact .pure _
  · refine Linker.Alike.ofExcept_bind (analyze_relabel hf) fun s hs => ?_
    have hsize : (s.relabel f).size = s.size := by simp [Schedule.relabel, Schedule.size]
    have hcode : Linker.Alike
        (lowerInstructions a headerSize { schedule := s } body.instructions)
        (lowerInstructions a headerSize { schedule := s.relabel f }
          (body.relabel f).instructions) :=
      lowerInstructions_relabel hf (fun t ht => mentions_of_mem_targets hs ht)
        (fun i hi => .inl (List.mem_map_of_mem hi))
        fun i hi t ht => (Schedule.mem_targets hs).2 ⟨i, hi, ht⟩
    rw [hsize]
    exact (dispatch_alike s.size).bind fun _ => hcode.bind fun _ => .pure _

/-- Only the order of offsets matters. If other offsets are given to the instructions and jumps of a
body, in the same order, then lowering it from the same slots and tables succeeds just if it did
before, with the same operators and the same slots, and leaves the same tables. -/
theorem lowerBody_relabel {f : UInt32 → UInt32} {body : MethodBody}
    (hf : ∀ p q, body.Mentions p → body.Mentions q → p < q → f p < f q) (a : Assembly)
    (headerSize : UInt32) (hasResult : Bool) (slots : SlotTable) (state : BuildState) :
    (∀ code slots',
      (Linker.exec (lowerBody a headerSize hasResult body) slots state).1 = .ok (code, slots') ↔
        (Linker.exec (lowerBody a headerSize hasResult (body.relabel f)) slots state).1 =
          .ok (code, slots')) ∧
      (Linker.exec (lowerBody a headerSize hasResult body) slots state).2.tables =
        (Linker.exec (lowerBody a headerSize hasResult (body.relabel f)) slots state).2.tables := by
  rcases lowerBody_alike hf a headerSize hasResult slots state state rfl with ⟨hresult, htables⟩
  have hok : ∀ (x : Except CompileError (List Wasm.Op × SlotTable)) r,
      x = .ok r ↔ x.toOption = some r := by
    intro x r
    cases x <;> simp [Except.toOption]
  exact ⟨fun code slots' => by rw [hok, hok, hresult], htables⟩

/-! ## A stretched loop -/

namespace Stretched

/-- Goes back to its second instruction until its argument is zero. -/
def body : MethodBody where
  instructions := [⟨0, .nop, .empty⟩, ⟨1, .ldarg0, .empty⟩, ⟨2, .brfalse, .target 12⟩,
    ⟨7, .br, .target 1⟩, ⟨12, .ret, .empty⟩]

/-- Puts the five offsets of the body far apart. Numbers above them wrap around. -/
def stretch (p : UInt32) : UInt32 :=
  p * 0x11111111

theorem mem_of_mentions {p : UInt32} (h : body.Mentions p) : p ∈ offsets body.instructions := by
  rcases h with h | h
  · exact h
  · have hanalyze : Schedule.analyze body = .ok ⟨[1, 12]⟩ := by decide
    exact (Schedule.analyze_ok hanalyze).2.2 p ((Schedule.mem_targets hanalyze).2 h)

def start : BuildState where
  tables := { memory := ⟨"env", "memory", 1⟩ }

/-- The body has the same code with its offsets far apart. -/
theorem stretches :
    (∀ p q, body.Mentions p → body.Mentions q → p < q → stretch p < stretch q) ∧
      ∃ code slots,
        (Linker.exec (lowerBody ⟨"Lib", []⟩ 8 false body) (SlotTable.ofParams [.i32]) start).1 =
          .ok (code, slots) ∧
        (Linker.exec (lowerBody ⟨"Lib", []⟩ 8 false (body.relabel stretch))
          (SlotTable.ofParams [.i32]) start).1 = .ok (code, slots) := by
  have hascends : KeepsOrder stretch (· ∈ offsets body.instructions) :=
    keepsOrder_of_pairwise (by decide) (by decide)
  have hf : ∀ p q, body.Mentions p → body.Mentions q → p < q → stretch p < stretch q :=
    fun p q hp hq => hascends p q (mem_of_mentions hp) (mem_of_mentions hq)
  have hrun : ∃ code slots, (Linker.exec (lowerBody ⟨"Lib", []⟩ 8 false body)
      (SlotTable.ofParams [.i32]) start).1 = .ok (code, slots) := ⟨_, _, rfl⟩
  rcases hrun with ⟨code, slots, hrun⟩
  exact ⟨hf, code, slots, hrun,
    ((lowerBody_relabel hf ⟨"Lib", []⟩ 8 false _ start).1 code slots).1 hrun⟩

end Stretched

end CilCompiler
