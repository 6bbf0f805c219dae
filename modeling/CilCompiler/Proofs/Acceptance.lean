import CilCompiler.Proofs.Acceptable
import CilCompiler.Proofs.CallShapes

/-!
# Acceptance

A build succeeds for the acceptable assemblies, and for no others. Every step of a build is matched
with the condition under which it succeeds; what it may rely on are the facts about tables and slots
that all steps before it have left.

* `Build.Decides` and `Linker.Decides` say that a step succeeds under just some condition. They are
  closed under `bind`, so the condition of a build is the conjunction of those of its steps.
* `Stage` is what is known of the tables when some functions are complete.
* `build_ok_iff` is the condition for a whole build.
-/

namespace CilCompiler

open Wasm (Op Signature ValueKind)

variable {α β : Type}

/-! ## Steps that decide -/

namespace Build

variable {pre : BuildState → Prop} {x : Build α} {P Q : Prop} {post : α → BuildState → Prop}

/-- From every state with `pre` the step succeeds just if `P` holds, and then it leaves `post`. -/
def Decides (pre : BuildState → Prop) (x : Build α) (P : Prop) (post : α → BuildState → Prop) :
    Prop :=
  ∀ s, pre s → ((∃ r s', Build.run x s = (.ok r, s')) ↔ P) ∧
    ∀ r s', Build.run x s = (.ok r, s') → post r s'

theorem Decides.congr (h : Decides pre x P post) (hiff : P ↔ Q) : Decides pre x Q post :=
  fun s hs => ⟨(h s hs).1.trans hiff, (h s hs).2⟩

theorem Decides.weaken {post' : α → BuildState → Prop} (h : Decides pre x P post)
    (hpost : ∀ r s, post r s → post' r s) : Decides pre x P post' :=
  fun s hs => ⟨(h s hs).1, fun r s' hrun => hpost r s' ((h s hs).2 r s' hrun)⟩

theorem Decides.bind {mid : α → BuildState → Prop} {f : α → Build β}
    {post : β → BuildState → Prop} (hx : Decides pre x P mid)
    (hf : ∀ r, Decides (mid r) (f r) Q post) : Decides pre (x >>= f) (P ∧ Q) post := by
  intro s hs
  rcases hx s hs with ⟨hiff, hmid⟩
  refine ⟨⟨?_, ?_⟩, ?_⟩
  · rintro ⟨r', s', hrun⟩
    rcases run_bind_ok.1 hrun with ⟨r, s₁, hrun₁, hrun₂⟩
    exact ⟨hiff.1 ⟨r, s₁, hrun₁⟩, (hf r s₁ (hmid r s₁ hrun₁)).1.1 ⟨r', s', hrun₂⟩⟩
  · rintro ⟨hp, hq⟩
    rcases hiff.2 hp with ⟨r, s₁, hrun₁⟩
    rcases (hf r s₁ (hmid r s₁ hrun₁)).1.2 hq with ⟨r', s', hrun₂⟩
    exact ⟨r', s', run_bind_ok.2 ⟨r, s₁, hrun₁, hrun₂⟩⟩
  · intro r' s' hrun
    rcases run_bind_ok.1 hrun with ⟨r, s₁, hrun₁, hrun₂⟩
    exact (hf r s₁ (hmid r s₁ hrun₁)).2 r' s' hrun₂

theorem Decides.pure {r : α} (h : ∀ s, pre s → post r s) : Decides pre (pure r) True post := by
  intro s hs
  refine ⟨iff_of_true ⟨r, s, rfl⟩ trivial, ?_⟩
  intro r' s' hrun
  cases hrun
  exact h s hs

theorem Decides.throw {e : CompileError} : Decides pre (throw e : Build α) False post := by
  intro s hs
  refine ⟨iff_of_false ?_ id, ?_⟩
  · rintro ⟨r, s', hrun⟩
    cases hrun
  · intro r s' hrun
    cases hrun

/-- The condition of what follows may depend on a value that is only computed. -/
theorem Decides.ofExcept_bind {e : Except CompileError α} {f : α → Build β} {Q : α → Prop}
    {post : β → BuildState → Prop} (hf : ∀ r, e = .ok r → Decides pre (f r) (Q r) post) :
    Decides pre (ofExcept e >>= f) (∃ r, e = .ok r ∧ Q r) post := by
  cases e with
  | error err =>
      exact Decides.congr (P := False) .throw (by simp)
  | ok r =>
      exact (hf r rfl).congr (by simp)

theorem Decides.ofExcept {e : Except CompileError α} :
    Decides pre (ofExcept e) (∃ r, e = .ok r) fun _ => pre := by
  intro s hs
  refine ⟨by simp [run_ofExcept_ok], ?_⟩
  intro r s' hrun
  exact (run_ofExcept_ok.1 hrun).2 ▸ hs

/-- What follows may use what is known of the state that it looks at. -/
theorem Decides.get_bind {f : BuildState → Build α} (hf : ∀ s, pre s → Decides pre (f s) P post) :
    Decides pre (get >>= f) P post :=
  fun s hs => hf s hs s hs

theorem Decides.report {event : Event} (h : ∀ s log, pre s → pre { s with log }) :
    Decides pre (report event) True fun _ => pre := by
  intro s hs
  refine ⟨iff_of_true ⟨(), _, rfl⟩ trivial, ?_⟩
  intro r s' hrun
  cases hrun
  exact h s _ hs

end Build

/-! ## Tables -/

/-- The tables during a build, when the functions `defined` are complete: what the host provides is
as at the start, and only methods of the assembly have been asked for. -/
structure Stage (a : Assembly) (o : Options) (defined : List String) (s : BuildState) : Prop where
  hostMethods : s.tables.hostMethods = (BuildState.start a o).tables.hostMethods
  invoker : s.tables.invoker = (BuildState.start a o).tables.invoker
  functions : ∀ name ∈ s.tables.functions.keys, name ∈ a.methodNames
  defined : s.tables.definitions.map (·.function.name) = defined

section Tables

variable {a : Assembly} {o : Options} {defined : List String} {s s' : BuildState}

theorem stage_start : Stage a o [] (BuildState.start a o) where
  hostMethods := rfl
  invoker := rfl
  functions := by
    intro name hname
    rw [(provides_start a o).functions] at hname
    cases hname
  defined := by
    rw [(provides_start a o).definitions]
    rfl

theorem Stage.extend (h : Stage a o defined s) (hg : s.tables.Extends s'.tables)
    (hfunctions : s'.tables.functions = s.tables.functions) : Stage a o defined s' where
  hostMethods := hg.hostMethods.trans h.hostMethods
  invoker := hg.invoker.trans h.invoker
  functions := hfunctions ▸ h.functions
  defined := hg.definitions ▸ h.defined

theorem mem_keys_request {n : Numbering String} {name key : String}
    (h : key ∈ (n.request name).2.keys) : key = name ∨ key ∈ n.keys := by
  unfold Numbering.request at h
  split at h
  · exact .inr h
  · simpa [or_comm] using h

theorem Stage.reserve (h : Stage a o defined s) {name : String} (hname : name ∈ a.methodNames)
    (hs : s'.tables = (s.tables.reserve name).2) : Stage a o defined s' := by
  have hg : s.tables.Extends s'.tables := hs ▸ s.tables.extends_reserve name
  refine ⟨hg.hostMethods.trans h.hostMethods, hg.invoker.trans h.invoker, ?_,
    hg.definitions ▸ h.defined⟩
  intro key hkey
  have hkeys : s'.tables.functions.keys = (s.tables.functions.request name).2.keys := by
    rw [hs]
    rfl
  rcases mem_keys_request (hkeys ▸ hkey) with rfl | hold
  · exact hname
  · exact h.functions key hold

theorem reserve_decides {name : String} (hname : name ∈ a.methodNames) :
    Build.Decides (Stage a o defined) (Build.reserve name) True fun _ => Stage a o defined := by
  intro s hs
  rcases Build.run_reserve name s with ⟨log, hrun⟩
  refine ⟨iff_of_true ⟨_, _, hrun⟩ trivial, ?_⟩
  intro i s' hrun'
  exact hs.reserve hname (Build.reserve_ok hrun').2

theorem global_decides {name : String} :
    Build.Decides (Stage a o defined) (Build.global name) True fun _ => Stage a o defined := by
  intro s hs
  rcases Build.run_global name s with ⟨log, hrun⟩
  refine ⟨iff_of_true ⟨_, _, hrun⟩ trivial, ?_⟩
  intro i s' hrun'
  have htables := (Build.global_ok hrun').2
  exact hs.extend (htables ▸ s.tables.extends_global name) (by rw [htables]; rfl)

/-- The host provides the methods that the bridge names. -/
theorem importIndex_ok_iff (h : Stage a o defined s) {identifier : String} :
    (∃ i, s.tables.importIndex identifier = .ok i) ↔
      ∃ d ∈ o.bridge.imports, d.name = identifier := by
  have hstart := provides_start a o
  unfold Tables.importIndex
  rw [h.hostMethods]
  cases hlookup : (BuildState.start a o).tables.hostMethods.lookup identifier with
  | none =>
      have hmissing := hstart.missing hlookup
      refine iff_of_false (by simp) ?_
      rintro ⟨d, hd, hname⟩
      exact hmissing d hd hname
  | some i =>
      rcases (hstart.found hlookup).2 with ⟨d, type, hfind, -⟩
      refine iff_of_true ⟨i, rfl⟩ ⟨d, List.mem_of_find?_eq_some hfind, ?_⟩
      simpa using List.find?_some hfind

theorem callIndex_decides {r : MethodRef} :
    Build.Decides (Stage a o defined) (Build.callIndex a r) (a.Resolves o r)
      fun _ => Stage a o defined := by
  unfold Build.callIndex
  cases hfound : a.findMethod r with
  | some found =>
      rcases findMethod_ok hfound with ⟨hmem, hname⟩
      have hnames : r.fullName ∈ a.methodNames := hname ▸ List.mem_map_of_mem hmem
      exact (reserve_decides hnames).congr (iff_of_true trivial (.inl ⟨found, hfound⟩))
  | none =>
      refine Build.Decides.get_bind fun s hs => Build.Decides.ofExcept.congr ?_
      simp [importIndex_ok_iff hs, Assembly.Resolves, hfound]

end Tables

/-! ## Slots -/

/-- The slots of a function that takes `arity` words: all of them hold words, and the arguments are
those below the arity. -/
structure SlotTable.HoldsWords (arity : Nat) (t : SlotTable) : Prop where
  kind {slot : Slot} {place : Place} : t.find? slot = some place → place.kind = .i32
  arg (n : UInt16) : (∃ place, t.find? (.arg n) = some place) ↔ n.toNat < arity

namespace SlotTable

variable {arity : Nat} {t t' : SlotTable} {slot : Slot}

section Params

variable {index k : Nat} {placed : List (Slot × Place)} {kinds : List ValueKind}

theorem mem_placeParams_of_mem {entry : Slot × Place} (h : entry ∈ placed) :
    entry ∈ placeParams index placed kinds := by
  induction kinds generalizing index placed with
  | nil =>
      exact h
  | cons kind kinds ih =>
      exact ih (List.mem_cons_of_mem _ h)

theorem mem_placeParams_of_lt (hk : k < kinds.length) :
    ∃ place, (Slot.arg (index + k).toUInt16, place) ∈ placeParams index placed kinds := by
  induction kinds generalizing index placed k with
  | nil =>
      cases hk
  | cons kind kinds ih =>
      cases k with
      | zero =>
          refine ⟨⟨index, kind⟩, ?_⟩
          rw [placeParams]
          exact mem_placeParams_of_mem (by simp)
      | succ k =>
          rw [placeParams, Nat.add_comm k 1, ← Nat.add_assoc]
          exact ih (Nat.lt_of_succ_lt_succ hk)

end Params

/-- The parameters of a function are its first slots. A number of sixteen bits names one of them if
it is below their count, however many there are. -/
theorem exists_find?_ofParams_iff {params : List ValueKind} {n : UInt16} :
    (∃ place, (ofParams params).find? (.arg n) = some place) ↔ n.toNat < params.length := by
  constructor
  · rintro ⟨place, hfind⟩
    rcases find?_ofParams hfind with ⟨hplace, hslot⟩
    rcases List.getElem?_eq_some_iff.1 hplace with ⟨hlt, -⟩
    have hn : n = place.index.toUInt16 := Slot.arg.inj hslot
    have hle : n.toNat ≤ place.index := by
      rw [hn]
      exact Nat.mod_le _ _
    exact Nat.lt_of_le_of_lt hle hlt
  · intro hn
    have hplaced : ∃ place, (Slot.arg (0 + n.toNat).toUInt16, place) ∈
        placeParams 0 [] params := mem_placeParams_of_lt hn
    rcases hplaced with ⟨place, hmem⟩
    rw [Nat.zero_add, show n.toNat.toUInt16 = n by simp] at hmem
    apply Option.ne_none_iff_exists'.1
    intro hnone
    have hne := List.lookup_eq_none_iff.1 hnone _ hmem
    simp at hne

theorem holdsWords_ofParams : HoldsWords arity (ofParams (List.replicate arity .i32)) := by
  constructor
  · intro slot place hfind
    have hkind := (find?_ofParams hfind).1
    exact (List.eq_of_mem_replicate (List.mem_of_getElem? hkind))
  · intro n
    rw [exists_find?_ofParams_iff, List.length_replicate]

theorem resolved_ok_iff (h : HoldsWords arity t) :
    (∃ r, t.resolved slot .i32 = .ok r) ↔ slot.Fits arity := by
  cases hr : t.resolved slot .i32 with
  | ok place =>
      refine iff_of_true ⟨place, rfl⟩ ?_
      rintro n rfl
      -- an argument is never put into the table, so it was there
      rcases resolve_cases (resolved_eq_ok_iff.1 hr) with ⟨hfind, -⟩ | ⟨-, hscratch, -⟩
      · exact (h.arg n).1 ⟨_, hfind⟩
      · cases hscratch
  | error e =>
      refine iff_of_false (by simp) ?_
      intro hfits
      rcases resolved_eq_error_iff.1 hr with ⟨t', hr'⟩
      rcases (resolve_error_cases hr').2 with ⟨place, hfind, hkind, -⟩ | ⟨n, hn, hfind, -⟩
      · exact hkind (h.kind hfind)
      · rcases (h.arg n).2 (hfits n hn) with ⟨place, hplace⟩
        rw [hn, hplace] at hfind
        cases hfind

theorem HoldsWords.resolve {i : Nat} (h : HoldsWords arity t)
    (hr : t.resolve slot .i32 = (.ok i, t')) : HoldsWords arity t' := by
  rcases resolve_cases hr with ⟨-, rfl⟩ | ⟨-, hscratch, heq⟩
  · exact h
  · have ht : t' = (t.allocate slot .i32).2 := congrArg Prod.snd heq
    constructor
    · intro other place hfind
      rw [ht, find?_allocate] at hfind
      split at hfind
      · cases hfind
        rfl
      · exact h.kind hfind
    · intro n
      have hne : Slot.arg n ≠ slot := by
        rintro rfl
        cases hscratch
      rw [ht, find?_allocate, if_neg hne]
      exact h.arg n

end SlotTable

/-! ## Linking -/

namespace Linker

variable {pre : BuildState → Prop} {arity : Nat} {x : Linker α} {P Q : Prop}

/-- From slots that hold words, the step succeeds just if `P` holds, and keeps slots and tables as
they should be. -/
def Decides (pre : BuildState → Prop) (arity : Nat) (x : Linker α) (P : Prop) : Prop :=
  ∀ slots : SlotTable, slots.HoldsWords arity →
    Build.Decides pre (StateT.run x slots) P fun r s => r.2.HoldsWords arity ∧ pre s

theorem Decides.congr (h : Decides pre arity x P) (hiff : P ↔ Q) : Decides pre arity x Q :=
  fun slots hslots => (h slots hslots).congr hiff

theorem Decides.bind {f : α → Linker β} (hx : Decides pre arity x P)
    (hf : ∀ r, Decides pre arity (f r) Q) : Decides pre arity (x >>= f) (P ∧ Q) := by
  intro slots hslots
  have hsplit : StateT.run (x >>= f) slots =
      StateT.run x slots >>= fun p => StateT.run (f p.1) p.2 := rfl
  rw [hsplit]
  refine (hx slots hslots).bind ?_
  intro p s hp
  exact hf p.1 p.2 hp.1 s hp.2

theorem Decides.pure {r : α} : Decides pre arity (pure r) True :=
  fun slots hslots => Build.Decides.pure (r := (r, slots)) fun _ hs => ⟨hslots, hs⟩

theorem Decides.lift {y : Build α} (h : Build.Decides pre y P fun _ => pre) :
    Decides pre arity (liftM y) P := by
  intro slots hslots
  have hlift : StateT.run (liftM y : Linker α) slots = y >>= fun r => Pure.pure (r, slots) := rfl
  rw [hlift]
  exact (h.bind fun r => Build.Decides.pure fun s hs => ⟨hslots, hs⟩).congr (by simp)

theorem Decides.ofExcept_bind {e : Except CompileError α} {f : α → Linker β} {Q : α → Prop}
    (hf : ∀ r, e = .ok r → Decides pre arity (f r) (Q r)) :
    Decides pre arity (liftM (Build.ofExcept e) >>= f) (∃ r, e = .ok r ∧ Q r) := by
  intro slots hslots
  have hsplit : StateT.run ((liftM (Build.ofExcept e) : Linker α) >>= f) slots =
      Build.ofExcept e >>= fun r => StateT.run (f r) slots := by
    cases e <;> rfl
  rw [hsplit]
  exact Build.Decides.ofExcept_bind fun r hr => hf r hr slots hslots

theorem slot_decides {slot : Slot} : Decides pre arity (Linker.slot slot) (slot.Fits arity) := by
  intro slots hslots s hs
  have hrun := exec_slot slot slots s
  constructor
  · rw [← SlotTable.resolved_ok_iff hslots]
    constructor
    · rintro ⟨r, s', hok⟩
      exact ⟨r, congrArg Prod.fst (hrun.symm.trans hok)⟩
    · rintro ⟨r, hr⟩
      exact ⟨r, s, hr ▸ hrun⟩
  · rintro ⟨i, slots'⟩ s' hok
    rcases slot_ok hok with ⟨hr, rfl⟩
    exact ⟨hslots.resolve hr, hs⟩

end Linker

section Lowering

variable {a : Assembly} {o : Options} {defined : List String} {arity : Nat} {headerSize : UInt32}
  {c : Cursor}

/-- A target can be reached if it is in the schedule. -/
theorem reach_ok_iff {target : UInt32} :
    (∃ r, c.reach target = .ok r) ↔ target ∈ c.schedule.targets := by
  unfold Cursor.reach Schedule.position
  cases hposition : c.schedule.targets.idxOf? target with
  | none =>
      have hnot : target ∉ c.schedule.targets := by simpa using hposition
      simp [hnot]
  | some t =>
      have hmem : target ∈ c.schedule.targets := by
        rcases List.idxOf?_eq_some_iff.1 hposition with ⟨hlt, hget, -⟩
        exact hget ▸ List.getElem_mem hlt
      by_cases hle : c.next ≤ t <;> simp [hle, hmem]

theorem link_decides {e : Emit} :
    Linker.Decides (Stage a o defined) arity (e.link a c) (e.Fits a o arity c.schedule.targets) := by
  cases e with
  | op op =>
      exact Linker.Decides.pure.congr (by simp)
  | load slot =>
      exact (Linker.slot_decides.bind fun i => .pure).congr (by simp)
  | store slot =>
      exact (Linker.slot_decides.bind fun i => .pure).congr (by simp)
  | branch target conditional =>
      -- in either direction the way to the target can be written
      refine Linker.Decides.congr (P := ∃ r, c.reach target = .ok r ∧ True)
        (.ofExcept_bind fun r _ => ?_) (by simp [← reach_ok_iff])
      cases r with
      | forward label =>
          exact .pure
      | backward resume label =>
          exact (Linker.slot_decides.bind fun i => .pure).congr (by simp [Slot.Fits])
  | handle name =>
      exact ((Linker.Decides.lift global_decides).bind fun i => .pure).congr (by simp)
  | allocate =>
      exact Linker.Decides.pure.congr (by simp)
  | call r =>
      exact ((Linker.Decides.lift callIndex_decides).bind fun i => .pure).congr (by simp)

theorem linkAll_decides {es : List Emit} :
    Linker.Decides (Stage a o defined) arity (linkAll a c es)
      (∀ e ∈ es, e.Fits a o arity c.schedule.targets) := by
  induction es with
  | nil =>
      exact Linker.Decides.pure.congr (by simp)
  | cons e es ih =>
      exact (link_decides.bind fun ops => ih.bind fun rest => .pure).congr (by simp)

theorem Stage.log {s : BuildState} {log : Array Event} (h : Stage a o defined s) :
    Stage a o defined { s with log } :=
  ⟨h.hostMethods, h.invoker, h.functions, h.defined⟩

theorem lowerInstructions_decides {is : List Instruction} :
    Linker.Decides (Stage a o defined) arity (lowerInstructions a headerSize c is)
      (∀ i ∈ is, ∃ es, select a headerSize i = .ok es ∧
        ∀ e ∈ es, e.Fits a o arity c.schedule.targets) := by
  induction is generalizing c with
  | nil =>
      exact Linker.Decides.pure.congr (by simp)
  | cons i is ih =>
      have hreport : Linker.Decides (Stage a o defined) arity
          (liftM (Build.report (.lowering i (c.advance i.offset).openRegions))) True :=
        .lift (.report fun s log hs => hs.log)
      have hsequence : ∀ es : List Emit, Linker.Decides (Stage a o defined) arity
          (do
            let ops ← linkAll a (c.advance i.offset) es
            let rest ← lowerInstructions a headerSize (c.advance i.offset) is
            return List.replicate (c.closing i.offset) .close ++ ops ++ rest) _ :=
        fun es => linkAll_decides.bind fun ops => ih.bind fun rest => .pure
      have hselect := Linker.Decides.ofExcept_bind (e := select a headerSize i) fun es _ =>
        hsequence es
      refine (hreport.bind fun _ => hselect).congr ?_
      -- advancing the cursor leaves the schedule
      have hsame : (c.advance i.offset).schedule = c.schedule := rfl
      simp only [hsame, true_and, and_true, List.forall_mem_cons]
      constructor
      · rintro ⟨es, hes, hfits, hrest⟩
        exact ⟨⟨es, hes, hfits⟩, hrest⟩
      · rintro ⟨⟨es, hes, hfits⟩, hrest⟩
        exact ⟨es, hes, hfits, hrest⟩

theorem dispatch_decides {size : Nat} :
    Linker.Decides (Stage a o defined) arity (dispatch size) True := by
  unfold dispatch
  split
  · exact .pure
  · exact (Linker.slot_decides.bind fun selector => .pure).congr (by simp [Slot.Fits])

/-- A body is lowered if it is empty or acceptable. -/
theorem lowerBody_decides {hasResult : Bool} {body : MethodBody}
    (hfit : ∀ i ∈ body.instructions, i.AccessFits a headerSize) :
    Linker.Decides (Stage a o defined) arity (lowerBody a headerSize hasResult body)
      (body.instructions ≠ [] → body.Acceptable a o arity) := by
  unfold lowerBody
  by_cases hempty : body.instructions = []
  · rw [if_pos (by simp [hempty])]
    exact Linker.Decides.pure.congr (by simp [hempty])
  · rw [if_neg (by simp [hempty])]
    have hcode : ∀ schedule : Schedule, Linker.Decides (Stage a o defined) arity
        (do
          let dispatch ← dispatch schedule.size
          let code ← lowerInstructions a headerSize { schedule } body.instructions
          return .loop :: List.replicate schedule.size .block ++ dispatch ++ code ++ [.close] ++
            epilogue hasResult) _ :=
      fun schedule => dispatch_decides.bind fun table =>
        lowerInstructions_decides.bind fun code => .pure
    have hschedule := Linker.Decides.ofExcept_bind (e := Schedule.analyze body) fun schedule _ =>
      hcode schedule
    refine hschedule.congr ?_
    simp only [true_and, and_true, ne_eq, hempty, not_false_eq_true, forall_const]
    exact acceptable_iff hfit

end Lowering

/-! ## Methods -/

section Methods

variable {a : Assembly} {o : Options} {defined : List String} {t : TypeDef} {m : MethodDef}

theorem resultKind_ok_iff {type : TypeSig} :
    (∃ kind, resultKind type = .ok kind) ↔ type = .void ∨ type.isWord := by
  cases type <;> simp [resultKind, valueKind, TypeSig.isWord]

/-- A method has a signature if it takes and returns words. -/
theorem methodSignature_ok_iff : (∃ s, methodSignature m = .ok s) ↔ m.HasWords := by
  have hparams : (∃ kinds, m.params.mapM (valueKind ·.type) = .ok kinds) ↔
      ∀ p ∈ m.params, p.type.isWord := by
    simp only [mapM_ok_iff, valueKind_ok_iff]
  have hwords : m.HasWords ↔ (∃ kinds, m.params.mapM (valueKind ·.type) = .ok kinds) ∧
      ∃ kind, resultKind m.result = .ok kind := by
    rw [hparams, resultKind_ok_iff]
    exact ⟨fun h => ⟨h.params, h.result⟩, fun h => ⟨h.1, h.2⟩⟩
  rw [hwords]
  unfold methodSignature
  cases m.params.mapM (valueKind ·.type) with
  | error e =>
      simp [bind, Except.bind]
  | ok kinds =>
      cases resultKind m.result <;> simp [bind, Except.bind, pure, Except.pure]

/-- A signature takes as many words as the method has parameters, receiver included. -/
theorem params_of_methodSignature {s : Signature} (h : methodSignature m = .ok s) :
    s.params = List.replicate m.arity .i32 := by
  have hshape : s.params = (if m.hasThis then [.i32] else []) ++
      List.replicate (m.params.map Param.type).length .i32 :=
    congrArg Signature.params (methodSignature_eq h ⟨none, "", ""⟩)
  rw [hshape, List.length_map, MethodDef.arity, ← List.replicate_append_replicate]
  cases m.hasThis <;> rfl

theorem interopMethods_ne_nil {name : String} (h : o.isInterop name) :
    (!o.interopMethods.isEmpty) = true := by
  cases hmethods : o.interopMethods with
  | nil =>
      simp [Options.isInterop, hmethods] at h
  | cons _ _ =>
      rfl

/-- The invoker is imported as soon as some method forwards to the host. -/
theorem invoker_start {name : String} (h : o.isInterop name) :
    (BuildState.start a o).tables.invoker = some 2 := by
  have hstart : (BuildState.start a o).tables.invoker = if !o.interopMethods.isEmpty then _ else _ :=
    Tables.invoker_ofBridge o.bridge _
  rw [hstart, if_pos (interopMethods_ne_nil h)]

theorem thunk_decides {name identifier : String} {signature : Signature} (h : o.isInterop name) :
    Build.Decides (Stage a o defined) (thunk name identifier signature)
      (signature.params.length ≤ Tables.maxInteropArgs) fun _ => Stage a o defined := by
  unfold thunk
  by_cases hmany : signature.params.length > Tables.maxInteropArgs
  · rw [if_pos hmany]
    exact Build.Decides.throw.congr (by simpa using hmany)
  · rw [if_neg hmany]
    refine Build.Decides.get_bind fun s hs => ?_
    rw [hs.invoker, invoker_start h]
    have hcall : Build.Decides (Stage a o defined)
        (do
          let handle ← Build.global (Handle.methodHandle identifier)
          return thunkOps signature handle 2) (True ∧ True) fun _ => Stage a o defined :=
      global_decides.bind fun handle => .pure fun s hs => hs
    exact hcall.congr (by simpa using hmany)

/-- What a method needs besides a name of its own. -/
structure Compilable (a : Assembly) (o : Options) (t : TypeDef) (m : MethodDef) : Prop where
  words : m.HasWords
  forwarded : o.isInterop (m.ref t.name).fullName → m.arity ≤ 4
  bodies : o.isInterop (m.ref t.name).fullName = false → ∀ body, m.body = some body →
    body.instructions ≠ [] → body.Acceptable a o m.arity

theorem compileBody_decides {signature : Signature} (hfit : a.AccessesFit o)
    (hmem : (t, m) ∈ a.methods) (hsignature : methodSignature m = .ok signature) :
    Build.Decides (Stage a o defined)
      (compileBody a o (m.ref t.name).fullName signature m) (Compilable a o t m)
      fun _ => Stage a o defined := by
  have hparams := params_of_methodSignature hsignature
  have hwords := methodSignature_ok_iff.1 ⟨signature, hsignature⟩
  have hreport : ∀ event, Build.Decides (Stage a o defined) (Build.report event) True
      fun _ => Stage a o defined := fun event => .report fun s log hs => hs.log
  unfold compileBody
  cases hinterop : o.isInterop (m.ref t.name).fullName with
  | true =>
      have hthunk : Build.Decides (Stage a o defined)
          (do
            Build.report (.compilingThunk (m.ref t.name).fullName)
            return (← thunk (m.ref t.name).fullName
              (Handle.qualified a.name (m.ref t.name).fullName) signature,
              SlotTable.ofParams signature.params))
          (True ∧ signature.params.length ≤ Tables.maxInteropArgs ∧ True)
          fun _ => Stage a o defined :=
        (hreport _).bind fun _ => (thunk_decides hinterop).bind fun ops => .pure fun s hs => hs
      have harity : signature.params.length = m.arity := by
        rw [hparams, List.length_replicate]
      refine hthunk.congr ?_
      rw [harity]
      constructor
      · rintro ⟨-, hle, -⟩
        exact ⟨hwords, fun _ => hle, fun hfalse => absurd hfalse (by simp [hinterop])⟩
      · intro h
        exact ⟨trivial, h.forwarded hinterop, trivial⟩
  | false =>
      cases hbody : m.body with
      | none =>
          have hnone : Build.Decides (Stage a o defined)
              (do
                Build.report (.compilingMethod (m.ref t.name).fullName signature)
                return (epilogue signature.result.isSome, SlotTable.ofParams signature.params))
              (True ∧ True) fun _ => Stage a o defined :=
            (hreport _).bind fun _ => .pure fun s hs => hs
          refine hnone.congr (iff_of_true ⟨trivial, trivial⟩ ⟨hwords, ?_, ?_⟩)
          · rw [hinterop]
            nofun
          · rw [hbody]
            nofun
      | some body =>
          have hslots : (SlotTable.ofParams signature.params).HoldsWords m.arity :=
            hparams ▸ SlotTable.holdsWords_ofParams
          have hlower : Build.Decides (Stage a o defined)
              (do
                Build.report (.compilingMethod (m.ref t.name).fullName signature)
                (lowerBody a o.headerSize signature.result.isSome body).run
                  (SlotTable.ofParams signature.params))
              (True ∧ (body.instructions ≠ [] → body.Acceptable a o m.arity))
              fun _ => Stage a o defined :=
            (hreport _).bind fun _ =>
              (lowerBody_decides (hfit t m hmem hinterop body hbody) _ hslots).weaken
                fun _ _ h => h.2
          refine hlower.congr ?_
          constructor
          · rintro ⟨-, hacceptable⟩
            refine ⟨hwords, fun htrue => absurd htrue (by simp [hinterop]), ?_⟩
            intro _ body' hbody'
            cases hbody.symm.trans hbody'
            exact hacceptable
          · intro h
            exact ⟨trivial, h.bodies hinterop body hbody⟩

theorem define_decides {f : Function} (hname : f.name ∈ a.methodNames) :
    Build.Decides (Stage a o defined) (Build.define f) (f.name ∉ defined)
      fun _ => Stage a o (defined ++ [f.name]) := by
  intro s hs
  have hdefined : s.tables.isDefined f.name ↔ f.name ∈ defined := by
    rw [← hs.defined]
    simp [Tables.isDefined]
  have hrun := Build.run_define f s
  rw [Tables.define_eq] at hrun
  by_cases hd : s.tables.isDefined f.name
  · rw [if_pos hd] at hrun
    have hfails : ∀ r s', Build.run (Build.define f) s ≠ (.ok r, s') := by
      intro r s' hok
      cases hrun.symm.trans hok
    refine ⟨iff_of_false ?_ (not_not_intro (hdefined.1 hd)), fun r s' hok => absurd hok (hfails r s')⟩
    rintro ⟨r, s', hok⟩
    exact hfails r s' hok
  · rw [if_neg hd] at hrun
    refine ⟨iff_of_true ⟨_, _, hrun⟩ (mt hdefined.2 hd), ?_⟩
    intro r s' hok
    cases hrun.symm.trans hok
    -- the name is reserved first, and the definition follows those before it
    have hreserved : Stage a o defined { s with tables := (s.tables.reserve f.name).2 } :=
      hs.reserve hname rfl
    refine ⟨hreserved.hostMethods, hreserved.invoker, hreserved.functions, ?_⟩
    simp [hs.defined]

/-- Compiling a method takes a name that is not defined yet, and defines it. -/
theorem compileMethod_decides (hfit : a.AccessesFit o) (hmem : (t, m) ∈ a.methods) :
    Build.Decides (Stage a o defined) (compileMethod a o t m)
      (Compilable a o t m ∧ (m.ref t.name).fullName ∉ defined)
      fun _ => Stage a o (defined ++ [(m.ref t.name).fullName]) := by
  have hname : (m.ref t.name).fullName ∈ a.methodNames := List.mem_map.2 ⟨(t, m), hmem, rfl⟩
  have hreport : ∀ event names, Build.Decides (Stage a o names) (Build.report event) True
      fun _ => Stage a o names := fun event names => .report fun s log hs => hs.log
  have hrest : ∀ signature, methodSignature m = .ok signature → Build.Decides (Stage a o defined)
      (do
        let r ← compileBody a o (m.ref t.name).fullName signature m
        Build.report (.compiledBody (m.ref t.name).fullName r.1)
        let index ← Build.define
          { name := (m.ref t.name).fullName, signature, locals := r.2.locals, body := r.1,
            exportName := o.exportName m.isPublic (m.ref t.name).fullName }
        Build.report (.definedFunction (m.ref t.name).fullName index))
      (Compilable a o t m ∧ True ∧ (m.ref t.name).fullName ∉ defined ∧ True)
      fun _ => Stage a o (defined ++ [(m.ref t.name).fullName]) := by
    intro signature hsignature
    refine (compileBody_decides hfit hmem hsignature).bind fun r => ?_
    refine (hreport _ _).bind fun _ => ?_
    exact (define_decides hname).bind fun index => hreport _ _
  refine ((reserve_decides hname).bind fun _ => .ofExcept_bind hrest).congr ?_
  constructor
  · rintro ⟨-, signature, -, hcompilable, -, hnew, -⟩
    exact ⟨hcompilable, hnew⟩
  · rintro ⟨hcompilable, hnew⟩
    rcases methodSignature_ok_iff.2 hcompilable.words with ⟨signature, hsignature⟩
    exact ⟨trivial, signature, hsignature, hcompilable, trivial, hnew, trivial⟩

end Methods

/-! ## Modules -/

section Modules

variable {a : Assembly} {o : Options} {defined : List String} {s : BuildState}

/-- Methods are compiled one after the other if each of them can be and no name comes twice. -/
theorem compileMethods_decides (hfit : a.AccessesFit o) {ms : List (TypeDef × MethodDef)}
    (hms : ∀ tm ∈ ms, tm ∈ a.methods) (hdefined : defined.Nodup) (hs : Stage a o defined s) :
    ((∃ s', compileMethods a o ms s = (.ok (), s')) ↔
      (∀ tm ∈ ms, Compilable a o tm.1 tm.2) ∧
        (defined ++ ms.map fun tm => (tm.2.ref tm.1.name).fullName).Nodup) ∧
      ∀ s', compileMethods a o ms s = (.ok (), s') →
        Stage a o (defined ++ ms.map fun tm => (tm.2.ref tm.1.name).fullName) s' := by
  induction ms generalizing defined s with
  | nil =>
      refine ⟨iff_of_true ⟨s, rfl⟩ (by simpa using hdefined), ?_⟩
      intro s' hrun
      cases hrun
      simpa using hs
  | cons tm ms ih =>
      rcases tm with ⟨t, m⟩
      rcases compileMethod_decides hfit (hms (t, m) (by simp)) s hs with ⟨hiff, hstage⟩
      unfold compileMethods
      rcases hrun : Build.run (compileMethod a o t m) s with ⟨outcome, s₁⟩
      rw [hrun] at hiff hstage
      cases outcome with
      | error e =>
          have hnot : ¬ (Compilable a o t m ∧ (m.ref t.name).fullName ∉ defined) := by
            rw [← hiff]
            rintro ⟨r, s', hok⟩
            cases hok
          refine ⟨iff_of_false (by simp) ?_, by simp⟩
          rintro ⟨hall, hnodup⟩
          refine hnot ⟨hall (t, m) (by simp), fun hmem => ?_⟩
          exact (List.nodup_append.1 hnodup).2.2 _ hmem _ (by simp) rfl
      | ok r =>
          have hnext := hstage r s₁ rfl
          rcases hiff.1 ⟨r, s₁, rfl⟩ with ⟨hcompilable, hnew⟩
          have hdefined' : (defined ++ [(m.ref t.name).fullName]).Nodup := by
            refine List.nodup_append.2 ⟨hdefined, by simp, ?_⟩
            intro x hx y hy hxy
            cases List.mem_singleton.1 hy
            exact hnew (hxy ▸ hx)
          have hrest := ih (fun tm htm => hms tm (by simp [htm])) hdefined' hnext
          simpa [hcompilable] using hrest

/-- When all methods are compiled, every function that was asked for is complete. -/
theorem finish_ok_of_stage (hs : Stage a o a.methodNames s) :
    ∃ image, s.tables.finish = .ok image := by
  refine Tables.finish_ok_iff.2 ?_
  rw [hs.defined]
  exact hs.functions

theorem acceptable_iff_compilable :
    Acceptable a o ↔ (∀ tm ∈ a.methods, Compilable a o tm.1 tm.2) ∧ a.methodNames.Nodup := by
  constructor
  · intro h
    refine ⟨?_, h.names⟩
    rintro ⟨t, m⟩ hmem
    exact ⟨h.words t m hmem, h.forwarded t m hmem, h.bodies t m hmem⟩
  · rintro ⟨hall, hnames⟩
    exact ⟨hnames, fun t m hmem => (hall (t, m) hmem).words,
      fun t m hmem => (hall (t, m) hmem).forwarded, fun t m hmem => (hall (t, m) hmem).bodies⟩

/-- A module is built from the acceptable assemblies and from no others, as long as the code
accesses no field whose offset overflows. -/
theorem build_ok_iff (hfit : a.AccessesFit o) :
    (∃ image, build a o = .ok image) ↔ Acceptable a o := by
  rcases compileMethods_decides hfit (fun tm htm => htm) List.nodup_nil
    (stage_start (a := a) (o := o)) with ⟨hiff, hstage⟩
  rw [List.nil_append] at hiff hstage
  rw [acceptable_iff_compilable]
  refine Iff.trans ?_ hiff
  unfold build buildWithLog
  rcases hrun : compileMethods a o a.methods (BuildState.start a o) with ⟨outcome, s⟩
  cases outcome with
  | error f =>
      simp
  | ok _ =>
      rcases finish_ok_of_stage (hstage s hrun) with ⟨image, hfinish⟩
      simp [hfinish]

end Modules

/-! ## An assembly with fields

One of them lies beyond thirty-two bits, but nothing accesses it. -/

namespace Cells

def cell : TypeName := ⟨none, "Lib", "Cell"⟩

/-- Reads the field behind one that is static and one that is not. -/
def get : MethodDef :=
  { name := "Get", result := .boolean, params := []
    body := some
      { instructions :=
          [⟨0, .ldarg0, .empty⟩, ⟨1, .ldfld, .field ⟨cell, "full", .boolean⟩⟩, ⟨6, .ret, .empty⟩] } }

def type : TypeDef :=
  { name := cell
    fields :=
      [{ name := "count", type := .int64, isStatic := true }, { name := "value", type := .int32 },
       { name := "full", type := .boolean },
       { name := "far", type := .int32, offset := some 4294967288 }]
    methods := [get] }

def assembly : Assembly := ⟨"Lib", [type]⟩

def image : Image where
  types := [⟨[.i32], some .i32⟩, ⟨[.i32], none⟩]
  memory := ⟨"sys", "memory", 1⟩
  imports :=
    [⟨"sys", "object_new", 0⟩, ⟨"sys", "log", 1⟩,
     ⟨"static", "System.Console|System.Void System.Console::WriteLine(System.Int32)", 1⟩]
  globals := []
  functions :=
    [⟨0, ⟨"System.Boolean Lib.Cell::Get()", ⟨[.i32], some .i32⟩, [],
      [.loop, .localGet 0, .load 12, .ret, .close, .unreachable, .close], none⟩⟩]

theorem build_eq : build assembly {} = .ok image := by
  decide +kernel

theorem accessesFit : assembly.AccessesFit {} := by
  intro t m hmem _ body hbody i hi r hopcode hr
  cases List.mem_singleton.1 hmem
  cases hbody
  -- the method has one instruction for fields, and its field lies twelve bytes from the start
  have hfull : r = ⟨cell, "full", .boolean⟩ := by
    simp only [List.mem_cons, List.not_mem_nil, or_false] at hi
    rcases hi with rfl | rfl | rfl
    · cases hr
    · exact (Operand.field.inj hr).symm
    · cases hr
  subst hfull
  rintro ⟨t, f, htype, hfield, -, -, hbeyond⟩
  cases htype
  cases hfield
  exact absurd hbeyond (by decide)

theorem accepted : assembly.AccessesFit {} ∧ Acceptable assembly {} :=
  ⟨accessesFit, (build_ok_iff accessesFit).1 ⟨image, build_eq⟩⟩

end Cells

end CilCompiler
