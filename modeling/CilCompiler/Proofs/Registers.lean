import CilCompiler.Proofs.Redefinition

/-!
# Tables with lookups

The tables of a module can be kept in another way: each index space is a row of entries with a lookup
of indices beside it, and a function is completed in the place of its index. Then a row and its
lookup could come to disagree, and an index could miss its row. Neither of them ever happens: such
tables answer all requests as `Tables` do, and come to the same module.

* `Register` is a row with a lookup. `Register.Numbers` says that both agree with a numbering.
* `Registers` are the tables; `Registers.define` has no result if an index misses the row.
* `Registers.Represents` relates them to `Tables`, and `Represents.serve` keeps it.
* `Registers.run_ofBridge` says that every list of requests is answered as by `Tables`.
-/

namespace CilCompiler

open Host (Bridge ImportDecl)
open Wasm (Signature)

/-! ## Registers -/

/-- Entries in the order of their numbers, and the numbers of their keys. -/
structure Register (κ ε : Type) where
  entries : List ε := []
  numbers : List (κ × Nat) := []

namespace Register

variable {κ ε : Type} [DecidableEq κ]

def find? (r : Register κ ε) (key : κ) : Option Nat :=
  r.numbers.lookup key

/-- The number of a key. If it has none, it gets the next one from `base` on, and the entry is put
into its place. -/
def request (r : Register κ ε) (base : Nat) (key : κ) (entry : ε) : Nat × Register κ ε :=
  match r.find? key with
  | some i => (i, r)
  | none =>
    let i := base + r.entries.length
    (i, { entries := r.entries ++ [entry], numbers := (key, i) :: r.numbers })

/-- Both the row and the lookup agree with a numbering: keys have its numbers, from `base` on, and
the entry of a key stands in its place. -/
structure Numbers (base : Nat) (entry : κ → ε) (n : Numbering κ) (r : Register κ ε) : Prop where
  entries : r.entries = n.keys.map entry
  find? (key : κ) : r.find? key = (n.find? key).map (base + ·)

variable {base : Nat} {entry : κ → ε} {n : Numbering κ} {r : Register κ ε}

theorem numbers_empty (base : Nat) (entry : κ → ε) : Numbers base entry {} ({} : Register κ ε) :=
  ⟨rfl, fun _ => rfl⟩

/-- Without keys it does not matter where the numbers start. -/
theorem Numbers.rebase (h : Numbers base entry n r) (hnil : n.keys = []) (base' : Nat) :
    Numbers base' entry n r where
  entries := h.entries
  find? := by
    intro key
    have hnone : n.find? key = none := Numbering.find?_eq_none_iff.2 (by simp [hnil])
    rw [h.find?, hnone]
    rfl

/-- A request is answered as by the numbering, and row and lookup go on to agree. -/
theorem Numbers.request (h : Numbers base entry n r) (key : κ) {e : ε}
    (he : key ∉ n.keys → e = entry key) :
    (r.request base key e).1 = base + (n.request key).1 ∧
      Numbers base entry (n.request key).2 (r.request base key e).2 := by
  unfold Register.request Numbering.request
  rw [h.find?]
  cases hfind : n.find? key with
  | some i =>
      exact ⟨rfl, h⟩
  | none =>
      have hnew : key ∉ n.keys := Numbering.find?_eq_none_iff.1 hfind
      have hlength : r.entries.length = n.size := by
        rw [h.entries, List.length_map]
        rfl
      refine ⟨congrArg (base + ·) hlength, ?_, ?_⟩
      · simp [h.entries, he hnew]
      · -- the new pair stands in front of the lookup, and the new key at the end of the row
        intro other
        have hold := h.find? other
        simp only [Register.find?, Numbering.find?, Option.map_none] at hold ⊢
        rw [idxOf?_concat hnew, List.lookup_cons, hold, hlength]
        by_cases heq : other = key
        · simp [heq, Numbering.size]
        · have hne : (other == key) = false := by simpa using heq
          simp [heq, hne]

end Register

/-! ## Tables of registers -/

/-- The place of a function: its name, and the function once it is complete. -/
structure FunctionSlot where
  name : String
  definition : Option Definition := none

/-- The completed function. -/
def FunctionSlot.complete (slot : FunctionSlot) : Except CompileError Definition :=
  match slot.definition with
  | some d => .ok d
  | none => .error (.missingBody slot.name)

structure Registers where
  memory : Host.MemoryImport
  imports : List FunctionImport := []
  hostMethods : List (String × Nat) := []
  invoker : Option Nat := none
  types : Register Signature Signature := {}
  globals : Register String GlobalImport := {}
  functions : Register String FunctionSlot := {}

namespace Registers

def intern (t : Registers) (signature : Signature) : Nat × Registers :=
  let (i, types) := t.types.request 0 signature signature
  (i, { t with types })

def global (t : Registers) (name : String) : Nat × Registers :=
  let (i, globals) := t.globals.request 0 name (.lateBound name)
  (i, { t with globals })

def reserve (t : Registers) (name : String) : Nat × Registers :=
  let (i, functions) := t.functions.request t.imports.length name { name }
  (i, { t with functions })

def importIndex (t : Registers) (identifier : String) : Except CompileError Nat :=
  match t.hostMethods.lookup identifier with
  | some i => .ok i
  | none => .error (.unresolvedImport identifier)

def declare (t : Registers) (module name : String) (signature : Signature) : Registers :=
  let (type, t) := t.intern signature
  { t with imports := t.imports ++ [⟨module, name, type⟩] }

def declareMethod (t : Registers) (d : ImportDecl) : Registers :=
  match t.hostMethods.lookup d.name with
  | some _ => t
  | none =>
    { t.declare d.module d.name d.signature with
      hostMethods := t.hostMethods ++ [(d.name, t.imports.length)] }

def ofBridge (bridge : Bridge) (withInterop : Bool) : Registers :=
  let t : Registers := { memory := bridge.memory }
  let t := t.declare bridge.allocator.module bridge.allocator.name ⟨[.i32], some .i32⟩
  let t := t.declare bridge.logger.module bridge.logger.name ⟨[.i32], none⟩
  let t :=
    if withInterop then
      { t.declare bridge.interop.module bridge.interop.name Tables.invokerSignature with
        invoker := some t.imports.length }
    else t
  bridge.imports.foldl declareMethod t

/-- Puts a function into the place of that number. -/
def put (t : Registers) (position : Nat) (slot : FunctionSlot) : Registers :=
  { t with functions := { t.functions with entries := t.functions.entries.set position slot } }

/-- Completes a function in the place of its index. There is no result if the index is below those
of the row or beyond them. -/
def complete (t : Registers) (index type : Nat) (f : Function) :
    Option (Except CompileError Nat × Registers) :=
  -- the row starts behind the imports, and a lower index would be one of theirs
  if index < t.imports.length then none
  else
    match t.functions.entries[index - t.imports.length]? with
    | none => none
    | some slot =>
      match slot.definition with
      | some _ => some (.error (.duplicateFunction f.name), t)
      | none =>
        some (.ok index, t.put (index - t.imports.length) { slot with definition := some ⟨type, f⟩ })

def define (t : Registers) (f : Function) : Option (Except CompileError Nat × Registers) :=
  -- name and signature get their indices before the place is looked at
  let (index, t) := t.reserve f.name
  let (type, t) := t.intern f.signature
  t.complete index type f

def finish (t : Registers) : Except CompileError Image := do
  let functions ← t.functions.entries.mapM FunctionSlot.complete
  return { types := t.types.entries, memory := t.memory, imports := t.imports,
           globals := t.globals.entries, functions }

/-- The answer to a request, and the tables behind it. -/
def serve (t : Registers) : Tables.Request → Option (Except CompileError Nat × Registers)
  | .intern signature => some (.ok (t.intern signature).1, (t.intern signature).2)
  | .reserve name => some (.ok (t.reserve name).1, (t.reserve name).2)
  | .global name => some (.ok (t.global name).1, (t.global name).2)
  | .importIndex identifier => some (t.importIndex identifier, t)
  | .define f => t.define f

/-- The answers to some requests, and the tables behind them. -/
def run (t : Registers) :
    List Tables.Request → Option (List (Except CompileError Nat) × Registers)
  | [] => some ([], t)
  | r :: rs => do
    let (answer, t) ← t.serve r
    let (answers, t) ← t.run rs
    return (answer :: answers, t)

end Registers

/-! ## Representation -/

/-- The place that a function would have. -/
def Tables.slot (n : Tables) (name : String) : FunctionSlot :=
  ⟨name, n.definitions.find? (·.function.name == name)⟩

namespace Registers

/-- The registers hold what the tables hold. -/
structure Represents (n : Tables) (t : Registers) : Prop where
  memory : t.memory = n.memory
  imports : t.imports = n.imports
  hostMethods : t.hostMethods = n.hostMethods
  invoker : t.invoker = n.invoker
  types : Register.Numbers 0 id n.types t.types
  globals : Register.Numbers 0 GlobalImport.lateBound n.globals t.globals
  functions : Register.Numbers n.imports.length n.slot n.functions t.functions
  nodup : n.functions.keys.Nodup
  numbered : n.Numbered

namespace Represents

variable {n : Tables} {t : Registers}

theorem intern (h : Represents n t) (signature : Signature) :
    (t.intern signature).1 = (n.intern signature).1 ∧
      Represents (n.intern signature).2 (t.intern signature).2 := by
  rcases h.types.request signature fun _ => rfl with ⟨hanswer, htypes⟩
  exact ⟨hanswer.trans (Nat.zero_add _), { h with types := htypes }⟩

theorem global (h : Represents n t) (name : String) :
    (t.global name).1 = (n.global name).1 ∧ Represents (n.global name).2 (t.global name).2 := by
  rcases h.globals.request name fun _ => rfl with ⟨hanswer, hglobals⟩
  exact ⟨hanswer.trans (Nat.zero_add _), { h with globals := hglobals }⟩

theorem reserve (h : Represents n t) (name : String) :
    (t.reserve name).1 = (n.reserve name).1 ∧ Represents (n.reserve name).2 (t.reserve name).2 := by
  -- no function of a name without an index is complete
  have hslot : name ∉ n.functions.keys → { name } = n.slot name := by
    intro hnew
    have hnone : n.definitions.find? (·.function.name == name) = none := by
      refine List.find?_eq_none.2 fun d hd heq => hnew ?_
      exact beq_iff_eq.1 heq ▸ h.numbered d hd
    rw [Tables.slot, hnone]
  rcases h.functions.request name hslot with ⟨hanswer, hfunctions⟩
  have hreserve : t.reserve name =
      ((t.functions.request n.imports.length name { name }).1,
        { t with functions := (t.functions.request n.imports.length name { name }).2 }) := by
    rw [← h.imports]
    rfl
  rw [hreserve]
  refine ⟨hanswer, ?_⟩
  exact { h with
    functions := hfunctions
    nodup := Numbering.nodup_request h.nodup name
    numbered := h.numbered.serve (.reserve name) }

/-! ### Imports -/

/-- An import is declared while there are no functions of the module, so that their indices start
behind it. -/
theorem declare (h : Represents n t) (hnone : n.functions.keys = []) (module name : String)
    (signature : Signature) :
    Represents (n.declare module name signature) (t.declare module name signature) := by
  rcases h.intern signature with ⟨hanswer, hnext⟩
  refine { hnext with imports := ?_, functions := hnext.functions.rebase hnone _ }
  have himports : (t.intern signature).2.imports = (n.intern signature).2.imports := hnext.imports
  change (t.intern signature).2.imports ++ [⟨module, name, (t.intern signature).1⟩] =
    (n.intern signature).2.imports ++ [⟨module, name, (n.intern signature).1⟩]
  rw [himports, hanswer]

theorem declareMethod (h : Represents n t) (hnone : n.functions.keys = []) (d : ImportDecl) :
    Represents (n.declareMethod d) (t.declareMethod d) := by
  unfold Tables.declareMethod Registers.declareMethod
  rw [h.hostMethods]
  cases n.hostMethods.lookup d.name with
  | some i =>
      exact h
  | none =>
      have hdeclared := h.declare hnone d.module d.name d.signature
      exact { hdeclared with hostMethods := by rw [h.imports] }

/-- The methods of the host follow one by one, and no function of the module comes between them. -/
theorem declareMethods (h : Represents n t) (hnone : n.functions.keys = []) (ds : List ImportDecl) :
    Represents (ds.foldl Tables.declareMethod n) (ds.foldl Registers.declareMethod t) := by
  induction ds generalizing n t with
  | nil =>
      exact h
  | cons d ds ih =>
      refine ih (h.declareMethod hnone d) ?_
      unfold Tables.declareMethod
      split
      · exact hnone
      · exact hnone

/-- At the start the tables hold the imports of the bridge and nothing else. -/
theorem ofBridge (bridge : Bridge) (withInterop : Bool) :
    Represents (Tables.ofBridge bridge withInterop) (Registers.ofBridge bridge withInterop) := by
  have hempty : Represents { memory := bridge.memory } { memory := bridge.memory } :=
    { memory := rfl, imports := rfl, hostMethods := rfl, invoker := rfl
      types := Register.numbers_empty 0 id
      globals := Register.numbers_empty 0 GlobalImport.lateBound
      functions := Register.numbers_empty 0 _
      nodup := List.nodup_nil
      numbered := nofun }
  have hallocator := hempty.declare rfl bridge.allocator.module bridge.allocator.name
    ⟨[.i32], some .i32⟩
  have hlogger := hallocator.declare rfl bridge.logger.module bridge.logger.name ⟨[.i32], none⟩
  cases withInterop with
  | true =>
      have hinvoker := hlogger.declare rfl bridge.interop.module bridge.interop.name
        Tables.invokerSignature
      refine declareMethods ?_ rfl bridge.imports
      exact { hinvoker with
        invoker := congrArg (fun imports : List FunctionImport => some imports.length) hlogger.imports }
  | false =>
      exact hlogger.declareMethods rfl bridge.imports

/-! ### Functions -/

/-- A function is complete if its place holds it. -/
theorem isSome_slot (n : Tables) (name : String) :
    (n.slot name).definition.isSome = n.isDefined name :=
  List.isSome_find?

/-- A function that is completed goes into the one place of its name. -/
theorem put (h : Represents n t) {d : Definition} {i : Nat}
    (hfind : n.functions.find? d.function.name = some i)
    (hopen : (n.slot d.function.name).definition = none) :
    Represents { n with definitions := n.definitions ++ [d] }
      (t.put i ⟨d.function.name, some d⟩) := by
  have hat := Numbering.getElem?_of_find? hfind
  have hlt : i < n.functions.keys.length := Numbering.lt_size_of_find? hfind
  have hentries : (t.functions.entries.set i ⟨d.function.name, some d⟩) =
      n.functions.keys.map { n with definitions := n.definitions ++ [d] }.slot := by
    refine List.ext_getElem? fun k => ?_
    rw [h.functions.entries, List.getElem?_set, List.getElem?_map, List.getElem?_map,
      List.length_map]
    by_cases hk : i = k
    · subst hk
      rw [if_pos rfl, if_pos hlt, hat]
      have hnone : n.definitions.find? (·.function.name == d.function.name) = none := hopen
      simp [Tables.slot, List.find?_append, hnone]
    · rw [if_neg hk]
      -- no other place has the name
      refine Option.map_congr fun name hname => ?_
      have hne : d.function.name ≠ name := by
        rintro rfl
        exact hk ((List.getElem?_inj hlt h.nodup).1 (hat.trans hname.symm))
      simp [Tables.slot, List.find?_append, hne]
  refine { h with functions := ⟨hentries, h.functions.find?⟩, numbered := ?_ }
  intro d' hd'
  rcases List.mem_append.1 hd' with hold | hnew
  · exact h.numbered d' hold
  · cases List.mem_singleton.1 hnew
    exact List.mem_of_getElem? hat

/-- The index of a function finds its place, and what is there tells whether the function is
complete. -/
theorem complete (h : Represents n t) {f : Function} {i : Nat}
    (hfind : n.functions.find? f.name = some i) (type : Nat) :
    ∃ t', t.complete (n.imports.length + i) type f =
        some (if n.isDefined f.name then .error (.duplicateFunction f.name)
          else .ok (n.imports.length + i), t') ∧
      Represents
        { n with
          definitions := n.definitions ++ if n.isDefined f.name then [] else [⟨type, f⟩] } t' := by
  -- what stands at the index is what the name finds
  have hslot : t.functions.entries[i]? = some (n.slot f.name) := by
    rw [h.functions.entries, List.getElem?_map, Numbering.getElem?_of_find? hfind]
    rfl
  unfold Registers.complete
  rw [h.imports, if_neg (Nat.not_lt.2 (Nat.le_add_right _ _)), Nat.add_sub_cancel_left, hslot,
    ← isSome_slot]
  cases hdefinition : (n.slot f.name).definition with
  | some d =>
      refine ⟨t, by simp [hdefinition], ?_⟩
      simpa using h
  | none =>
      have hput : Represents { n with definitions := n.definitions ++ [⟨type, f⟩] }
          (t.put i ⟨f.name, some ⟨type, f⟩⟩) := h.put hfind hdefinition
      refine ⟨_, ?_, by simpa using hput⟩
      simp only [hdefinition]
      rfl

theorem define (h : Represents n t) (f : Function) :
    ∃ t', t.define f = some ((n.define f).1, t') ∧ Represents (n.define f).2 t' := by
  rcases h.reserve f.name with ⟨hindex, hreserved⟩
  rcases hreserved.intern f.signature with ⟨htype, hprepared⟩
  have hfind : (n.prepared f).functions.find? f.name = some (n.functions.request f.name).1 :=
    Numbering.find?_request n.functions f.name
  rcases hprepared.complete hfind ((n.reserve f.name).2.intern f.signature).1 with
    ⟨t', hcomplete, hnext⟩
  refine ⟨t', ?_, (Tables.define_snd n f) ▸ hnext⟩
  have hanswer : (n.define f).1 = if n.isDefined f.name then .error (.duplicateFunction f.name)
      else .ok (n.reserve f.name).1 := by
    rw [Tables.define_eq]
    split <;> rfl
  rw [hanswer, Registers.define]
  simp only [hindex, htype]
  exact hcomplete

theorem finish (h : Represents n t) : t.finish = n.finish := by
  have hcomplete : FunctionSlot.complete ∘ n.slot = n.definition := by
    funext name
    rfl
  unfold Registers.finish Tables.finish
  rw [h.functions.entries, h.types.entries, h.globals.entries, h.memory, h.imports, List.mapM_map,
    hcomplete, List.map_id]

/-! ### Requests -/

/-- One request is answered as by the tables. -/
theorem serve (h : Represents n t) (r : Tables.Request) :
    ∃ t', t.serve r = some ((r.serve n).1, t') ∧ Represents (r.serve n).2 t' := by
  cases r with
  | intern signature =>
      rcases h.intern signature with ⟨hanswer, hnext⟩
      refine ⟨_, ?_, hnext⟩
      rw [Registers.serve, hanswer]
      rfl
  | reserve name =>
      rcases h.reserve name with ⟨hanswer, hnext⟩
      refine ⟨_, ?_, hnext⟩
      rw [Registers.serve, hanswer]
      rfl
  | global name =>
      rcases h.global name with ⟨hanswer, hnext⟩
      refine ⟨_, ?_, hnext⟩
      rw [Registers.serve, hanswer]
      rfl
  | importIndex identifier =>
      have hanswer : t.importIndex identifier = n.importIndex identifier := by
        rw [Registers.importIndex, h.hostMethods]
        rfl
      refine ⟨t, ?_, h⟩
      rw [Registers.serve, hanswer]
      rfl
  | define f =>
      exact h.define f

theorem run (h : Represents n t) (rs : List Tables.Request) :
    ∃ t', t.run rs = some (n.answers rs, t') ∧ Represents (n.after rs) t' := by
  induction rs generalizing n t with
  | nil =>
      exact ⟨t, rfl, h⟩
  | cons r rs ih =>
      rcases h.serve r with ⟨t₁, hserve, hnext⟩
      rcases ih hnext with ⟨t', hrun, hlast⟩
      refine ⟨t', ?_, hlast⟩
      simp only [Registers.run, hserve, hrun, Option.bind_eq_bind, Option.bind_some]
      rfl

end Represents

/-- Whatever is asked for, no index misses its row: all requests are answered, as by `Tables`, and
rows and lookups agree behind them. So the finished module is the same, or fails to be one in the
same way. -/
theorem run_ofBridge (bridge : Bridge) (withInterop : Bool) (rs : List Tables.Request) :
    ∃ t, (ofBridge bridge withInterop).run rs =
        some ((Tables.ofBridge bridge withInterop).answers rs, t) ∧
      Represents ((Tables.ofBridge bridge withInterop).after rs) t ∧
      t.finish = ((Tables.ofBridge bridge withInterop).after rs).finish := by
  rcases (Represents.ofBridge bridge withInterop).run rs with ⟨t, hrun, hlast⟩
  exact ⟨t, hrun, hlast, hlast.finish⟩

end Registers

end CilCompiler
