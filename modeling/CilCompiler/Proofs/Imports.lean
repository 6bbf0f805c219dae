import Mathlib.Data.List.Forall2
import CilCompiler.Proofs.Growth

/-!
# Imports

The functions that a module imports: first the ones at fixed places, then the methods that the
bridge declares, each name once.

* `Tables.Typed` says that every import has a signature in the type table, and of what kind.
* `Tables.Provides` ties the methods of the host to the declarations of the bridge: of equal names
  the first one counts.
* `Host.Bridge.declared` lists the imports that a bridge leads to, and `Tables.Declared` says that
  tables import just these, in their order.
* `Tables.typed_ofBridge`, `Tables.provides_ofBridge` and `Tables.declared_ofBridge` say so of the
  tables that a build starts with.
-/

namespace CilCompiler.Tables

open Host (Bridge ImportDecl)
open Wasm (Signature)

variable {t : Tables} {P : Signature → Prop} {ds : List ImportDecl}

/-! ## Signatures -/

/-- Every import has a signature, and one that satisfies `P`. -/
def Typed (P : Signature → Prop) (t : Tables) : Prop :=
  ∀ f ∈ t.imports, ∃ signature, t.types.keys[f.type]? = some signature ∧ P signature

theorem imports_declare (t : Tables) (module name : String) (signature : Signature) :
    (t.declare module name signature).imports =
      t.imports ++ [⟨module, name, (t.types.request signature).1⟩] := rfl

theorem Typed.declare (h : Typed P t) (module name : String) {signature : Signature}
    (hp : P signature) : Typed P (t.declare module name signature) := by
  intro f hf
  rcases List.mem_append.1 hf with hf | hf
  · rcases h f hf with ⟨sig, hsig, hp'⟩
    exact ⟨sig, getElem?_of_isPrefix (Numbering.prefix_request t.types signature) hsig, hp'⟩
  · cases List.mem_singleton.1 hf
    have hfind := Numbering.find?_request t.types signature
    exact ⟨signature, Numbering.getElem?_of_find? hfind, hp⟩

theorem Typed.declareMethod (h : Typed P t) {d : ImportDecl} (hp : P d.signature) :
    Typed P (t.declareMethod d) := by
  unfold Tables.declareMethod
  cases t.hostMethods.lookup d.name with
  | some i =>
      exact h
  | none =>
      exact h.declare d.module d.name hp

theorem Typed.foldl (h : Typed P t) (hds : ∀ d ∈ ds, P d.signature) :
    Typed P (ds.foldl Tables.declareMethod t) := by
  induction ds generalizing t with
  | nil =>
      exact h
  | cons d ds ih =>
      exact ih (h.declareMethod (hds d (by simp))) fun d' hd' => hds d' (by simp [hd'])

/-! ## Imports at fixed places -/

/-- The tables with the imports at fixed places, before any method of the host. -/
def fixedPart (bridge : Bridge) (withInterop : Bool) : Tables :=
  let t : Tables := { memory := bridge.memory }
  let t := t.declare bridge.allocator.module bridge.allocator.name ⟨[.i32], some .i32⟩
  let t := t.declare bridge.logger.module bridge.logger.name ⟨[.i32], none⟩
  if withInterop then
    { t.declare bridge.interop.module bridge.interop.name invokerSignature with
      invoker := some t.imports.length }
  else t

theorem ofBridge_eq (bridge : Bridge) (withInterop : Bool) :
    ofBridge bridge withInterop =
      bridge.imports.foldl Tables.declareMethod (fixedPart bridge withInterop) := rfl

/-- The number of imports at fixed places. -/
def fixedCount (withInterop : Bool) : Nat := if withInterop then 3 else 2

/-- The signatures of the imports at fixed places. -/
def fixedSignatures : List Signature :=
  [⟨[.i32], some .i32⟩, ⟨[.i32], none⟩, invokerSignature]

theorem typed_fixedPart (bridge : Bridge) (withInterop : Bool)
    (hfixed : ∀ signature ∈ fixedSignatures, P signature) :
    Typed P (fixedPart bridge withInterop) := by
  have hnone : Typed P { memory := bridge.memory } := by
    intro f hf
    cases hf
  have hone := hnone.declare bridge.allocator.module bridge.allocator.name
    (hfixed ⟨[.i32], some .i32⟩ (by simp [fixedSignatures]))
  have htwo := hone.declare bridge.logger.module bridge.logger.name
    (hfixed ⟨[.i32], none⟩ (by simp [fixedSignatures]))
  cases withInterop with
  | false =>
      exact htwo
  | true =>
      exact htwo.declare bridge.interop.module bridge.interop.name
        (hfixed invokerSignature (by simp [fixedSignatures]))

theorem typed_ofBridge {bridge : Bridge} (withInterop : Bool)
    (hfixed : ∀ signature ∈ fixedSignatures, P signature)
    (hds : ∀ d ∈ bridge.imports, P d.signature) : Typed P (ofBridge bridge withInterop) := by
  rw [ofBridge_eq]
  exact (typed_fixedPart bridge withInterop hfixed).foldl hds

theorem invoker_foldl {ds : List ImportDecl} {t : Tables} :
    (ds.foldl Tables.declareMethod t).invoker = t.invoker := by
  induction ds generalizing t with
  | nil =>
      rfl
  | cons d ds ih =>
      rw [List.foldl_cons, ih]
      unfold Tables.declareMethod
      split <;> rfl

theorem invoker_ofBridge (bridge : Bridge) (withInterop : Bool) :
    (ofBridge bridge withInterop).invoker = if withInterop then some 2 else none := by
  rw [ofBridge_eq, invoker_foldl]
  cases withInterop <;> rfl

/-! ## Methods of the host -/

/-- The tables provide the methods `ds`, from the index `first` on. -/
structure Provides (first : Nat) (ds : List ImportDecl) (t : Tables) : Prop where
  definitions : t.definitions = []
  functions : t.functions.keys = []
  bound : first ≤ t.imports.length
  allocator : ∃ f, t.imports[Tables.allocator]? = some f ∧
    t.types.keys[f.type]? = some ⟨[.i32], some .i32⟩
  invoker {n : Nat} : t.invoker = some n → n < first
  /-- A name that has an index has it from the first declaration. -/
  found {name : String} {n : Nat} : t.hostMethods.lookup name = some n →
    first ≤ n ∧ ∃ d type, ds.find? (·.name == name) = some d ∧
      t.imports[n]? = some ⟨d.module, name, type⟩ ∧ t.types.keys[type]? = some d.signature
  missing {name : String} : t.hostMethods.lookup name = none → ∀ d ∈ ds, d.name ≠ name
  /-- Every import from there on is found under its name. -/
  listed {n : Nat} {f : FunctionImport} : first ≤ n → t.imports[n]? = some f →
    t.hostMethods.lookup f.name = some n

theorem provides_fixedPart (bridge : Bridge) (withInterop : Bool) :
    Provides (fixedCount withInterop) [] (fixedPart bridge withInterop) := by
  have hlength : (fixedPart bridge withInterop).imports.length = fixedCount withInterop := by
    cases withInterop <;> rfl
  have hnone : ∀ name, (fixedPart bridge withInterop).hostMethods.lookup name = none := by
    intro name
    cases withInterop <;> rfl
  refine ⟨?_, ?_, Nat.le_of_eq hlength.symm, ?_, ?_, ?_, ?_, ?_⟩
  · cases withInterop <;> rfl
  · cases withInterop <;> rfl
  · cases withInterop <;> exact ⟨_, rfl, rfl⟩
  · intro n hn
    cases withInterop with
    | false =>
        cases hn
    | true =>
        cases hn
        exact Nat.lt_succ_self 2
  · intro name n hn
    rw [hnone] at hn
    cases hn
  · intro name _ d hd
    cases hd
  · intro n f hle hf
    rcases List.getElem?_eq_some_iff.1 hf with ⟨hlt, _⟩
    omega

/-- A name that is taken leaves the tables as they are. -/
theorem Provides.declareMethod_taken {first i : Nat} (h : Provides first ds t) {d : ImportDecl}
    (hd : t.hostMethods.lookup d.name = some i) : Provides first (ds ++ [d]) t := by
  refine { h with found := ?_, missing := ?_ }
  · intro name n hn
    rcases h.found hn with ⟨hle, d', type, hfirst, himport, htype⟩
    exact ⟨hle, d', type, by simp [hfirst], himport, htype⟩
  · intro name hnone d' hd'
    rcases List.mem_append.1 hd' with hd' | hd'
    · exact h.missing hnone d' hd'
    · cases List.mem_singleton.1 hd'
      intro heq
      rw [← heq, hd] at hnone
      cases hnone

/-- A new name gets the next index. -/
theorem Provides.declareMethod_new {first : Nat} (h : Provides first ds t) {d : ImportDecl}
    (hd : t.hostMethods.lookup d.name = none) :
    Provides first (ds ++ [d])
      { t.declare d.module d.name d.signature with
        hostMethods := t.hostMethods ++ [(d.name, t.imports.length)] } := by
  have hprefix := Numbering.prefix_request t.types d.signature
  have htype := Numbering.getElem?_of_find? (Numbering.find?_request t.types d.signature)
  have hlookup : ∀ name, (t.hostMethods ++ [(d.name, t.imports.length)]).lookup name =
      (t.hostMethods.lookup name).or (if name == d.name then some t.imports.length else none) := by
    intro name
    rw [List.lookup_append]
    cases heq : name == d.name <;> simp [List.lookup_cons, heq]
  refine ⟨h.definitions, h.functions, ?_, ?_, h.invoker, ?_, ?_, ?_⟩
  · have hbound := h.bound
    simp only [imports_declare, List.length_append]
    omega
  · rcases h.allocator with ⟨f, hf, hsignature⟩
    exact ⟨f, getElem?_of_isPrefix (List.prefix_append _ _) hf,
      getElem?_of_isPrefix hprefix hsignature⟩
  · intro name n hn
    rw [hlookup] at hn
    cases hold : t.hostMethods.lookup name with
    | some i =>
        -- the old entries come first, so what they say still holds
        rw [hold] at hn
        cases hn
        rcases h.found hold with ⟨hle, d', type, hfirst, himport, htype'⟩
        exact ⟨hle, d', type, by simp [hfirst],
          getElem?_of_isPrefix (List.prefix_append _ _) himport, getElem?_of_isPrefix hprefix htype'⟩
    | none =>
        rw [hold] at hn
        by_cases hname : name = d.name
        · subst hname
          have hn : t.imports.length = n := by simpa using hn
          -- no earlier declaration has the name, so this one is the first
          have hnot : ds.find? (·.name == d.name) = none :=
            List.find?_eq_none.2 fun d' hd' => by simpa using h.missing hold d' hd'
          subst hn
          exact ⟨h.bound, d, _, by simp [hnot], by simp [imports_declare], htype⟩
        · simp [hname] at hn
  · intro name hnone d' hd'
    rw [hlookup] at hnone
    rcases Option.or_eq_none_iff.1 hnone with ⟨hold, hnew⟩
    rcases List.mem_append.1 hd' with hd' | hd'
    · exact h.missing hold d' hd'
    · cases List.mem_singleton.1 hd'
      intro heq
      simp [heq] at hnew
  · intro n f hle hf
    rw [hlookup]
    simp only [imports_declare] at hf
    by_cases hlt : n < t.imports.length
    · rw [List.getElem?_append_left hlt] at hf
      rw [h.listed hle hf]
      rfl
    · -- behind the old imports there is only the new one
      rw [List.getElem?_append_right (Nat.le_of_not_lt hlt)] at hf
      rcases List.mem_singleton.1 (List.mem_of_getElem? hf) with rfl
      rcases List.getElem?_eq_some_iff.1 hf with ⟨hlt', _⟩
      have hn : n = t.imports.length := by
        simp only [List.length_singleton] at hlt'
        omega
      simp [hd, hn]

theorem Provides.declareMethod {first : Nat} (h : Provides first ds t) (d : ImportDecl) :
    Provides first (ds ++ [d]) (t.declareMethod d) := by
  unfold Tables.declareMethod
  split
  · next hd => exact h.declareMethod_taken hd
  · next hd => exact h.declareMethod_new hd

theorem Provides.foldl {first : Nat} (h : Provides first ds t) (ds' : List ImportDecl) :
    Provides first (ds ++ ds') (ds'.foldl Tables.declareMethod t) := by
  induction ds' generalizing ds t with
  | nil =>
      simpa using h
  | cons d ds' ih =>
      simpa using ih (h.declareMethod d)

/-- The tables a build starts with provide the methods of the bridge. -/
theorem provides_ofBridge (bridge : Bridge) (withInterop : Bool) :
    Provides (fixedCount withInterop) bridge.imports (ofBridge bridge withInterop) := by
  rw [ofBridge_eq]
  exact (provides_fixedPart bridge withInterop).foldl bridge.imports

end CilCompiler.Tables

namespace CilCompiler

/-! ## Declared imports -/

namespace Host

/-- The declarations whose name no earlier one has. -/
def firstOfEachName (ds : List ImportDecl) : List ImportDecl :=
  ds.eraseDupsBy fun d d' => d.name == d'.name

namespace Bridge

/-- The allocator takes a type handle and returns an address. -/
def allocatorDecl (b : Bridge) : ImportDecl :=
  ⟨b.allocator.module, b.allocator.name, [.i32], some .i32⟩

def loggerDecl (b : Bridge) : ImportDecl :=
  ⟨b.logger.module, b.logger.name, [.i32], none⟩

/-- The invoker takes a method handle, a count and four arguments, and returns a word. -/
def invokerDecl (b : Bridge) : ImportDecl :=
  ⟨b.interop.module, b.interop.name, List.replicate 6 .i32, some .i32⟩

/-- The imports at fixed places. -/
def fixed (b : Bridge) (withInterop : Bool) : List ImportDecl :=
  [b.allocatorDecl, b.loggerDecl] ++ if withInterop then [b.invokerDecl] else []

/-- Everything that is imported, in order: of the methods of the host the first of each name. -/
def declared (b : Bridge) (withInterop : Bool) : List ImportDecl :=
  b.fixed withInterop ++ firstOfEachName b.imports

end Bridge

end Host

namespace Host

theorem firstOfEachName_cons (first : ImportDecl) (ds : List ImportDecl) :
    firstOfEachName (first :: ds) =
      first :: firstOfEachName (ds.filter fun d => d.name != first.name) := by
  simp only [firstOfEachName, List.eraseDupsBy_cons, bne, Bool.decide_eq_false]

theorem firstOfEachName_concat (ds : List ImportDecl) (d : ImportDecl) :
    firstOfEachName (ds ++ [d]) =
      if d.name ∈ ds.map ImportDecl.name then firstOfEachName ds else firstOfEachName ds ++ [d] := by
  cases ds with
  | nil =>
      rfl
  | cons first ds =>
      rw [List.cons_append, firstOfEachName_cons, firstOfEachName_cons, List.filter_append]
      by_cases hname : d.name = first.name
      · simp [hname]
      · -- what the first declaration strikes out does not have the name of the last one
        have hlater := firstOfEachName_concat (ds.filter fun d => d.name != first.name) d
        have hmem : d.name ∈ (ds.filter fun d => d.name != first.name).map ImportDecl.name ↔
            d.name ∈ (first :: ds).map ImportDecl.name := by
          simp only [List.mem_map, List.mem_filter, List.mem_cons, bne_iff_ne]
          constructor
          · rintro ⟨d', ⟨hd', _⟩, heq⟩
            exact ⟨d', .inr hd', heq⟩
          · rintro ⟨d', rfl | hd', heq⟩
            · exact absurd heq.symm hname
            · exact ⟨d', ⟨hd', heq ▸ hname⟩, heq⟩
        have hkeep : [d].filter (fun d => d.name != first.name) = [d] := by simp [hname]
        rw [hkeep, hlater]
        simp only [hmem]
        split <;> rfl
termination_by ds.length
decreasing_by
  simp only [List.length_cons]
  exact Nat.lt_succ_of_le (List.length_filter_le _ _)

end Host

/-- The import `f` of a module with the given types is what `d` declares. -/
structure Host.ImportDecl.Describes (types : List Wasm.Signature) (d : ImportDecl)
    (f : FunctionImport) : Prop where
  module : f.module = d.module
  name : f.name = d.name
  signature : types[f.type]? = some d.signature

namespace Tables

open Host (Bridge ImportDecl firstOfEachName firstOfEachName_concat)
open Wasm (Signature)

section Declared

variable {t : Tables} {ds seen : List ImportDecl} {first : Nat} {bridge : Bridge}
  {withInterop : Bool}

/-- The imports `ds` are declared, and nothing else is numbered. -/
structure Declared (ds : List ImportDecl) (t : Tables) : Prop where
  imports : ds.Forall₂ (ImportDecl.Describes t.types.keys) t.imports
  types : t.types.keys = (ds.map ImportDecl.signature).eraseDups
  globals : t.globals.keys = []

theorem Declared.declare (h : Declared ds t) (d : ImportDecl) :
    Declared (ds ++ [d]) (t.declare d.module d.name d.signature) where
  imports := by
    have hprefix := Numbering.prefix_request t.types d.signature
    have hold : ds.Forall₂ (ImportDecl.Describes (t.types.request d.signature).2.keys) t.imports :=
      h.imports.imp fun d' f hf => ⟨hf.module, hf.name, getElem?_of_isPrefix hprefix hf.signature⟩
    have hfind := Numbering.find?_request t.types d.signature
    have hnew : d.Describes (t.types.request d.signature).2.keys
        ⟨d.module, d.name, (t.types.request d.signature).1⟩ :=
      ⟨rfl, rfl, Numbering.getElem?_of_find? hfind⟩
    exact List.rel_append hold (.cons hnew .nil)
  types := by
    rw [List.map_append]
    exact Numbering.keys_requestAll h.types [d.signature]
  globals := h.globals

theorem Declared.declareMethod {fixed : List ImportDecl}
    (h : Declared (fixed ++ firstOfEachName seen) t) (hp : Provides first seen t) (d : ImportDecl) :
    Declared (fixed ++ firstOfEachName (seen ++ [d])) (t.declareMethod d) := by
  rw [firstOfEachName_concat]
  unfold Tables.declareMethod
  cases hd : t.hostMethods.lookup d.name with
  | some i =>
      rcases (hp.found hd).2 with ⟨d', _, hfind, _⟩
      have hname : d'.name = d.name := by simpa using List.find?_some hfind
      rw [if_pos (hname ▸ List.mem_map_of_mem (List.mem_of_find?_eq_some hfind))]
      exact h
  | none =>
      have hnot : d.name ∉ seen.map ImportDecl.name := by
        rintro hmem
        rcases List.mem_map.1 hmem with ⟨d', hd', hname⟩
        exact hp.missing hd d' hd' hname
      rw [if_neg hnot, ← List.append_assoc]
      exact { h.declare d with }

theorem Declared.foldl {fixed : List ImportDecl} (h : Declared (fixed ++ firstOfEachName seen) t)
    (hp : Provides first seen t) (ds : List ImportDecl) :
    Declared (fixed ++ firstOfEachName (seen ++ ds)) (ds.foldl Tables.declareMethod t) := by
  induction ds generalizing seen t with
  | nil =>
      simpa using h
  | cons d ds ih =>
      simpa using ih (h.declareMethod hp d) (hp.declareMethod d)

theorem declared_fixedPart (bridge : Bridge) (withInterop : Bool) :
    Declared (bridge.fixed withInterop) (fixedPart bridge withInterop) := by
  have hnone : Declared [] { memory := bridge.memory } := ⟨.nil, rfl, rfl⟩
  have htwo := (hnone.declare bridge.allocatorDecl).declare bridge.loggerDecl
  cases withInterop with
  | false =>
      exact htwo
  | true =>
      exact { htwo.declare bridge.invokerDecl with }

/-- The tables of a bridge declare its imports, in their order and nothing else. -/
theorem declared_ofBridge (bridge : Bridge) (withInterop : Bool) :
    Declared (bridge.declared withInterop) (ofBridge bridge withInterop) := by
  have hfixed : Declared (bridge.fixed withInterop ++ firstOfEachName [])
      (fixedPart bridge withInterop) := by
    rw [show firstOfEachName [] = [] from rfl, List.append_nil]
    exact declared_fixedPart bridge withInterop
  exact hfixed.foldl (provides_fixedPart bridge withInterop) bridge.imports

theorem importIndex_ok_iff_lookup {t : Tables} {identifier : String} {i : Nat} :
    t.importIndex identifier = .ok i ↔ t.hostMethods.lookup identifier = some i := by
  unfold importIndex
  cases t.hostMethods.lookup identifier <;> simp

theorem length_fixed (bridge : Bridge) (withInterop : Bool) :
    (bridge.fixed withInterop).length = fixedCount withInterop := by
  cases withInterop <;> rfl

theorem getElem?_of_forall₂ {α β : Type} {R : α → β → Prop} {xs : List α} {ys : List β}
    (h : xs.Forall₂ R ys) {i : Nat} {x : α} (hx : xs[i]? = some x) :
    ∃ y, ys[i]? = some y ∧ R x y := by
  induction h generalizing i with
  | nil =>
      cases hx
  | cons hr _ ih =>
      cases i with
      | zero =>
          cases hx
          exact ⟨_, rfl, hr⟩
      | succ i =>
          exact ih hx

theorem importIndex_ofBridge_iff {identifier : String} {i : Nat} :
    (ofBridge bridge withInterop).importIndex identifier = .ok i ↔
      (bridge.fixed withInterop).length ≤ i ∧
        ∃ d, (bridge.declared withInterop)[i]? = some d ∧ d.name = identifier := by
  have hprovides := provides_ofBridge bridge withInterop
  have himports := (declared_ofBridge bridge withInterop).imports
  rw [importIndex_ok_iff_lookup, length_fixed]
  constructor
  · intro hlookup
    rcases hprovides.found hlookup with ⟨hle, d, type, -, hget, -⟩
    rcases getElem?_of_forall₂ himports.flip hget with ⟨d', hd', hdescribes⟩
    exact ⟨hle, d', hd', hdescribes.name.symm⟩
  · rintro ⟨hle, d, hd, rfl⟩
    rcases getElem?_of_forall₂ himports hd with ⟨f, hf, hdescribes⟩
    rw [← hdescribes.name]
    exact hprovides.listed hle hf

end Declared

end Tables

end CilCompiler
