import CilCompiler.Proofs.Compiled

/-!
# Code with names

The operators of a module hold indices of functions and globals. Read against the tables of the
module, they can be told by names instead, and names do not change their meaning when the tables
grow.

* `Names` gives the indices of a module their meaning; `Names.name?` reads an operator back.
* `Tables.requested` are the tables after a request for every name in some code.
* `Writes` says that code with names is written with the numbers that these requests gave.
-/

namespace CilCompiler

open Host (ImportDecl)
open Wasm (Op Signature)

/-! ## Operators with names -/

/-- What a call leads to. -/
inductive Callee
  /-- A function of the module, by its name. -/
  | own (name : String)
  /-- A function that the host provides. -/
  | host (d : ImportDecl)
  deriving DecidableEq

/-- An operator with names in the place of the indices of the module. -/
inductive NamedOp
  /-- An operator without such an index. -/
  | plain (op : Op)
  | call (callee : Callee)
  | globalGet (name : String)
  deriving DecidableEq

/-- The function of the module that an operator names. -/
def NamedOp.function? : NamedOp → Option String
  | .call (.own name) => some name
  | _ => none

/-- The global that an operator names. -/
def NamedOp.global? : NamedOp → Option String
  | .globalGet name => some name
  | _ => none

/-- What the indices of a module stand for. -/
structure Names where
  types : List Signature
  imports : List FunctionImport
  functions : List String
  globals : List String

namespace Names

/-- The import at an index, with its signature. -/
def import? (n : Names) (index : Nat) : Option ImportDecl :=
  n.imports[index]?.bind fun f =>
    n.types[f.type]?.map fun signature => ⟨f.module, f.name, signature.params, signature.result⟩

/-- The function at an index. The imports hold the lowest ones. -/
def callee? (n : Names) (index : Nat) : Option Callee :=
  if index < n.imports.length then (n.import? index).map .host
  else n.functions[index - n.imports.length]?.map .own

/-- An operator with names in the place of indices, if they all stand for something. -/
def name? (n : Names) : Op → Option NamedOp
  | .call index => (n.callee? index).map .call
  | .globalGet index => n.globals[index]?.map .globalGet
  | op => some (.plain op)

/-- `n'` knows all that `n` knows. -/
structure Grows (n n' : Names) : Prop where
  types : n.types <+: n'.types
  imports : n'.imports = n.imports
  functions : n.functions <+: n'.functions
  globals : n.globals <+: n'.globals

variable {n n' : Names}

theorem callee?_of_import {index : Nat} {f : FunctionImport} {d : ImportDecl}
    (hf : n.imports[index]? = some f) (hd : d.Describes n.types f) :
    n.callee? index = some (.host d) := by
  rcases List.getElem?_eq_some_iff.1 hf with ⟨hlt, -⟩
  have himport : n.import? index = some d := by
    simp only [import?, hf, Option.bind_some, hd.signature, Option.map_some, hd.module, hd.name,
      ImportDecl.signature]
  rw [callee?, if_pos hlt, himport]
  rfl

theorem callee?_of_function {k : Nat} {name : String} (h : n.functions[k]? = some name) :
    n.callee? (n.imports.length + k) = some (.own name) := by
  rw [callee?, if_neg (by omega), Nat.add_sub_cancel_left, h]
  rfl

theorem callee?_of_grows (hg : n.Grows n') {index : Nat} {callee : Callee}
    (h : n.callee? index = some callee) : n'.callee? index = some callee := by
  unfold callee? at h ⊢
  rw [hg.imports]
  by_cases hlt : index < n.imports.length
  · rw [if_pos hlt] at h ⊢
    rcases Option.map_eq_some_iff.1 h with ⟨d, hd, rfl⟩
    rcases Option.bind_eq_some_iff.1 hd with ⟨f, hf, hd⟩
    rcases Option.map_eq_some_iff.1 hd with ⟨signature, hsignature, rfl⟩
    simp only [import?, hg.imports, hf, Option.bind_some,
      getElem?_of_isPrefix hg.types hsignature, Option.map_some]
  · rw [if_neg hlt] at h ⊢
    rcases Option.map_eq_some_iff.1 h with ⟨name, hname, rfl⟩
    rw [getElem?_of_isPrefix hg.functions hname]
    rfl

theorem name?_of_grows (hg : n.Grows n') {op : Op} {named : NamedOp} (h : n.name? op = some named) :
    n'.name? op = some named := by
  cases op with
  | call index =>
      rcases Option.map_eq_some_iff.1 h with ⟨callee, hcallee, rfl⟩
      rw [name?, callee?_of_grows hg hcallee]
      rfl
  | globalGet index =>
      rcases Option.map_eq_some_iff.1 h with ⟨name, hname, rfl⟩
      rw [name?, getElem?_of_isPrefix hg.globals hname]
      rfl
  | _ =>
      exact h

theorem mapM_name?_of_grows (hg : n.Grows n') {ops : List Op} {named : List NamedOp}
    (h : ops.mapM n.name? = some named) : ops.mapM n'.name? = some named := by
  induction ops generalizing named with
  | nil =>
      exact h
  | cons op ops ih =>
      simp only [List.mapM_cons, Option.bind_eq_bind, Option.bind_eq_some_iff] at h ⊢
      rcases h with ⟨first, hfirst, rest, hrest, heq⟩
      exact ⟨first, name?_of_grows hg hfirst, rest, ih hrest, heq⟩

theorem mapM_name?_append {ops ops' : List Op} {named named' : List NamedOp}
    (h : ops.mapM n.name? = some named) (h' : ops'.mapM n.name? = some named') :
    (ops ++ ops').mapM n.name? = some (named ++ named') := by
  rw [List.mapM_append, h, h']
  rfl

/-- Operators without indices name themselves. -/
theorem mapM_name?_plain {ops : List Op} (h : ∀ op ∈ ops, n.name? op = some (.plain op)) :
    ops.mapM n.name? = some (ops.map .plain) := by
  induction ops with
  | nil =>
      rfl
  | cons op ops ih =>
      have hrest := ih fun op' hop' => h op' (by simp [hop'])
      rw [List.mapM_cons, h op (by simp), hrest]
      rfl

end Names

/-- The meaning of indices while a module is built. -/
def Tables.toNames (t : Tables) : Names :=
  ⟨t.types.keys, t.imports, t.functions.keys, t.globals.keys⟩

/-- The meaning of indices in a finished module. -/
def Image.toNames (image : Image) : Names :=
  ⟨image.types, image.imports, image.functions.map (·.function.name),
    image.globals.map GlobalImport.name⟩

/-- Late-bound globals have the names that were asked for. -/
@[simp] theorem map_name_lateBound (names : List String) :
    (names.map GlobalImport.lateBound).map GlobalImport.name = names := by
  rw [List.map_map]
  exact List.map_id names

theorem Tables.Grows.toNames {t t' : Tables} (hg : t.Grows t') : t.toNames.Grows t'.toNames :=
  ⟨hg.types, hg.imports, hg.functions, hg.globals⟩

/-! ## Names that a draft asks for -/

namespace Tables

/-- The tables after a request for every name in a draft. -/
def requested (t : Tables) (named : List NamedOp) : Tables :=
  { t with
    functions := t.functions.requestAll (named.filterMap NamedOp.function?)
    globals := t.globals.requestAll (named.filterMap NamedOp.global?) }

theorem requested_append (t : Tables) (named named' : List NamedOp) :
    t.requested (named ++ named') = (t.requested named).requested named' := by
  simp only [requested, List.filterMap_append, Numbering.requestAll_append]

theorem requested_plain (t : Tables) (ops : List Op) : t.requested (ops.map .plain) = t := by
  have hfunctions : (ops.map NamedOp.plain).filterMap NamedOp.function? = [] := by
    simp [NamedOp.function?]
  have hglobals : (ops.map NamedOp.plain).filterMap NamedOp.global? = [] := by
    simp [NamedOp.global?]
  rw [requested, hfunctions, hglobals]
  rfl

theorem extends_requested (t : Tables) (named : List NamedOp) : t.Extends (t.requested named) := by
  refine { Extends.refl t with globals := ?_, functions := ?_, distinct := ?_ }
  · exact Numbering.prefix_requestAll t.globals _
  · exact Numbering.prefix_requestAll t.functions _
  · exact fun hn => Numbering.nodup_requestAll hn _

end Tables

/-- From the tables `t` on, the names in the draft `named` were asked for, and with the numbers that
they got it is written as `ops`. -/
structure Writes (t : Tables) (ops : List Op) (named : List NamedOp) (s : BuildState) : Prop where
  tables : s.tables = t.requested named
  names : ops.mapM s.tables.toNames.name? = some named

/-- Whether an operator holds no index of the module. -/
def Wasm.Op.isPlain : Op → Bool
  | .call _ | .globalGet _ => false
  | _ => true

theorem Names.name?_of_isPlain {op : Op} (h : op.isPlain) (n : Names) :
    n.name? op = some (.plain op) := by
  cases op with
  | call index =>
      cases h
  | globalGet index =>
      cases h
  | _ =>
      rfl

theorem all_isPlain_epilogue (hasResult : Bool) : (epilogue hasResult).all Op.isPlain := by
  cases hasResult <;> rfl

theorem all_isPlain_replicate (n : Nat) (op : Op) (h : op.isPlain) :
    (List.replicate n op).all Op.isPlain := by
  simp [h]

namespace Writes

variable {t : Tables} {s s' : BuildState} {ops ops' : List Op} {named named' : List NamedOp}

theorem grown (h : Writes t ops named s) : t.Extends s.tables :=
  h.tables ▸ t.extends_requested named

theorem append (h : Writes t ops named s) (h' : Writes s.tables ops' named' s') :
    Writes t (ops ++ ops') (named ++ named') s' where
  tables := by
    rw [Tables.requested_append, ← h.tables]
    exact h'.tables
  names := by
    have hgrown := h'.grown.toGrows.toNames
    exact Names.mapM_name?_append (Names.mapM_name?_of_grows hgrown h.names) h'.names

theorem plain (ops : List Op) (h : ops.all Op.isPlain) :
    Writes s.tables ops (ops.map .plain) s where
  tables := (s.tables.requested_plain ops).symm
  names := Names.mapM_name?_plain fun op hop =>
    Names.name?_of_isPlain (List.all_eq_true.1 h op hop) _

theorem reserve (s : BuildState) (name : String) (log : Array Event) :
    Writes s.tables [.call (s.tables.reserve name).1] [.call (.own name)]
      { tables := (s.tables.reserve name).2, log } where
  tables := rfl
  names := by
    have hfind := Numbering.find?_request s.tables.functions name
    have hkey : (s.tables.reserve name).2.toNames.functions[(s.tables.functions.request name).1]? =
        some name := Numbering.getElem?_of_find? hfind
    have hcallee := Names.callee?_of_function hkey
    simp only [List.mapM_cons, List.mapM_nil, Names.name?]
    rw [show (s.tables.reserve name).1 = (s.tables.reserve name).2.toNames.imports.length +
      (s.tables.functions.request name).1 from rfl, hcallee]
    rfl

theorem global (s : BuildState) (name : String) (log : Array Event) :
    Writes s.tables [.globalGet (s.tables.global name).1] [.globalGet name]
      { tables := (s.tables.global name).2, log } where
  tables := rfl
  names := by
    have hfind := Numbering.find?_request s.tables.globals name
    have hkey : (s.tables.global name).2.toNames.globals[(s.tables.global name).1]? = some name :=
      Numbering.getElem?_of_find? hfind
    simp only [List.mapM_cons, List.mapM_nil, Names.name?, hkey]
    rfl

theorem host {index : Nat} {d : ImportDecl} (h : s.tables.toNames.callee? index = some (.host d)) :
    Writes s.tables [.call index] [.call (.host d)] s where
  tables := rfl
  names := by
    simp only [List.mapM_cons, List.mapM_nil, Names.name?, h]
    rfl

end Writes

end CilCompiler
