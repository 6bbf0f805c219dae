import CilCompiler.Proofs.Compiled

/-!
# Requests to the tables of a module

The tables of a module answer requests for indices. Whatever is asked for, and in whatever order,
the answers are determined by the list of requests alone: a key gets the number of different keys
that were asked for before it, and keeps it.

* `Tables.Request` is a request, `Tables.answers` are the answers to a list of them and
  `Tables.after` are the tables behind it.
* `Tables.indexSpaces_after` describes the index spaces after any requests.
-/

namespace CilCompiler

namespace Tables

open Host (Bridge ImportDecl)
open Wasm (Signature)

/-! ## Requests -/

/-- A request to the tables of a module. -/
inductive Request
  | intern (signature : Signature)
  | reserve (name : String)
  | global (name : String)
  | importIndex (identifier : String)
  | define (f : Function)

/-- The tables number three kinds of keys, each on its own. -/
inductive Space
  | types
  | functions
  | globals
  deriving DecidableEq

inductive Key
  | type (signature : Signature)
  | function (name : String)
  | global (name : String)
  deriving DecidableEq

def Key.space : Key → Space
  | .type _ => .types
  | .function _ => .functions
  | .global _ => .globals

/-- The index of a key. Functions come behind the imports. -/
def indexOf (t : Tables) : Key → Option Nat
  | .type signature => t.types.find? signature
  | .function name => (t.functions.find? name).map (t.imports.length + ·)
  | .global name => t.globals.find? name

namespace Request

/-- The answer to a request, and the tables behind it. -/
def serve (t : Tables) : Request → Except CompileError Nat × Tables
  | .intern signature => (.ok (t.intern signature).1, (t.intern signature).2)
  | .reserve name => (.ok (t.reserve name).1, (t.reserve name).2)
  | .global name => (.ok (t.global name).1, (t.global name).2)
  | .importIndex identifier => (t.importIndex identifier, t)
  | .define f => t.define f

/-- The key whose index a request asks for. Methods of the host are not numbered on request. -/
def key? : Request → Option Key
  | .intern signature => some (.type signature)
  | .reserve name => some (.function name)
  | .global name => some (.global name)
  | .importIndex _ => none
  | .define f => some (.function f.name)

/-- The signature that a request puts into the type table. -/
def signature? : Request → Option Signature
  | .intern signature => some signature
  | .define f => some f.signature
  | _ => none

/-- The function that a request reserves. -/
def function? : Request → Option String
  | .reserve name => some name
  | .define f => some f.name
  | _ => none

/-- The global that a request binds. -/
def global? : Request → Option String
  | .global name => some name
  | _ => none

/-- The function that a request completes, unless one of its name is complete. -/
def definition? : Request → Option Function
  | .define f => some f
  | _ => none

end Request

/-- The tables after some requests, failing or not. -/
def after (t : Tables) (rs : List Request) : Tables :=
  rs.foldl (fun t r => (r.serve t).2) t

/-- The answers to some requests. -/
def answers (t : Tables) : List Request → List (Except CompileError Nat)
  | [] => []
  | r :: rs => (r.serve t).1 :: (r.serve t).2.answers rs

section Serving

variable {t t' : Tables} {r : Request} {rs : List Request} {key key' : Key} {i k : Nat}
  {name : String}

/-! ### One request -/

/-- A definition numbers its keys and completes the function if none of its name is complete. -/
theorem define_snd (t : Tables) (f : Function) :
    (t.define f).2 =
      { t.prepared f with
        definitions := t.definitions ++
          if t.isDefined f.name then [] else [⟨((t.reserve f.name).2.intern f.signature).1, f⟩] } := by
  rw [define_eq]
  by_cases hd : t.isDefined f.name
  · rw [if_pos hd, if_pos hd, List.append_nil]
    rfl
  · rw [if_neg hd, if_neg hd]

theorem grows_serve (t : Tables) (r : Request) : t.Grows (r.serve t).2 := by
  cases r with
  | intern signature =>
      exact (t.extends_intern signature).toGrows
  | reserve name =>
      exact (t.extends_reserve name).toGrows
  | global name =>
      exact (t.extends_global name).toGrows
  | importIndex identifier =>
      exact (Extends.refl t).toGrows
  | define f =>
      rw [Request.serve, define_snd]
      exact { (t.extends_prepared f).toGrows with }

theorem types_serve (t : Tables) (r : Request) :
    (r.serve t).2.types = t.types.requestAll r.signature?.toList := by
  cases r with
  | define f =>
      rw [Request.serve, define_snd]
      rfl
  | _ =>
      rfl

theorem functions_serve (t : Tables) (r : Request) :
    (r.serve t).2.functions = t.functions.requestAll r.function?.toList := by
  cases r with
  | define f =>
      rw [Request.serve, define_snd]
      rfl
  | _ =>
      rfl

theorem globals_serve (t : Tables) (r : Request) :
    (r.serve t).2.globals = t.globals.requestAll r.global?.toList := by
  cases r with
  | define f =>
      rw [Request.serve, define_snd]
      rfl
  | _ =>
      rfl

theorem indexOf_of_grows (hg : t.Grows t') (h : t.indexOf key = some i) :
    t'.indexOf key = some i := by
  cases key with
  | type signature =>
      exact Numbering.find?_of_isPrefix hg.types h
  | function name =>
      rcases Option.map_eq_some_iff.1 h with ⟨k, hk, rfl⟩
      rw [indexOf, Numbering.find?_of_isPrefix hg.functions hk, hg.imports]
      rfl
  | global name =>
      exact Numbering.find?_of_isPrefix hg.globals h

theorem indexOf_reserve (t : Tables) (name : String) :
    (t.reserve name).2.indexOf (.function name) = some (t.reserve name).1 := by
  have hfind : (t.reserve name).2.functions.find? name = some (t.functions.request name).1 :=
    Numbering.find?_request t.functions name
  rw [indexOf, hfind]
  rfl

/-- The answer to a request is the index that its key has from then on. -/
theorem indexOf_serve (hkey : r.key? = some key) (h : (r.serve t).1 = .ok i) :
    (r.serve t).2.indexOf key = some i := by
  cases r with
  | importIndex identifier =>
      cases hkey
  | intern signature =>
      cases hkey
      cases h
      exact Numbering.find?_request t.types signature
  | reserve name =>
      cases hkey
      cases h
      exact indexOf_reserve t name
  | global name =>
      cases hkey
      cases h
      exact Numbering.find?_request t.globals name
  | define f =>
      cases hkey
      have hdefine : t.define f = (.ok i, (t.define f).2) := Prod.ext h rfl
      rw [define_eq] at hdefine
      by_cases hd : t.isDefined f.name
      · rw [if_pos hd] at hdefine
        cases hdefine
      · have hi : (t.reserve f.name).1 = i := by
          rw [if_neg hd] at hdefine
          exact Except.ok.inj (congrArg Prod.fst hdefine)
        rw [Request.serve, define_snd, ← hi]
        exact indexOf_reserve t f.name

/-- Keys of one space with one index are one key. -/
theorem eq_of_indexOf (hspace : key.space = key'.space) (h : t.indexOf key = some i)
    (h' : t.indexOf key' = some i) : key = key' := by
  cases key <;> cases key' <;> cases hspace
  · exact congrArg Key.type (Numbering.eq_of_find? h h')
  · rcases Option.map_eq_some_iff.1 h with ⟨k, hk, hi⟩
    rcases Option.map_eq_some_iff.1 h' with ⟨k', hk', hi'⟩
    have heq : k = k' := by omega
    exact congrArg Key.function (Numbering.eq_of_find? hk (heq ▸ hk'))
  · exact congrArg Key.global (Numbering.eq_of_find? h h')

/-! ### Any number of requests -/

theorem after_cons (t : Tables) (r : Request) (rs : List Request) :
    t.after (r :: rs) = (r.serve t).2.after rs := rfl

theorem grows_after (t : Tables) (rs : List Request) : t.Grows (t.after rs) := by
  induction rs generalizing t with
  | nil =>
      exact (Extends.refl t).toGrows
  | cons r rs ih =>
      exact (grows_serve t r).trans (ih _)

/-- A numbering that takes one kind of key from each request takes them from all of them. -/
theorem numbering_after {α : Type} [DecidableEq α] {view : Tables → Numbering α}
    {key? : Request → Option α}
    (h : ∀ t r, view (r.serve t).2 = (view t).requestAll (key? r).toList) (t : Tables)
    (rs : List Request) : view (t.after rs) = (view t).requestAll (rs.filterMap key?) := by
  induction rs generalizing t with
  | nil =>
      rfl
  | cons r rs ih =>
      have hsplit : (r :: rs).filterMap key? = (key? r).toList ++ rs.filterMap key? := by
        cases hr : key? r <;> simp [hr]
      rw [after_cons, ih, h, hsplit, Numbering.requestAll_append]

theorem getElem?_answers (t : Tables) (rs : List Request) (k : Nat) :
    (t.answers rs)[k]? = rs[k]?.map fun r => (r.serve (t.after (rs.take k))).1 := by
  induction rs generalizing t k with
  | nil =>
      rfl
  | cons r rs ih =>
      cases k with
      | zero =>
          rfl
      | succ k =>
          exact ih (r.serve t).2 k

/-- What was answered for a key is its index at the end. -/
theorem indexOf_after (hr : rs[k]? = some r) (hkey : r.key? = some key)
    (h : (t.answers rs)[k]? = some (.ok i)) : (t.after rs).indexOf key = some i := by
  induction rs generalizing t k with
  | nil =>
      cases hr
  | cons r' rs ih =>
      cases k with
      | zero =>
          cases hr
          have hanswer : (r.serve t).1 = .ok i := Option.some.inj h
          exact indexOf_of_grows (grows_after _ rs) (indexOf_serve hkey hanswer)
      | succ k =>
          exact ih hr h

/-! ### Completed functions -/

/-- The completed function of a name is the first one that was offered. -/
theorem find?_serve (t : Tables) (r : Request) (name : String) :
    ((r.serve t).2.definitions.find? (·.function.name == name)).map Definition.function =
      ((t.definitions.find? (·.function.name == name)).map Definition.function).or
        (r.definition?.toList.find? (·.name == name)) := by
  cases r with
  | define f =>
      rw [Request.serve, define_snd]
      simp only [Request.definition?, Option.toList_some, List.find?_append]
      by_cases hd : t.isDefined f.name
      · -- the offer is refused, and so it must not be the first one of its name
        rw [if_pos hd]
        cases hold : t.definitions.find? (·.function.name == name) with
        | some d =>
            rfl
        | none =>
            have hne : (f.name == name) = false := by
              rcases List.any_eq_true.1 hd with ⟨d, hmem, hname⟩
              have hother := List.find?_eq_none.1 hold d hmem
              rw [beq_iff_eq.1 hname] at hother
              simpa using hother
            simp [hne]
      · rw [if_neg hd]
        cases t.definitions.find? (·.function.name == name) with
        | some d =>
            rfl
        | none =>
            cases hname : f.name == name <;> simp [hname]
  | _ =>
      exact (Option.or_none).symm

theorem find?_after (t : Tables) (rs : List Request) (name : String) :
    ((t.after rs).definitions.find? (·.function.name == name)).map Definition.function =
      ((t.definitions.find? (·.function.name == name)).map Definition.function).or
        ((rs.filterMap Request.definition?).find? (·.name == name)) := by
  induction rs generalizing t with
  | nil =>
      exact (Option.or_none).symm
  | cons r rs ih =>
      have hsplit : (r :: rs).filterMap Request.definition? =
          r.definition?.toList ++ rs.filterMap Request.definition? := by
        cases hr : r.definition? <;> simp [hr]
      rw [after_cons, ih, find?_serve, hsplit, List.find?_append, Option.or_assoc]

/-- Completed functions know the index of their signature. -/
def DefinitionsTyped (t : Tables) : Prop :=
  ∀ d ∈ t.definitions, t.types.find? d.function.signature = some d.type

theorem DefinitionsTyped.serve (h : t.DefinitionsTyped) (r : Request) :
    (r.serve t).2.DefinitionsTyped := by
  intro d hd
  have hg := grows_serve t r
  have hold : d ∈ t.definitions → (r.serve t).2.types.find? d.function.signature = some d.type :=
    fun hmem => Numbering.find?_of_isPrefix hg.types (h d hmem)
  cases r with
  | define f =>
      rw [Request.serve, define_snd] at hd
      rcases List.mem_append.1 hd with hmem | hnew
      · exact hold hmem
      · split at hnew
        · cases hnew
        · cases List.mem_singleton.1 hnew
          rw [Request.serve, define_snd]
          exact Numbering.find?_request _ _
  | _ =>
      exact hold hd

theorem DefinitionsTyped.after (h : t.DefinitionsTyped) (rs : List Request) :
    (t.after rs).DefinitionsTyped := by
  induction rs generalizing t with
  | nil =>
      exact h
  | cons r rs ih =>
      exact ih (h.serve r)

end Serving

/-! ## Index spaces -/

/-- What is known of tables `t` that were made for a bridge and then asked for `rs`, with these
answers. -/
structure IndexSpaces (bridge : Bridge) (withInterop : Bool) (rs : List Request)
    (answers : List (Except CompileError Nat)) (t : Tables) : Prop where
  /-- No signature stands twice in the type table. -/
  types_nodup : t.types.keys.Nodup
  /-- Every space lists its keys in the order of their first requests; the signatures of the imports
  are asked for first. -/
  types : t.types.keys =
    ((bridge.declared withInterop).map ImportDecl.signature ++
      rs.filterMap Request.signature?).eraseDups
  functions : t.functions.keys = (rs.filterMap Request.function?).eraseDups
  globals : t.globals.keys = (rs.filterMap Request.global?).eraseDups
  /-- Whenever an index was given out for a key, it was the place of the key in this order. -/
  answer {k i : Nat} {r : Request} {key : Key} : rs[k]? = some r → r.key? = some key →
    answers[k]? = some (.ok i) → t.indexOf key = some i
  /-- Within a space, one index was given out for one key, and different ones for different keys. -/
  answer_eq_iff {k k' i i' : Nat} {r r' : Request} {key key' : Key} : rs[k]? = some r →
    rs[k']? = some r' → r.key? = some key → r'.key? = some key' → key.space = key'.space →
    answers[k]? = some (.ok i) → answers[k']? = some (.ok i') → (i = i' ↔ key = key')
  /-- A key is refused only if it names a function that was defined before. -/
  answered {k : Nat} {r : Request} {key : Key} : rs[k]? = some r → r.key? = some key →
    (∃ i, answers[k]? = some (.ok i)) ∨
      ∃ f, r = .define f ∧ answers[k]? = some (.error (.duplicateFunction f.name)) ∧
        ∃ g ∈ (rs.take k).filterMap Request.definition?, g.name = f.name
  /-- The imports hold the lowest function indices, in the order of their declarations. -/
  imports : (bridge.declared withInterop).Forall₂ (ImportDecl.Describes t.types.keys) t.imports
  invoker : t.invoker = if withInterop then some 2 else none
  /-- An identifier has the index of the import that bears it, behind those at fixed places. -/
  host {identifier : String} {i : Nat} : t.importIndex identifier = .ok i ↔
    (bridge.fixed withInterop).length ≤ i ∧
      ∃ d, (bridge.declared withInterop)[i]? = some d ∧ d.name = identifier
  host_answer {k : Nat} {identifier : String} : rs[k]? = some (.importIndex identifier) →
    answers[k]? = some (t.importIndex identifier)
  /-- Functions of the module come behind all imports. -/
  function_ge {name : String} {i : Nat} : t.indexOf (.function name) = some i →
    (bridge.declared withInterop).length ≤ i
  /-- The module is complete just if every function that was asked for was defined. -/
  finish_iff : (∃ image, t.finish = .ok image) ↔
    ∀ name ∈ rs.filterMap Request.function?,
      ∃ f ∈ rs.filterMap Request.definition?, f.name = name
  /-- Its functions stand in the order of their first requests, each as it was first defined. -/
  entries {image : Image} : t.finish = .ok image →
    (rs.filterMap Request.function?).eraseDups.Forall₂ (fun name d =>
      (rs.filterMap Request.definition?).find? (·.name == name) = some d.function ∧
        image.types[d.type]? = some d.function.signature) image.functions

section Spaces

variable {bridge : Bridge} {withInterop : Bool} {rs : List Request}

/-- The only functions that are complete are those that requests have defined. -/
theorem find?_after_ofBridge (bridge : Bridge) (withInterop : Bool) (rs : List Request)
    (name : String) :
    (((ofBridge bridge withInterop).after rs).definitions.find? (·.function.name == name)).map
        Definition.function =
      (rs.filterMap Request.definition?).find? (·.name == name) := by
  rw [find?_after, (provides_ofBridge bridge withInterop).definitions]
  rfl

theorem isDefined_after_iff (bridge : Bridge) (withInterop : Bool) (rs : List Request)
    (name : String) : ((ofBridge bridge withInterop).after rs).isDefined name ↔
      ∃ f ∈ rs.filterMap Request.definition?, f.name = name := by
  have hfind := congrArg Option.isSome (find?_after_ofBridge bridge withInterop rs name)
  rw [Option.isSome_map, Bool.eq_iff_iff, List.find?_isSome, List.find?_isSome] at hfind
  simpa [isDefined] using hfind

/-- The answer to a request for a key is an index, unless a function is defined again. -/
theorem serve_cases {t : Tables} {r : Request} {key : Key} (hkey : r.key? = some key) :
    (∃ i, (r.serve t).1 = .ok i) ∨
      ∃ f, r = .define f ∧ (r.serve t).1 = .error (.duplicateFunction f.name) ∧
        t.isDefined f.name := by
  cases r with
  | importIndex identifier =>
      cases hkey
  | define f =>
      rw [Request.serve, define_eq]
      by_cases hd : t.isDefined f.name
      · rw [if_pos hd]
        exact .inr ⟨f, rfl, rfl, hd⟩
      · rw [if_neg hd]
        exact .inl ⟨_, rfl⟩
  | _ =>
      exact .inl ⟨_, rfl⟩

/-- The index spaces of a module stay in order whatever is asked for: indices are given out without
gaps in the order of the first requests, they are never given out twice and never change, imports
come before functions, and the module is complete when all of its functions are. -/
theorem indexSpaces_after (bridge : Bridge) (withInterop : Bool) (rs : List Request) :
    IndexSpaces bridge withInterop rs ((ofBridge bridge withInterop).answers rs)
      ((ofBridge bridge withInterop).after rs) := by
  have hstart := declared_ofBridge bridge withInterop
  have hprovides := provides_ofBridge bridge withInterop
  have hgrows := grows_after (ofBridge bridge withInterop) rs
  have htypes : ((ofBridge bridge withInterop).after rs).types.keys =
      ((bridge.declared withInterop).map ImportDecl.signature ++
        rs.filterMap Request.signature?).eraseDups := by
    rw [numbering_after types_serve]
    exact Numbering.keys_requestAll hstart.types _
  have hfunctions : ((ofBridge bridge withInterop).after rs).functions.keys =
      (rs.filterMap Request.function?).eraseDups := by
    have hnone : (ofBridge bridge withInterop).functions.keys = ([] : List String).eraseDups :=
      hprovides.functions
    rw [numbering_after functions_serve]
    exact Numbering.keys_requestAll hnone _
  have himportIndex : ∀ rs' identifier, ((ofBridge bridge withInterop).after rs').importIndex
      identifier = (ofBridge bridge withInterop).importIndex identifier := by
    intro rs' identifier
    rw [importIndex, importIndex, (grows_after _ rs').hostMethods]
  refine
    { types_nodup := htypes ▸ Numbering.nodup_eraseDups _
      types := htypes
      functions := hfunctions
      globals := ?globals
      answer := indexOf_after
      answer_eq_iff := ?answer_eq_iff
      answered := ?answered
      imports := ?imports
      invoker := hgrows.invoker.trans (invoker_ofBridge bridge withInterop)
      host := ?host
      host_answer := ?host_answer
      function_ge := ?function_ge
      finish_iff := ?finish_iff
      entries := ?entries }
  case globals =>
    have hnone : (ofBridge bridge withInterop).globals.keys = ([] : List String).eraseDups :=
      hstart.globals
    rw [numbering_after globals_serve]
    exact Numbering.keys_requestAll hnone _
  case answer_eq_iff =>
    intro k k' i i' r r' key key' hr hr' hkey hkey' hspace hi hi'
    have hindex := indexOf_after hr hkey hi
    have hindex' := indexOf_after hr' hkey' hi'
    constructor
    · rintro rfl
      exact eq_of_indexOf hspace hindex hindex'
    · rintro rfl
      exact Option.some.inj (hindex.symm.trans hindex')
  case answered =>
    intro k r key hr hkey
    simp only [getElem?_answers, hr, Option.map_some, Option.some.injEq]
    rcases serve_cases hkey with hok | ⟨f, hf, herror, hdefined⟩
    · exact .inl hok
    · exact .inr ⟨f, hf, herror, (isDefined_after_iff _ _ _ _).1 hdefined⟩
  case imports =>
    rw [hgrows.imports]
    exact hstart.imports.imp fun d f h =>
      ⟨h.module, h.name, getElem?_of_isPrefix hgrows.types h.signature⟩
  case host =>
    intro identifier i
    rw [himportIndex]
    exact importIndex_ofBridge_iff
  case host_answer =>
    intro k identifier hr
    rw [getElem?_answers, hr, Option.map_some, himportIndex]
    exact congrArg some (himportIndex _ identifier)
  case function_ge =>
    intro name i hi
    rcases Option.map_eq_some_iff.1 hi with ⟨k, -, rfl⟩
    rw [hgrows.imports, hstart.imports.length_eq]
    exact Nat.le_add_right _ _
  case finish_iff =>
    rw [finish_ok_iff, hfunctions]
    simp only [List.mem_eraseDups, ← isDefined_after_iff bridge withInterop, isDefined,
      List.any_eq_true, List.mem_map, beq_iff_eq]
  case entries =>
    intro image hfinish
    rcases finish_ok hfinish with ⟨hentries, hsame, -, -⟩
    rw [hfunctions] at hentries
    have htyped : ((ofBridge bridge withInterop).after rs).DefinitionsTyped := by
      refine DefinitionsTyped.after ?_ rs
      intro d hd
      rw [hprovides.definitions] at hd
      cases hd
    refine hentries.imp ?_
    intro name d hd
    have hfind := definition_ok_iff.1 hd
    refine ⟨?_, ?_⟩
    · rw [← find?_after_ofBridge bridge withInterop, hfind]
      rfl
    · rw [hsame]
      exact Numbering.getElem?_of_find? (htyped d (List.mem_of_find?_eq_some hfind))

/-- A call may ask for a function before it is defined, and a definition that is refused leaves the
index as it is. -/
example :
    let f : Function := ⟨"f", ⟨[], none⟩, [], [.close], none⟩
    (ofBridge {} false).answers [.reserve "f", .reserve "g", .define f, .define f, .reserve "f"] =
      [.ok 3, .ok 4, .ok 3, .error (.duplicateFunction "f"), .ok 3] := by
  decide +kernel

end Spaces

end Tables

end CilCompiler
