import CilCompiler.Image.Tables
import CilCompiler.Lowering.Handle
import CilCompiler.Assembly.Basic

/-!
# Growth of tables

The tables of a module are only ever appended to while it is built, so an index keeps its meaning
from the moment it is given out. Whatever is said about indices can therefore be said about the
tables at the end of the build.

* `Numbering.find?_of_isPrefix` is that fact for one numbering; `Numbering.keys_requestAll` says that
  its keys are the requests without repetitions.
* `Tables.Grows` orders the tables of a build; every operation on tables moves up in it.
* `Tables.callee` is the function index that a reference has in given tables.
-/

namespace CilCompiler

/-! ## Numberings -/

/-- What stands in a list stands at the same place in every list that it starts. -/
theorem getElem?_of_isPrefix {α : Type} {xs ys : List α} {i : Nat} {x : α} (hp : xs <+: ys)
    (h : xs[i]? = some x) : ys[i]? = some x := by
  rcases List.getElem?_eq_some_iff.1 h with ⟨hlt, rfl⟩
  exact List.prefix_iff_getElem?.1 hp i hlt

/-- In a list without repetitions the first place of an element is its only one. -/
theorem idxOf?_eq_some_iff_of_nodup {α : Type} [DecidableEq α] {xs : List α} (h : xs.Nodup) {x : α}
    {i : Nat} : xs.idxOf? x = some i ↔ xs[i]? = some x := by
  constructor
  · intro hfind
    rcases List.idxOf?_eq_some_iff.1 hfind with ⟨hlt, hx, -⟩
    exact List.getElem?_eq_some_iff.2 ⟨hlt, hx⟩
  · intro hget
    rcases List.getElem?_eq_some_iff.1 hget with ⟨hlt, hx⟩
    refine List.idxOf?_eq_some_iff.2 ⟨hlt, hx, ?_⟩
    intro j hj heq
    have hlt' : j < xs.length := Nat.lt_trans hj hlt
    have hsame : xs[j]? = xs[i]? := by rw [hget, List.getElem?_eq_getElem hlt', heq]
    exact absurd ((List.getElem?_inj hlt' h).1 hsame) (Nat.ne_of_lt hj)

/-- The last of a row stands behind the others. -/
theorem idxOf?_concat {α : Type} [DecidableEq α] {xs : List α} {last : α} (h : last ∉ xs) (x : α) :
    (xs ++ [last]).idxOf? x = if x = last then some xs.length else xs.idxOf? x := by
  rw [List.idxOf?, List.findIdx?_append]
  by_cases heq : x = last
  · subst heq
    have hnone : xs.findIdx? (· == x) = none := List.idxOf?_eq_none_iff.2 h
    simp [hnone]
  · have hne : last ≠ x := Ne.symm heq
    simp [heq, hne]

namespace Numbering

variable {α : Type} [DecidableEq α] {n n' : Numbering α} {key key' : α} {i : Nat}

theorem getElem?_of_find? (h : n.find? key = some i) : n.keys[i]? = some key := by
  rcases List.idxOf?_eq_some_iff.1 h with ⟨hi, hkey, _⟩
  simp [List.getElem?_eq_getElem hi, hkey]

theorem lt_size_of_find? (h : n.find? key = some i) : i < n.size := by
  rcases List.idxOf?_eq_some_iff.1 h with ⟨hi, _, _⟩
  exact hi

theorem find?_eq_none_iff : n.find? key = none ↔ key ∉ n.keys := by
  simp [find?]

theorem find?_of_isPrefix (hp : n.keys <+: n'.keys) (h : n.find? key = some i) :
    n'.find? key = some i := by
  rcases hp with ⟨rest, hrest⟩
  have happ : n'.find? key = (n.keys ++ rest).findIdx? (· == key) := by
    simp [find?, List.idxOf?, hrest]
  have hfirst : n.keys.findIdx? (· == key) = some i := h
  rw [happ, List.findIdx?_append, hfirst]
  rfl

theorem prefix_request (n : Numbering α) (key : α) : n.keys <+: (n.request key).2.keys := by
  cases h : n.find? key with
  | some i =>
      simp [request, h]
  | none =>
      simp [request, h]

theorem find?_request (n : Numbering α) (key : α) :
    (n.request key).2.find? key = some (n.request key).1 := by
  cases h : n.find? key with
  | some i =>
      simp [request, h]
  | none =>
      have hkey : key ∉ n.keys := find?_eq_none_iff.1 h
      have hfirst : n.keys.findIdx? (· == key) = none := h
      simp [request, find?, List.idxOf?, hfirst, size, List.findIdx?_cons]

theorem nodup_request (hn : n.keys.Nodup) (key : α) : (n.request key).2.keys.Nodup := by
  cases h : n.find? key with
  | some i =>
      simpa [request, h] using hn
  | none =>
      have hkey : key ∉ n.keys := find?_eq_none_iff.1 h
      have happ : (n.keys ++ [key]).Nodup := by
        refine List.nodup_append.2 ⟨hn, by simp, ?_⟩
        intro a ha b hb hab
        have hb' : b = key := by simpa using hb
        exact hkey (hb' ▸ hab ▸ ha)
      simpa [request, h] using happ

/-! ### Many requests -/

/-- Asks for keys one after the other. -/
def requestAll (n : Numbering α) (keys : List α) : Numbering α :=
  keys.foldl (fun n key => (n.request key).2) n

theorem requestAll_append (n : Numbering α) (keys keys' : List α) :
    n.requestAll (keys ++ keys') = (n.requestAll keys).requestAll keys' :=
  List.foldl_append

theorem request_of_mem (h : key ∈ n.keys) : (n.request key).2 = n := by
  unfold request
  cases hfind : n.find? key with
  | some i =>
      rfl
  | none =>
      exact absurd h (find?_eq_none_iff.1 hfind)

theorem keys_request_of_not_mem (h : key ∉ n.keys) : (n.request key).2.keys = n.keys ++ [key] := by
  simp only [request, find?_eq_none_iff.2 h]

theorem mem_keys_request : key ∈ (n.request key).2.keys :=
  List.mem_of_getElem? (getElem?_of_find? (find?_request n key))

theorem prefix_requestAll (n : Numbering α) (keys : List α) :
    n.keys <+: (n.requestAll keys).keys := by
  induction keys generalizing n with
  | nil =>
      exact List.prefix_rfl
  | cons key keys ih =>
      exact (prefix_request n key).trans (ih _)

theorem nodup_requestAll (hn : n.keys.Nodup) (keys : List α) :
    (n.requestAll keys).keys.Nodup := by
  induction keys generalizing n with
  | nil =>
      exact hn
  | cons key keys ih =>
      exact ih (nodup_request hn key)

theorem eraseDups_concat (keys : List α) (key : α) :
    (keys ++ [key]).eraseDups =
      if key ∈ keys then keys.eraseDups else keys.eraseDups ++ [key] := by
  rw [List.eraseDups_append]
  by_cases h : key ∈ keys <;> simp [List.removeAll, h, List.eraseDups_cons]

/-- The keys of a numbering are those that were asked for, in the order of their first requests. -/
theorem keys_requestAll {asked : List α} (h : n.keys = asked.eraseDups) (keys : List α) :
    (n.requestAll keys).keys = (asked ++ keys).eraseDups := by
  induction keys generalizing n asked with
  | nil =>
      simpa [requestAll] using h
  | cons key keys ih =>
      have hnext : (n.request key).2.keys = (asked ++ [key]).eraseDups := by
        have hmem : key ∈ n.keys ↔ key ∈ asked := by rw [h, List.mem_eraseDups]
        rw [eraseDups_concat]
        by_cases hkey : key ∈ asked
        · rw [if_pos hkey, request_of_mem (hmem.2 hkey), h]
        · rw [if_neg hkey, keys_request_of_not_mem (mt hmem.1 hkey), h]
      have hrest := ih hnext
      rw [List.append_assoc] at hrest
      exact hrest

theorem keys_requestAll_of_nil (h : n.keys = []) (keys : List α) :
    (n.requestAll keys).keys = keys.eraseDups := by
  have hnone : n.keys = ([] : List α).eraseDups := h
  exact keys_requestAll hnone keys

theorem nodup_eraseDups (keys : List α) : keys.eraseDups.Nodup := by
  have hnone : (⟨[]⟩ : Numbering α).keys = [] := rfl
  rw [← keys_requestAll_of_nil hnone keys]
  exact nodup_requestAll List.nodup_nil keys

/-- Two keys never share a number. -/
theorem eq_of_find? (h : n.find? key = some i) (h' : n.find? key' = some i) : key = key' := by
  have hkey := getElem?_of_find? h
  rw [getElem?_of_find? h'] at hkey
  exact (Option.some.inj hkey).symm

end Numbering

/-! ## Tables -/

namespace Tables

/-- `t'` is `t` with more types, globals and functions appended, and with any definitions. -/
structure Grows (t t' : Tables) : Prop where
  memory : t'.memory = t.memory
  imports : t'.imports = t.imports
  hostMethods : t'.hostMethods = t.hostMethods
  invoker : t'.invoker = t.invoker
  types : t.types.keys <+: t'.types.keys
  globals : t.globals.keys <+: t'.globals.keys
  functions : t.functions.keys <+: t'.functions.keys
  /-- No function gets two numbers. -/
  distinct : t.functions.keys.Nodup → t'.functions.keys.Nodup

/-- `t'` grew from `t` while no function was completed. -/
structure Extends (t t' : Tables) : Prop extends Grows t t' where
  definitions : t'.definitions = t.definitions

theorem Grows.trans {t t' t'' : Tables} (h : Grows t t') (h' : Grows t' t'') : Grows t t'' where
  memory := h'.memory.trans h.memory
  imports := h'.imports.trans h.imports
  hostMethods := h'.hostMethods.trans h.hostMethods
  invoker := h'.invoker.trans h.invoker
  types := h.types.trans h'.types
  globals := h.globals.trans h'.globals
  functions := h.functions.trans h'.functions
  distinct := fun hn => h'.distinct (h.distinct hn)

theorem Extends.refl (t : Tables) : Extends t t := by
  constructor
  · constructor <;> simp
  · rfl

theorem Extends.trans {t t' t'' : Tables} (h : Extends t t') (h' : Extends t' t'') :
    Extends t t'' where
  toGrows := h.toGrows.trans h'.toGrows
  definitions := h'.definitions.trans h.definitions

variable {t t' : Tables}

theorem extends_intern (t : Tables) (signature : Wasm.Signature) :
    Extends t (t.intern signature).2 := by
  refine { Extends.refl t with types := ?_ }
  exact Numbering.prefix_request t.types signature

theorem extends_global (t : Tables) (name : String) : Extends t (t.global name).2 := by
  refine { Extends.refl t with globals := ?_ }
  exact Numbering.prefix_request t.globals name

theorem extends_reserve (t : Tables) (name : String) : Extends t (t.reserve name).2 := by
  refine { Extends.refl t with functions := ?_, distinct := ?_ }
  · exact Numbering.prefix_request t.functions name
  · exact fun hn => Numbering.nodup_request hn name

/-! ## Definitions -/

/-- The tables in which `define` looks whether the function is complete already. -/
def prepared (t : Tables) (f : Function) : Tables :=
  ((t.reserve f.name).2.intern f.signature).2

theorem extends_prepared (t : Tables) (f : Function) : Extends t (t.prepared f) :=
  (t.extends_reserve f.name).trans ((t.reserve f.name).2.extends_intern f.signature)

theorem define_eq (t : Tables) (f : Function) :
    t.define f =
      if t.isDefined f.name then (.error (.duplicateFunction f.name), t.prepared f)
      else
        (.ok (t.reserve f.name).1,
          { t.prepared f with
            definitions := t.definitions ++
              [⟨((t.reserve f.name).2.intern f.signature).1, f⟩] }) := rfl

/-- Completing a function appends it, if none of its name is complete. -/
theorem define_ok {f : Function} {i : Nat} (h : t.define f = (.ok i, t')) :
    Grows t t' ∧ f.name ∉ t.definitions.map (·.function.name) ∧
      t'.functions.find? f.name ≠ none ∧
      ∃ type, t'.types.find? f.signature = some type ∧
        t'.definitions = t.definitions ++ [⟨type, f⟩] := by
  rw [define_eq] at h
  by_cases hd : t.isDefined f.name
  · rw [if_pos hd] at h
    cases h
  · rw [if_neg hd] at h
    cases h
    have hp := t.extends_prepared f
    refine ⟨{ hp.toGrows with }, ?_, ?_, _, Numbering.find?_request _ _, rfl⟩
    · intro hmem
      rcases List.mem_map.1 hmem with ⟨d, hdef, hname⟩
      exact hd (List.any_eq_true.2 ⟨d, hdef, by simp [hname]⟩)
    · have hfind : (t.reserve f.name).2.functions.find? f.name ≠ none := by
        have hreq := Numbering.find?_request t.functions f.name
        intro hnone
        cases hreq.symm.trans hnone
      exact hfind

/-! ## Callees -/

/-- The index of the function that a call of `m` in `a` means, if these tables have one. -/
def callee (t : Tables) (a : Assembly) (m : MethodRef) : Option Nat :=
  match a.findMethod m with
  | some _ => (t.functions.find? m.fullName).map (t.imports.length + ·)
  | none => t.hostMethods.lookup (Handle.methodIdentifier a.name m)

theorem callee_of_grows {a : Assembly} {m : MethodRef} {i : Nat} (hg : Grows t t')
    (h : t.callee a m = some i) : t'.callee a m = some i := by
  cases hm : a.findMethod m with
  | none =>
      simpa [callee, hm, hg.hostMethods] using h
  | some found =>
      have hmap : (t.functions.find? m.fullName).map (t.imports.length + ·) = some i := by
        simpa [callee, hm] using h
      rcases Option.map_eq_some_iff.1 hmap with ⟨k, hk, rfl⟩
      have hk' : t'.functions.find? m.fullName = some k :=
        Numbering.find?_of_isPrefix hg.functions hk
      simp [callee, hm, hk', hg.imports]

end Tables

end CilCompiler
