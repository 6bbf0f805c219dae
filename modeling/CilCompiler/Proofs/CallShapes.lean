import CilCompiler.Image.Validation
import CilCompiler.Proofs.CallLinking

/-!
# Shapes of calls

A call site says what it passes and what it expects: a receiver or none, the parameters, and a
result or none. What stands at the index of the call has a signature of its own, which comes from
the declaration of the method or from the bridge. Methods are told apart by their full names, and a
full name holds the parameters and the result but not the receiver; methods of the host are found by
name alone. So a method of the module has its own receiver where the call may have another, and a
method of the host has whatever the bridge declares.

* `MethodRef.shape` is the signature that a reference asks for.
* `CallsSatisfy` says something about the signature at the index of every call of a module.
* `MeetsShape` says which signature that is, and `build_meets_shapes` that it is the one for every
  call of a module. By `MeetsShape.eq_shape_iff` a method of the module is as the call asks just if
  both agree on the receiver; `Mismatch.shapes_differ` has one that is not, and a method of the host
  that is not either.
-/

namespace CilCompiler

open Wasm (Signature ValueKind)

/-- The signature that a reference asks for: a receiver if it has one, its parameters, and a result
unless it is void. -/
def MethodRef.shape (r : MethodRef) : Signature where
  params := (if r.hasThis then [.i32] else []) ++ List.replicate r.params.length .i32
  result := if r.result = .void then none else some .i32

/-! ## Signatures of methods -/

section Methods

variable {a : Assembly} {m : MethodDef}

theorem resultKind_eq {type : TypeSig} {result : Option ValueKind}
    (h : resultKind type = .ok result) : result = if type = .void then none else some .i32 := by
  cases type <;> cases h <;> rfl

theorem valueKinds_eq {params : List Param} {kinds : List ValueKind}
    (h : params.mapM (valueKind ·.type) = .ok kinds) :
    kinds = List.replicate params.length .i32 := by
  have heach := forall₂_of_mapM_ok h
  refine List.eq_replicate_iff.2 ⟨heach.length_eq.symm, ?_⟩
  intro kind hkind
  rcases exists_of_forall₂_right heach hkind with ⟨param, _, hv⟩
  -- only two types have a kind, and it is the same one
  cases htype : param.type <;> rw [htype] at hv <;> cases hv <;> rfl

/-- A method has the signature that a reference to it under its own receiver asks for. -/
theorem methodSignature_eq {s : Signature} (h : methodSignature m = .ok s) (declaring : TypeName) :
    s = (m.ref declaring).shape := by
  unfold methodSignature at h
  cases hp : m.params.mapM (valueKind ·.type) with
  | error e =>
      rw [hp] at h
      cases h
  | ok kinds =>
      rw [hp] at h
      cases hr : resultKind m.result with
      | error e =>
          simp [hr, bind, Except.bind] at h
      | ok result =>
          have hs : s = ⟨(if m.hasThis then [.i32] else []) ++ kinds, result⟩ := by
            simpa [hr, bind, Except.bind, pure, Except.pure] using h.symm
          have hlength : (m.ref declaring).params.length = m.params.length := List.length_map _
          rw [hs, valueKinds_eq hp, resultKind_eq hr, MethodRef.shape, hlength]
          rfl

/-- A reference agrees with the method that it means in the parameters and in the result. -/
theorem findMethod_agrees {r : MethodRef} {t : TypeDef} (h : a.findMethod r = some (t, m)) :
    m.params.map Param.type = r.params ∧ m.result = r.result := by
  unfold Assembly.findMethod at h
  cases ht : a.findType r.declaring with
  | none =>
      rw [ht] at h
      cases h
  | some t' =>
      rw [ht] at h
      rcases Option.map_eq_some_iff.1 h with ⟨m', hm', heq⟩
      cases heq
      have hnamed := List.find?_some hm'
      simp only [MethodDef.isNamedBy, Bool.and_eq_true, beq_iff_eq] at hnamed
      exact ⟨hnamed.2, hnamed.1.2⟩

end Methods

/-! ## Signatures at the indices of calls -/

/-- The signature at the index of a call of `r`. A method of the module has the one that `r` asks
for, but under its own receiver. A method of the host has the one that the bridge declares. -/
inductive MeetsShape (a : Assembly) (o : Options) (r : MethodRef) (s : Signature) : Prop
  | own {t : TypeDef} {m : MethodDef} :
      a.findMethod r = some (t, m) → s = { r with hasThis := m.hasThis }.shape → MeetsShape a o r s
  | host {decl : Host.ImportDecl} :
      a.findMethod r = none →
      o.bridge.imports.find? (·.name == Handle.methodIdentifier a.name r) = some decl →
      s = decl.signature → MeetsShape a o r s

/-- A call of a method of the module finds what it asks for just if both agree on the receiver. -/
theorem MeetsShape.eq_shape_iff {a : Assembly} {o : Options} {r : MethodRef} {s : Signature}
    {t : TypeDef} {m : MethodDef} (h : MeetsShape a o r s) (hfound : a.findMethod r = some (t, m)) :
    s = r.shape ↔ m.hasThis = r.hasThis := by
  cases h with
  | own hown hs =>
      cases hfound.symm.trans hown
      constructor
      · intro heq
        -- a receiver is one more parameter
        have hlength : ({ r with hasThis := m.hasThis }.shape).params.length =
            r.shape.params.length := by
          rw [← hs, heq]
        cases hm : m.hasThis <;> cases hr : r.hasThis <;> simp [MethodRef.shape, hm, hr] at hlength ⊢
      · intro hthis
        rw [hs, hthis]
  | host hnone _ _ =>
      cases hfound.symm.trans hnone

/-- The signature at the index of every call in a module has the property `P` for its reference.
The calls are those of the methods that do not forward to the host: `index` numbers the references,
and the operators of a body call just the numbers of what its instructions call. -/
def CallsSatisfy (a : Assembly) (o : Options) (image : Image) (P : MethodRef → Signature → Prop) :
    Prop :=
  ∀ t m body, (t, m) ∈ a.methods → o.isInterop (m.ref t.name).fullName = false →
    m.body = some body → ∃ d ∈ image.functions, CompiledFrom a o t m d ∧
      ∃ index : MethodRef → Nat,
        callIndices d.function.body = body.instructions.flatMap (Instruction.calls index) ∧
        ∀ i ∈ body.instructions, i.opcode = .call ∨ i.opcode = .callvirt →
          ∀ r, i.callee? = some r → ∃ s, image.functionSignatures[index r]? = some s ∧ P r s

theorem getElem?_filterMap {α β : Type} {f : α → Option β} {xs : List α}
    (h : ∀ x ∈ xs, ∃ y, f x = some y) (k : Nat) : (xs.filterMap f)[k]? = xs[k]?.bind f := by
  induction xs generalizing k with
  | nil =>
      rfl
  | cons x xs ih =>
      rcases h x (by simp) with ⟨y, hy⟩
      rw [List.filterMap_cons_some hy]
      cases k with
      | zero =>
          simp [hy]
      | succ k =>
          simpa using ih (fun x' hx' => h x' (by simp [hx'])) k

section Modules

variable {a : Assembly} {o : Options} {image : Image} {tables : Tables}

/-- No index of a function is skipped in the list of the signatures. -/
theorem Built.getElem?_functionSignatures (h : Built a o image tables) (k : Nat) :
    image.functionSignatures[k]? =
      (image.imports.map FunctionImport.type ++ image.functions.map Definition.type)[k]?.bind
        (image.types[·]?) := by
  apply getElem?_filterMap
  intro type htype
  rcases List.mem_append.1 htype with himport | hfunction
  · rcases List.mem_map.1 himport with ⟨f, hf, rfl⟩
    exact h.importTyped hf
  · rcases List.mem_map.1 hfunction with ⟨d, hd, rfl⟩
    exact ⟨_, h.functionTyped hd⟩

theorem Built.signature_import (h : Built a o image tables) {k type : Nat} {f : FunctionImport}
    {s : Signature} (hf : image.imports[k]? = some f) (htype : f.type = type)
    (hs : image.types[type]? = some s) : image.functionSignatures[k]? = some s := by
  rcases List.getElem?_eq_some_iff.1 hf with ⟨hlt, _⟩
  rw [h.getElem?_functionSignatures, List.getElem?_append_left (by simpa using hlt)]
  simp [hf, htype, hs]

theorem Built.signature_function (h : Built a o image tables) {k : Nat} {d : Definition}
    (hd : image.functions[k]? = some d) :
    image.functionSignatures[image.imports.length + k]? = some d.function.signature := by
  have htyped := h.functionTyped (List.mem_of_getElem? hd)
  rw [h.getElem?_functionSignatures, List.getElem?_append_right (by simp)]
  simp [hd, htyped]

/-- Under the receiver of the method that it means, a reference asks for the signature of the
method. -/
theorem methodSignature_eq_shape {r : MethodRef} {t : TypeDef} {m : MethodDef} {s : Signature}
    (hfound : a.findMethod r = some (t, m)) (hs : methodSignature m = .ok s) :
    s = { r with hasThis := m.hasThis }.shape := by
  rcases findMethod_agrees hfound with ⟨hparams, hresult⟩
  rw [methodSignature_eq hs t.name, MethodDef.ref, hparams, hresult]
  rfl

theorem Built.meetsShape (h : Built a o image tables) {r : MethodRef} {k : Nat}
    (hk : tables.callee a r = some k) :
    ∃ s, image.functionSignatures[k]? = some s ∧ MeetsShape a o r s := by
  rcases h.callee_cases hk with ⟨⟨t, m⟩, k', d, hfound, rfl, hd, hname⟩ |
    ⟨hnone, _, decl, type, hfirst, himport, htype, _⟩
  · -- the function of that name was compiled from the method that the reference means
    rcases findMethod_ok hfound with ⟨hmem, hfull⟩
    rcases h.exists_function hmem with ⟨d', hd', hcompiles⟩
    have hsame : d = d' := by
      refine h.eq_of_name (h.mem_functions_iff.1 (List.mem_of_getElem? hd))
        (h.mem_functions_iff.1 hd') ?_
      rw [hname, hcompiles.name, hfull]
    subst hsame
    exact ⟨_, h.signature_function hd,
      .own hfound (methodSignature_eq_shape hfound hcompiles.signature)⟩
  · exact ⟨_, h.signature_import himport rfl htype, .host hnone hfirst rfl⟩

/-- The signature at the index of every call is the one of the method that its reference means, or
the one that the bridge declares under its identifier. -/
theorem build_meets_shapes (h : build a o = .ok image) :
    CallsSatisfy a o image (MeetsShape a o) := by
  rcases build_ok h with ⟨tables, hbuilt⟩
  intro t m body hm hown hbody
  rcases hbuilt.exists_function hm with ⟨d, hd, hcompiles⟩
  rw [← hcompiles.name] at hown
  rcases hcompiles.body.bodyLowered hown hbody with ⟨slots, _, _, hlowered⟩
  refine ⟨d, hd, hcompiles.toCompiledFrom, tables.index a, ?_, ?_⟩
  · exact hlowered.callIndices_eq fun r n hn => index_of_callee hn
  · intro i hi _ r hr
    rcases hlowered.callee_ok hi hr with ⟨n, hn⟩
    rw [index_of_callee hn]
    exact hbuilt.meetsShape hn

end Modules

/-- Where a call and its method agree on the receiver, the call finds what it asks for. -/
theorem Counting.call_finds_shape :
    build assembly options = .ok image ∧ ∃ index : MethodRef → Nat,
      callIndices countFunction.body = countBody.instructions.flatMap (Instruction.calls index) ∧
      image.functionSignatures[index (lower.ref counter)]? = some (lower.ref counter).shape := by
  refine ⟨build_eq, ?_⟩
  rcases build_meets_shapes build_eq type count countBody (List.Mem.head _) (by decide +kernel) rfl
    with ⟨d, hd, hfrom, index, hcalls, hall⟩
  have hbody : d.function.body = countFunction.body := by
    have hname := hfrom.name
    simp only [image, List.mem_cons, List.not_mem_nil, or_false] at hd
    rcases hd with rfl | rfl | rfl
    · rfl
    · exact absurd hname (by decide +kernel)
    · exact absurd hname (by decide +kernel)
  rcases hall ⟨7, .call, .method (lower.ref counter)⟩ (by decide) (Or.inl rfl) (lower.ref counter)
    (by decide +kernel) with ⟨s, hs, hmeets⟩
  refine ⟨index, hbody ▸ hcalls, ?_⟩
  have hfound : assembly.findMethod (lower.ref counter) = some (type, lower) := by decide +kernel
  rw [hs, (hmeets.eq_shape_iff hfound).2 rfl]

/-! ## A module whose calls disagree

The host declares a method without the parameter that its identifier holds, and a static method is
called as if it had a receiver. -/

namespace Mismatch

def type : TypeName := ⟨none, "Lib", "C"⟩

def put : MethodRef := ⟨⟨some "Ext", "Ext", "A"⟩, "Put", false, .void, [.int32]⟩

def get : MethodDef := { name := "Get", result := .int32, params := [], isStatic := true }

/-- The method `get`, called with a receiver. -/
def getOn : MethodRef := { get.ref type with hasThis := true }

def mainBody : MethodBody where
  instructions :=
    [⟨0, .ldcI4_1, .empty⟩, ⟨1, .call, .method put⟩, ⟨6, .ldcI4_1, .empty⟩,
     ⟨7, .call, .method getOn⟩, ⟨12, .ret, .empty⟩]

def main : MethodDef :=
  { name := "Main", result := .int32, params := [], isStatic := true, body := some mainBody }

def assembly : Assembly := ⟨"Lib", [{ name := type, methods := [main, get] }]⟩

def options : Options :=
  { bridge := { imports := [⟨"ext", "Ext|System.Void Ext.A::Put(System.Int32)", [], none⟩] } }

def mainFunction : Function where
  name := "System.Int32 Lib.C::Main()"
  signature := ⟨[], some .i32⟩
  locals := []
  body := [.loop, .const 1, .call 2, .const 1, .call 4, .ret, .close, .unreachable, .close]
  exportName := none

def getFunction : Function where
  name := "System.Int32 Lib.C::Get()"
  signature := ⟨[], some .i32⟩
  locals := []
  body := [.unreachable, .close]
  exportName := none

def image : Image where
  types := [⟨[.i32], some .i32⟩, ⟨[.i32], none⟩, ⟨[], none⟩, ⟨[], some .i32⟩]
  memory := ⟨"sys", "memory", 1⟩
  imports :=
    [⟨"sys", "object_new", 0⟩, ⟨"sys", "log", 1⟩,
     ⟨"ext", "Ext|System.Void Ext.A::Put(System.Int32)", 2⟩]
  globals := []
  functions := [⟨3, mainFunction⟩, ⟨3, getFunction⟩]

theorem build_eq : build assembly options = .ok image := by
  decide +kernel

/-- What holds of the calls holds of the call of `put` and of the call of `getOn`. -/
theorem of_callsSatisfy {P : MethodRef → Signature → Prop}
    (h : CallsSatisfy assembly options image P) : P put ⟨[], none⟩ ∧ P getOn ⟨[], some .i32⟩ := by
  rcases h ⟨type, false, false, [], [main, get]⟩ main mainBody (List.Mem.head _) (by decide +kernel)
    rfl with ⟨d, hd, hfrom, index, hcalls, hall⟩
  have hmain : d.function.body = mainFunction.body := by
    have hname := hfrom.name
    simp only [image, List.mem_cons, List.not_mem_nil, or_false] at hd
    rcases hd with rfl | rfl
    · rfl
    · exact absurd hname (by decide +kernel)
  -- the operators of the body call two functions, so the numbers of both references are known
  have hcalls' : [2, 4] = [index put, index getOn] := by
    rw [hmain] at hcalls
    exact hcalls
  have hnumbers : 2 = index put ∧ 4 = index getOn := by simpa using hcalls'
  rcases hall ⟨1, .call, .method put⟩ (by decide) (Or.inl rfl) put (by decide +kernel) with
    ⟨s, hs, hP⟩
  rcases hall ⟨7, .call, .method getOn⟩ (by decide) (Or.inl rfl) getOn (by decide +kernel) with
    ⟨s', hs', hP'⟩
  rw [← hnumbers.1] at hs
  rw [← hnumbers.2] at hs'
  cases hs
  cases hs'
  exact ⟨hP, hP'⟩

/-- Neither the calls of methods of the host nor those of methods of the module always find what
their reference asks for. -/
theorem shapes_differ :
    build assembly options = .ok image ∧
      ¬ CallsSatisfy assembly options image
        (fun r s => assembly.findMethod r = none → s = r.shape) ∧
      ¬ CallsSatisfy assembly options image
        (fun r s => assembly.findMethod r ≠ none → s = r.shape) := by
  refine ⟨build_eq, ?_, ?_⟩
  · intro h
    exact absurd ((of_callsSatisfy h).1 (by decide +kernel)) (by decide)
  · intro h
    exact absurd ((of_callsSatisfy h).2 (by decide +kernel)) (by decide)

end Mismatch

end CilCompiler
