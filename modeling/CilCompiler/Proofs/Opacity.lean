import CilCompiler.Proofs.Compiled

/-!
# What a build does not look at

A method that only forwards to the host is opaque: its body is replaced by a thunk. Some of what an
assembly declares is never used: the types of local variables, the names of parameters, whether a
type is public or laid out explicitly, and whether a method is virtual.

* `Assembly.Alike` relates assemblies that differ in nothing but this.
* `findType_of_alike` says that names find types that are alike; `fieldOffset_of_alike` and
  `callIndex_of_alike` that fields and calls are resolved to the same places.
* `lowerBody_of_alike`, `compileMethod_of_alike` and `compileMethods_of_alike` carry this from
  bodies to methods and to whole assemblies. They are equations between steps of a build, so the
  tables and the events agree at every moment, also when a step fails.
* `build_of_alike` says that both assemblies become the same module, or fail alike.
-/

namespace CilCompiler

open Wasm (Signature)

/-! ## Assemblies that a build cannot tell apart -/

/-- The same body but for the types of its local variables. -/
structure MethodBody.Alike (body body' : MethodBody) : Prop where
  instructions : body'.instructions = body.instructions
  regions : body'.regions = body.regions

/-- The same method of the type `declaring` but for the names of its parameters, whether it is
virtual, and the types of its local variables. If it only forwards to the host, then its body may be
any other, or be missing. -/
structure MethodDef.Alike (o : Options) (declaring : TypeName) (m m' : MethodDef) : Prop where
  name : m'.name = m.name
  result : m'.result = m.result
  params : m'.params.map Param.type = m.params.map Param.type
  isPublic : m'.isPublic = m.isPublic
  isStatic : m'.isStatic = m.isStatic
  body : o.isInterop (m.ref declaring).fullName = false → Option.Rel MethodBody.Alike m.body m'.body

/-- The same type but for its methods, which are alike, and for whether it is public or laid out
explicitly. -/
structure TypeDef.Alike (o : Options) (t t' : TypeDef) : Prop where
  name : t'.name = t.name
  fields : t'.fields = t.fields
  methods : t.methods.Forall₂ (MethodDef.Alike o t.name) t'.methods

/-- The same assembly but for its types, which are alike. -/
structure Assembly.Alike (o : Options) (a a' : Assembly) : Prop where
  name : a'.name = a.name
  types : a.types.Forall₂ (TypeDef.Alike o) a'.types

/-- Searches for one property in two lists stop at the same place. -/
theorem find?_of_forall₂ {α β : Type} {R : α → β → Prop} {p : α → Bool} {q : β → Bool} {xs : List α}
    {ys : List β} (hR : ∀ x y, R x y → p x = q y) (h : xs.Forall₂ R ys) :
    Option.Rel R (xs.find? p) (ys.find? q) := by
  induction h with
  | nil =>
      exact .none
  | @cons x y xs ys hr _ ih =>
      rw [List.find?_cons, List.find?_cons, ← hR x y hr]
      cases p x with
      | true =>
          exact .some hr
      | false =>
          exact ih

section Alike

variable {a a' : Assembly} {o : Options}

/-! ## What methods see of their assembly -/

theorem MethodDef.Alike.ref {declaring : TypeName} {m m' : MethodDef} (h : m.Alike o declaring m') :
    m'.ref declaring = m.ref declaring := by
  simp only [MethodDef.ref, MethodDef.hasThis, h.name, h.result, h.params, h.isStatic]

theorem findType_of_alike (h : a.Alike o a') (name : TypeName) :
    Option.Rel (TypeDef.Alike o) (a.findType name) (a'.findType name) := by
  unfold Assembly.findType
  rw [h.name]
  split
  · refine find?_of_forall₂ ?_ h.types
    intro t t' ht
    rw [ht.name]
  · exact .none

theorem isSome_findMethod_of_alike (h : a.Alike o a') (r : MethodRef) :
    (a'.findMethod r).isSome = (a.findMethod r).isSome := by
  unfold Assembly.findMethod
  have hfind := findType_of_alike h r.declaring
  generalize a.findType r.declaring = found at hfind ⊢
  generalize a'.findType r.declaring = found' at hfind ⊢
  cases hfind with
  | none =>
      rfl
  | @some t t' ht =>
      -- a reference names a method by its name, its result and the types of its parameters
      have hnamed : ∀ m m' : MethodDef, m.Alike o t.name m' →
          m.isNamedBy t.name r = m'.isNamedBy t'.name r := by
        intro m m' hm
        simp only [MethodDef.isNamedBy, ht.name, hm.name, hm.result, hm.params]
      have hmethod := find?_of_forall₂ hnamed ht.methods
      simp only [Option.isSome_map]
      generalize t.methods.find? (·.isNamedBy t.name r) = m? at hmethod ⊢
      generalize t'.methods.find? (·.isNamedBy t'.name r) = m?' at hmethod ⊢
      cases hmethod with
      | none =>
          rfl
      | some _ =>
          rfl

theorem fieldOffset_of_alike (h : a.Alike o a') (headerSize : UInt32) (field : FieldRef) :
    fieldOffset a' headerSize field = fieldOffset a headerSize field := by
  unfold fieldOffset
  have hfind := findType_of_alike h field.declaring
  generalize a.findType field.declaring = found at hfind ⊢
  generalize a'.findType field.declaring = found' at hfind ⊢
  cases hfind with
  | none =>
      rfl
  | some ht =>
      simp only [TypeDef.findField, ht.fields]

theorem select_of_alike (h : a.Alike o a') (headerSize : UInt32) (i : Instruction) :
    select a' headerSize i = select a headerSize i := by
  unfold select
  simp only [h.name, fieldOffset_of_alike h]

theorem callIndex_of_alike (h : a.Alike o a') (r : MethodRef) :
    Build.callIndex a' r = Build.callIndex a r := by
  have hsome := isSome_findMethod_of_alike h r
  unfold Build.callIndex
  rw [h.name]
  -- the callee itself is not looked at: its index comes from the name in the reference
  cases hfound : a.findMethod r with
  | none =>
      have hnone : a'.findMethod r = none := by simpa [hfound] using hsome
      rw [hnone]
  | some found =>
      rw [hfound] at hsome
      rcases Option.isSome_iff_exists.1 hsome with ⟨found', hfound'⟩
      rw [hfound']

/-! ## Bodies -/

theorem link_of_alike (h : a.Alike o a') (cursor : Cursor) (e : Emit) :
    e.link a' cursor = e.link a cursor := by
  cases e with
  | call r =>
      simp only [Emit.link, callIndex_of_alike h]
  | _ =>
      rfl

theorem linkAll_of_alike (h : a.Alike o a') (cursor : Cursor) (es : List Emit) :
    linkAll a' cursor es = linkAll a cursor es := by
  induction es with
  | nil =>
      rfl
  | cons e es ih =>
      simp only [linkAll, link_of_alike h, ih]

theorem lowerInstructions_of_alike (h : a.Alike o a') (headerSize : UInt32) (cursor : Cursor)
    (is : List Instruction) :
    lowerInstructions a' headerSize cursor is = lowerInstructions a headerSize cursor is := by
  induction is generalizing cursor with
  | nil =>
      rfl
  | cons i is ih =>
      simp only [lowerInstructions, select_of_alike h, linkAll_of_alike h, ih]

theorem analyze_of_alike {body body' : MethodBody} (h : body.Alike body') :
    Schedule.analyze body' = Schedule.analyze body := by
  simp only [Schedule.analyze, h.instructions, h.regions]

theorem lowerBody_of_alike (h : a.Alike o a') (headerSize : UInt32) (hasResult : Bool)
    {body body' : MethodBody} (hbody : body.Alike body') :
    lowerBody a' headerSize hasResult body' = lowerBody a headerSize hasResult body := by
  simp only [lowerBody, hbody.instructions, analyze_of_alike hbody, lowerInstructions_of_alike h]

/-! ## Methods -/

section Methods

variable {declaring : TypeName} {m m' : MethodDef}

/-- The kinds of the parameters depend on their types alone. -/
theorem mapM_valueKind (params : List Param) :
    params.mapM (valueKind ·.type) = (params.map Param.type).mapM valueKind := by
  rw [List.mapM_map]
  rfl

theorem methodSignature_of_alike (h : m.Alike o declaring m') :
    methodSignature m' = methodSignature m := by
  have hthis : m'.hasThis = m.hasThis := congrArg (!·) h.isStatic
  unfold methodSignature
  rw [mapM_valueKind, mapM_valueKind, h.params, h.result, hthis]

theorem compileBody_of_alike (h : a.Alike o a') (hm : m.Alike o declaring m')
    (signature : Signature) :
    compileBody a' o (m.ref declaring).fullName signature m' =
      compileBody a o (m.ref declaring).fullName signature m := by
  unfold compileBody
  rw [h.name]
  cases hinterop : o.isInterop (m.ref declaring).fullName with
  | true =>
      -- a thunk is made from the name and the signature
      simp only [↓reduceIte]
  | false =>
      simp only [Bool.false_eq_true, ↓reduceIte]
      have hbody := hm.body hinterop
      generalize m.body = body? at hbody ⊢
      generalize m'.body = body?' at hbody ⊢
      cases hbody with
      | none =>
          rfl
      | some hbody =>
          simp only [lowerBody_of_alike h _ _ hbody]

theorem compileMethod_of_alike (h : a.Alike o a') {t t' : TypeDef} (ht : t'.name = t.name)
    (hm : m.Alike o t.name m') : compileMethod a' o t' m' = compileMethod a o t m := by
  simp only [compileMethod, ht, hm.ref, methodSignature_of_alike hm, compileBody_of_alike h hm,
    hm.isPublic]

end Methods

/-! ## Modules -/

/-- A method and its type, in two assemblies that are alike. -/
def AlikeIn (o : Options) (tm tm' : TypeDef × MethodDef) : Prop :=
  tm'.1.name = tm.1.name ∧ tm.2.Alike o tm.1.name tm'.2

theorem Assembly.Alike.methods (h : a.Alike o a') : a.methods.Forall₂ (AlikeIn o) a'.methods := by
  unfold Assembly.methods
  have htypes := h.types
  generalize a.types = types at htypes
  generalize a'.types = types' at htypes
  induction htypes with
  | nil =>
      exact .nil
  | @cons t t' types types' ht _ ih =>
      have hmethods : (t.methods.map (t, ·)).Forall₂ (AlikeIn o) (t'.methods.map (t', ·)) := by
        rw [List.forall₂_map_left_iff, List.forall₂_map_right_iff]
        exact ht.methods.imp fun m m' hm => ⟨ht.name, hm⟩
      rw [List.flatMap_cons, List.flatMap_cons]
      exact List.rel_append hmethods ih

theorem compileMethods_of_alike (h : a.Alike o a') {ms ms' : List (TypeDef × MethodDef)}
    (hms : ms.Forall₂ (AlikeIn o) ms') (s : BuildState) :
    compileMethods a' o ms' s = compileMethods a o ms s := by
  induction hms generalizing s with
  | nil =>
      rfl
  | @cons tm tm' ms ms' htm _ ih =>
      rcases tm with ⟨t, m⟩
      rcases tm' with ⟨t', m'⟩
      rcases htm with ⟨ht, hm⟩
      simp only [compileMethods, compileMethod_of_alike h ht hm, ih]
      -- the context of a failure holds the full name of the method
      rw [ht, hm.ref]

theorem start_of_alike (h : a.Alike o a') : BuildState.start a' o = BuildState.start a o := by
  have hnames : a.methodNames = a'.methodNames := by
    refine map_eq_of_forall₂ ?_ h.methods
    rintro ⟨t, m⟩ ⟨t', m'⟩ ⟨ht, hm⟩
    have href : m'.ref t'.name = m.ref t.name := ht ▸ hm.ref
    exact congrArg MethodRef.fullName href.symm
  simp only [BuildState.start, hnames]

/-- Not even the events of the build tell the two assemblies apart. -/
theorem buildWithLog_of_alike (h : a.Alike o a') : buildWithLog a' o = buildWithLog a o := by
  simp only [buildWithLog, start_of_alike h, compileMethods_of_alike h h.methods]

/-- Two assemblies that differ only in the bodies of methods that forward to the host, the types of
local variables, the names of parameters, and the words `public` and `explicit` of types and
`virtual` of methods become the same module, or fail with the same error in the same context. -/
theorem build_of_alike (h : a.Alike o a') : build a' o = build a o :=
  congrArg Prod.fst (buildWithLog_of_alike h)

end Alike

/-! ## The counter in disguise -/

namespace Counting

/-- The method that forwards to the host, with a body that could not be compiled. -/
def disguisedLower : MethodDef :=
  { lower with
    params := [⟨some "value", .int32⟩]
    isVirtual := true
    body := some { instructions := [⟨0, .ldstr, .string "opaque"⟩] } }

/-- The counting method with local variables, which it does not use. -/
def disguisedCount : MethodDef :=
  { count with
    params := [⟨some "limit", .int32⟩]
    body := some { countBody with locals := [.float64, .array .object] } }

def disguisedType : TypeDef :=
  { type with
    isPublic := true
    isExplicit := true
    methods := [disguisedCount, constructor, disguisedLower] }

def disguised : Assembly := ⟨"Lib", [disguisedType]⟩

theorem alike_disguised : assembly.Alike options disguised := by
  have hcount : count.Alike options type.name disguisedCount :=
    ⟨rfl, rfl, rfl, rfl, rfl, fun _ => .some ⟨rfl, rfl⟩⟩
  have hconstructor : constructor.Alike options type.name constructor :=
    ⟨rfl, rfl, rfl, rfl, rfl, fun _ => .some ⟨rfl, rfl⟩⟩
  have hlower : lower.Alike options type.name disguisedLower := by
    refine ⟨rfl, rfl, rfl, rfl, rfl, fun hinterop => ?_⟩
    have hforwards : options.isInterop (lower.ref type.name).fullName = true := by
      decide +kernel
    rw [hforwards] at hinterop
    cases hinterop
  exact ⟨rfl, .cons ⟨rfl, rfl, .cons hcount (.cons hconstructor (.cons hlower .nil))⟩ .nil⟩

/-- In disguise the counter still becomes the same module. -/
theorem disguised_builds :
    disguised ≠ assembly ∧ assembly.Alike options disguised ∧
      build disguised options = .ok image := by
  refine ⟨by decide +kernel, alike_disguised, ?_⟩
  rw [build_of_alike alike_disguised]
  exact build_eq

end Counting

end CilCompiler
