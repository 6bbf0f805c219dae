import CilCompiler.Proofs.FirstReference
import CilCompiler.Proofs.Literals
import CilCompiler.Proofs.Origins

/-!
# Handles of types

An instruction that makes an object reads a global which stands for the type. The name of the global
is made of the assembly and the name of the type, with a bar between them. Here the globals are
followed back to the names that the listing writes.

* `globalIndices` are the globals that operators read; `build_globals_read` says which ones a
  function reads.
* `plainName` is what is left of a dotted name that was cut at its last dot and joined again.
* `qualified_eq_iff` says when two names with a bar in them are the same text.
* `Construction` is an instruction of a listing that makes an object.
  `Construction.StandsIn.parse_eq` says what it is read to, and `exists_standsIn` that there are no
  others in the assembly.
* `build_shares_handle_iff` says when two of them read one global.
-/

namespace CilCompiler

open Wasm (Op)

/-! ## Globals that code reads -/

/-- The globals that operators read, in order. -/
def globalIndices (ops : List Op) : List Nat :=
  ops.filterMap fun
    | .globalGet index => some index
    | _ => none

/-- The global that the code of a function reads when it reads one for the `n`-th time. -/
def Image.globalRead? (image : Image) (function : String) (n : Nat) : Option Nat :=
  (image.functions.find? (·.function.name == function)).bind fun d =>
    (globalIndices d.function.body)[n]?

/-- The names of the globals that code reads are those in the code with names. -/
theorem globalIndices_of_named {n : Names} {ops : List Op} {named : List NamedOp}
    (h : ops.mapM n.name? = some named) :
    (globalIndices ops).map (n.globals[·]?) = (named.filterMap NamedOp.global?).map some := by
  induction ops generalizing named with
  | nil =>
      cases h
      rfl
  | cons op ops ih =>
      simp only [List.mapM_cons, Option.bind_eq_bind, Option.bind_eq_some_iff] at h
      rcases h with ⟨first, hfirst, rest, hrest, heq⟩
      cases heq
      have hbehind := ih hrest
      cases op with
      | globalGet index =>
          rcases Option.map_eq_some_iff.1 hfirst with ⟨name, hname, rfl⟩
          change n.globals[index]? :: (globalIndices ops).map (n.globals[·]?) =
            some name :: (rest.filterMap NamedOp.global?).map some
          rw [hname, hbehind]
      | call index =>
          rcases Option.map_eq_some_iff.1 hfirst with ⟨callee, -, rfl⟩
          exact hbehind
      | _ =>
          cases hfirst
          exact hbehind

section Modules

variable {a : Assembly} {o : Options} {image : Image}

/-- A function is found by its name. -/
theorem Built.find?_function {tables : Tables} (h : Built a o image tables) {d : Definition}
    (hd : d ∈ image.functions) :
    image.functions.find? (·.function.name == d.function.name) = some d := by
  cases hfound : image.functions.find? (·.function.name == d.function.name) with
  | none =>
      exact absurd (List.find?_eq_none.1 hfound d hd) (by simp)
  | some d' =>
      have hname : d'.function.name = d.function.name := by simpa using List.find?_some hfound
      have hd' := h.mem_functions_iff.1 (List.mem_of_find?_eq_some hfound)
      rw [h.eq_of_name hd' (h.mem_functions_iff.1 hd) hname]

/-- The function of a method reads the globals that the method refers to, in their order. -/
theorem build_globals_read {t : TypeDef} {m : MethodDef} (h : build a o = .ok image)
    (hm : (t, m) ∈ a.methods) :
    ∃ d, image.functions.find? (·.function.name == (m.ref t.name).fullName) = some d ∧
      (globalIndices d.function.body).map (image.globals[·]?) =
        (a.globalsOf o t m).map fun name => some (.lateBound name) := by
  rcases build_ok h with ⟨tables, hbuilt⟩
  rcases build_ok_drafted h with ⟨fs, hall, -, hwritten⟩
  rcases exists_of_forall₂_left hall hm with ⟨f, hf, hdraft⟩
  rcases hwritten.entry hf with ⟨d, hd, hrealised⟩
  have hname : d.function.name = (m.ref t.name).fullName :=
    hrealised.name.trans ((draftMethod_proper t.name m).holds hdraft).1
  refine ⟨d, hname ▸ hbuilt.find?_function hd, ?_⟩
  have hnames := globalIndices_of_named hrealised.body
  rw [Image.toNames, hwritten.globals, map_name_lateBound] at hnames
  -- a global is the one of its name
  have hat := congrArg (List.map (Option.map GlobalImport.lateBound)) hnames
  rw [List.map_map, List.map_map] at hat
  rw [← globals_of_drafted hdraft, hwritten.globals]
  refine Eq.trans (List.map_congr_left fun i _ => ?_) hat
  exact List.getElem?_map

/-- What the code of a method reads for the `n`-th time is the `n`-th global of the method. -/
theorem build_globalRead? {t : TypeDef} {m : MethodDef} (h : build a o = .ok image)
    (hm : (t, m) ∈ a.methods) (n : Nat) :
    (image.globalRead? (m.ref t.name).fullName n).map (image.globals[·]?) =
      (a.globalsOf o t m)[n]?.map fun name => some (.lateBound name) := by
  rcases build_globals_read h hm with ⟨d, hfound, hread⟩
  rw [Image.globalRead?, hfound, Option.bind_some, ← List.getElem?_map, hread, List.getElem?_map]

theorem build_globals_nodup (h : build a o = .ok image) : image.globals.Nodup := by
  rcases build_ok_drafted h with ⟨fs, -, -, hwritten⟩
  rw [hwritten.globals]
  refine List.Nodup.map ?_ (Numbering.nodup_eraseDups _)
  intro name name' h
  exact congrArg GlobalImport.name h

end Modules

/-! ## Names with dots and bars -/

/-- A dotted name without the dot in front, if this is its only one. -/
def plainName (dotted : String) : String :=
  match dotted.toList with
  | '.' :: cs => if '.' ∈ cs then dotted else String.ofList cs
  | _ => dotted

/-- A mark stands in a text for the last time, or not at all. -/
theorem splitLast_cases (mark : Char) (cs : List Char) :
    (TypeName.splitLast mark cs = none ∧ mark ∉ cs) ∨
      ∃ front back, TypeName.splitLast mark cs = some (front, back) ∧
        cs = front ++ mark :: back ∧ mark ∉ back := by
  by_cases h : mark ∈ cs
  · rcases List.eq_append_cons_of_mem (List.mem_reverse.2 h) with ⟨back, front, hsplit, hback⟩
    have hcs : cs = front.reverse ++ mark :: back.reverse := by
      rw [← List.reverse_reverse cs, hsplit]
      simp
    have hnone : mark ∉ back.reverse := by simpa using hback
    refine .inr ⟨front.reverse, back.reverse, ?_, hcs, hnone⟩
    rw [hcs, Listing.splitLast_append _ hnone]
  · exact .inl ⟨Listing.splitLast_eq_none h, h⟩

/-- Cutting a name at its last dot and joining the parts loses a dot with nothing before it. -/
theorem fullName_ofDotted (assembly : Option String) (dotted : String) :
    (TypeName.ofDotted assembly dotted).fullName = plainName dotted := by
  rcases splitLast_cases '.' dotted.toList with ⟨hnone, hdot⟩ | ⟨front, back, hsplit, hcs, hback⟩
  · simp only [TypeName.ofDotted, hnone, TypeName.fullName, if_true, plainName]
    split
    · next cs hcs =>
        rw [hcs] at hdot
        simp at hdot
    · rfl
  · simp only [TypeName.ofDotted, hsplit, TypeName.fullName, plainName]
    cases front with
    | nil =>
        rw [List.nil_append] at hcs
        simp [hcs, hback]
    | cons c front =>
        have hjoin : String.ofList (c :: front) ++ "." ++ String.ofList back = dotted := by
          refine String.toList_injective ?_
          simp [hcs]
        have hne : String.ofList (c :: front) ≠ "" := by simp
        rw [if_neg hne, hjoin]
        split
        · next cs hcs' =>
            rw [hcs, List.cons_append, List.cons.injEq] at hcs'
            rw [if_pos (hcs'.2 ▸ List.mem_append_right _ List.mem_cons_self)]
        · rfl

theorem plainName_eq_self {dotted : String}
    (h : ∀ name, dotted = "." ++ name → '.' ∈ name.toList) : plainName dotted = dotted := by
  unfold plainName
  split
  · next cs hcs =>
      have hdotted : dotted = "." ++ String.ofList cs := by
        rw [← String.ofList_toList (s := dotted), hcs]
        simp [String.ofList_cons]
      have hmem := h _ hdotted
      rw [String.toList_ofList] at hmem
      rw [if_pos hmem]
  · rfl

/-- Two lists are cut at the same mark, or one mark stands within a part of the other. -/
theorem append_mark_eq_iff {mark : Char} {as as' bs bs' : List Char} :
    as ++ mark :: bs = as' ++ mark :: bs' ↔
      (as = as' ∧ bs = bs') ∨ (∃ cs, as' = as ++ mark :: cs ∧ bs = cs ++ mark :: bs') ∨
        ∃ cs, as = as' ++ mark :: cs ∧ bs' = cs ++ mark :: bs := by
  constructor
  · intro h
    rcases List.append_eq_append_iff.1 h with ⟨cs, hfront, hback⟩ | ⟨cs, hfront, hback⟩
    · cases cs with
      | nil =>
          exact .inl ⟨by simpa using hfront.symm, (List.cons.inj hback).2⟩
      | cons c cs =>
          cases (List.cons.inj hback).1
          exact .inr (.inl ⟨cs, hfront, (List.cons.inj hback).2⟩)
    · cases cs with
      | nil =>
          exact .inl ⟨by simpa using hfront, (List.cons.inj hback).2.symm⟩
      | cons c cs =>
          cases (List.cons.inj hback).1
          exact .inr (.inr ⟨cs, hfront, (List.cons.inj hback).2⟩)
  · rintro (⟨rfl, rfl⟩ | ⟨cs, rfl, rfl⟩ | ⟨cs, rfl, rfl⟩) <;> simp

/-- The second assembly goes on where the first one ends, behind a bar. What it goes on with and
another bar stand in front of the second name in the first one. -/
def RunsInto (assembly name assembly' name' : String) : Prop :=
  ∃ middle, assembly' = assembly ++ "|" ++ middle ∧ name = middle ++ "|" ++ name'

theorem runsInto_iff {assembly name assembly' name' : String} :
    RunsInto assembly name assembly' name' ↔
      ∃ cs, assembly'.toList = assembly.toList ++ '|' :: cs ∧
        name.toList = cs ++ '|' :: name'.toList := by
  constructor
  · rintro ⟨middle, rfl, rfl⟩
    exact ⟨middle.toList, by simp, by simp⟩
  · rintro ⟨cs, hassembly, hname⟩
    refine ⟨String.ofList cs, ?_, ?_⟩
    · refine String.toList_injective ?_
      simp [hassembly]
    · refine String.toList_injective ?_
      simp [hname]

/-- Texts with a bar in them are the same if their parts are, or if one runs into the other. -/
theorem qualified_eq_iff {assembly assembly' name name' : String} :
    Handle.qualified assembly name = Handle.qualified assembly' name' ↔
      (assembly = assembly' ∧ name = name') ∨ RunsInto assembly name assembly' name' ∨
        RunsInto assembly' name' assembly name := by
  have hlist : ∀ s t : String, (Handle.qualified s t).toList = s.toList ++ '|' :: t.toList := by
    intro s t
    simp [Handle.qualified]
  rw [← String.toList_inj, hlist, hlist, append_mark_eq_iff, String.toList_inj, String.toList_inj,
    runsInto_iff, runsInto_iff]

namespace Listing

/-! ## Types as they are written -/

/-- The name of a type as a listing writes it, with the assembly that may stand before it. -/
structure WrittenName where
  assembly : Option String
  dotted : String
  deriving DecidableEq

namespace WrittenName

def tokens : WrittenName → List Token
  | ⟨some assembly, dotted⟩ => [.punct '[', .ident assembly, .punct ']', .ident dotted]
  | ⟨none, dotted⟩ => [.ident dotted]

/-- The assembly that is written, or the one that is listed. -/
def scope (w : WrittenName) (home : String) : String :=
  w.assembly.getD home

/-- The name of the global that stands for the type. -/
def handle (w : WrittenName) (home : String) : String :=
  "type:" ++ Handle.qualified (w.scope home) (plainName w.dotted)

/-- The assembly has no bar in its name, and a dot in front of the type is not its only one. -/
structure Ordinary (w : WrittenName) (home : String) : Prop where
  noBar : '|' ∉ (w.scope home).toList
  noLoneDot : ∀ name, w.dotted = "." ++ name → '.' ∈ name.toList

/-- The types have one handle. -/
def Agree (home : String) (w w' : WrittenName) : Prop :=
  (w.scope home = w'.scope home ∧ plainName w.dotted = plainName w'.dotted) ∨
    RunsInto (w.scope home) (plainName w.dotted) (w'.scope home) (plainName w'.dotted) ∨
    RunsInto (w'.scope home) (plainName w'.dotted) (w.scope home) (plainName w.dotted)

variable {w w' : WrittenName} {home : String}

theorem handle_eq_iff : w.handle home = w'.handle home ↔ w.Agree home w' := by
  unfold handle
  rw [String.append_right_inj]
  exact qualified_eq_iff

/-- Ordinary names have one handle only if they are the same. -/
theorem Ordinary.agree_iff (h : w.Ordinary home) (h' : w'.Ordinary home) :
    w.Agree home w' ↔ w.scope home = w'.scope home ∧ w.dotted = w'.dotted := by
  have hbar : ∀ {v v' : WrittenName}, v'.Ordinary home →
      ¬RunsInto (v.scope home) (plainName v.dotted) (v'.scope home) (plainName v'.dotted) := by
    rintro v v' hv' ⟨middle, hscope, -⟩
    exact hv'.noBar (by simp [hscope])
  unfold Agree
  rw [or_iff_left (not_or_intro (hbar h') (hbar h)), plainName_eq_self h.noLoneDot,
    plainName_eq_self h'.noLoneDot]

theorem typeHandle_eq (w : WrittenName) (home : String) :
    Handle.typeHandle home (TypeName.ofDotted w.assembly w.dotted) = w.handle home := by
  have hassembly : (TypeName.ofDotted w.assembly w.dotted).assembly = w.assembly := by
    unfold TypeName.ofDotted
    split <;> rfl
  rw [Handle.typeHandle, TypeName.scope, hassembly, fullName_ofDotted]
  rfl

/-- A written name is read as the name that it gives. -/
theorem typeName_of_tokens {ts : List Located} (h : w.tokens <+: ts.map Located.token) :
    ∃ us, typeName ts = .ok (TypeName.ofDotted w.assembly w.dotted, us) := by
  rcases w with ⟨_ | assembly, dotted⟩
  · rcases h with ⟨rest, h⟩
    rcases List.map_eq_cons_iff.1 h.symm with ⟨t, us, rfl, ht, -⟩
    have hbare : acceptPunct '[' (t :: us) = .ok (false, t :: us) := if_neg (by simp [current, ht])
    refine ⟨us, ?_⟩
    unfold typeName
    rw [run_bind hbare]
    exact run_bind (expectName_of_token ht)
  · rcases h with ⟨rest, h⟩
    rcases List.map_eq_cons_iff.1 h.symm with ⟨t₁, ts₁, rfl, hopen, h₁⟩
    rcases List.map_eq_cons_iff.1 h₁ with ⟨t₂, ts₂, rfl, hassembly, h₂⟩
    rcases List.map_eq_cons_iff.1 h₂ with ⟨t₃, ts₃, rfl, hclose, h₃⟩
    rcases List.map_eq_cons_iff.1 h₃ with ⟨t₄, us, rfl, hdotted, -⟩
    have hbracket : acceptPunct '[' (t₁ :: t₂ :: t₃ :: t₄ :: us) =
        .ok (true, t₂ :: t₃ :: t₄ :: us) := accept_of_token hopen (by simp)
    have hbracket' : expectPunct ']' (t₃ :: t₄ :: us) = .ok ((), t₄ :: us) :=
      expect_of_token hclose (by simp)
    refine ⟨us, ?_⟩
    unfold typeName
    rw [run_bind hbracket]
    simp only [if_true]
    rw [run_bind (expectName_of_token hassembly), run_bind hbracket']
    exact run_bind (expectName_of_token hdotted)

/-- What is read as the name of a type is written. -/
theorem exists_of_typeName {t : TypeName} {ts rest : List Located}
    (h : typeName ts = .ok (t, rest)) :
    ∃ w : WrittenName, w.tokens <+: ts.map Located.token ∧
      t = TypeName.ofDotted w.assembly w.dotted := by
  unfold typeName at h
  rcases bind_eq_ok h with ⟨bracketed, us, haccept, hread⟩
  by_cases hopen : current ts = .punct '['
  · rcases exists_of_current hopen (by simp) with ⟨bracket, us', rfl, hbracket⟩
    cases haccept.symm.trans (accept_of_token hbracket (by simp))
    simp only [if_true] at hread
    rcases bind_eq_ok hread with ⟨assembly, vs, hassembly, hread⟩
    rcases bind_eq_ok hread with ⟨_, vs', hclose, hread⟩
    rcases bind_eq_ok hread with ⟨dotted, vs'', hdotted, hpure⟩
    cases hpure
    rcases expectName_eq_ok hassembly with ⟨t₁, rfl, ht₁⟩
    rcases expect_eq_ok hclose (by simp) with ⟨t₂, rfl, ht₂⟩
    rcases expectName_eq_ok hdotted with ⟨t₃, rfl, ht₃⟩
    refine ⟨⟨some assembly, dotted⟩, ⟨rest.map Located.token, ?_⟩, rfl⟩
    simp [tokens, hbracket, ht₁, ht₂, ht₃]
  · have hbare : acceptPunct '[' ts = .ok (false, ts) := if_neg hopen
    cases haccept.symm.trans hbare
    simp only [Bool.false_eq_true, if_false] at hread
    rcases bind_eq_ok hread with ⟨dotted, vs, hdotted, hpure⟩
    cases hpure
    rcases expectName_eq_ok hdotted with ⟨t₁, rfl, ht₁⟩
    refine ⟨⟨none, dotted⟩, ⟨rest.map Located.token, ?_⟩, rfl⟩
    simp [tokens, ht₁]

end WrittenName

/-! ## Instructions that make objects -/

/-- An instruction that makes an object, with what is read before it. -/
structure Construction where
  here : Setting
  offset : UInt32
  type : WrittenName

/-- The word for the receiver, if there is one, and the type of the result. -/
def resultType : Reader TypeSig := do
  let _ ← acceptWord "instance"
  typeSig

namespace Construction

/-- Reading the text comes to the instruction, and behind the type of the result of the constructor
stands the type of the object. -/
def StandsIn (c : Construction) (text : String) : Prop :=
  ∃ front t rest items result named,
    scan text = .ok (front ++ t :: rest) ∧
    OperandAt front t rest c.here items c.offset .newobj ∧
    resultType (t :: rest) = .ok (result, named) ∧
    c.type.tokens <+: named.map Located.token

/-- The method that the instruction stands in. -/
def method (c : Construction) : String :=
  ((c.here.head.method none).ref c.here.type.name).fullName

/-- How many objects the method has made before. -/
def ordinal (c : Construction) : Nat :=
  (c.here.body.instructions.filterMap Instruction.constructed?).length

/-- The instruction is read to `i`, at position `k` in the method `m` of `t`. -/
structure IsReadTo (c : Construction) (t : TypeDef) (m : MethodDef) (k : Nat) (i : Instruction) :
    Prop where
  method : c.method = (m.ref t.name).fullName
  position : c.here.body.instructions.length = k
  type : i.constructed? = some (TypeName.ofDotted c.type.assembly c.type.dotted)

end Construction

/-- The type of a constructor is written behind the type of its result. -/
theorem methodRef_eq_ok {r : MethodRef} {ts rest : List Located}
    (h : methodRef ts = .ok (r, rest)) :
    ∃ result named us, resultType ts = .ok (result, named) ∧
      typeName named = .ok (r.declaring, us) := by
  unfold methodRef at h
  rcases bind_eq_ok h with ⟨hasThis, us, haccept, h⟩
  rcases bind_eq_ok h with ⟨result, named, hsig, h⟩
  rcases bind_eq_ok h with ⟨declaring, vs, hdeclaring, h⟩
  rcases bind_eq_ok h with ⟨_, us₁, -, h⟩
  rcases bind_eq_ok h with ⟨name, us₂, -, h⟩
  rcases bind_eq_ok h with ⟨params, us₃, -, hpure⟩
  cases hpure
  refine ⟨result, named, vs, ?_, hdeclaring⟩
  unfold resultType
  rw [run_bind haccept]
  exact hsig

theorem later_name {here : Setting} {later : Later} {ts us : List Located}
    (h : here.later ts = .ok (later, us)) : later.type.name = here.type.name := by
  rcases bind_eq_ok h with ⟨body, ts', -, h⟩
  rcases bind_eq_ok h with ⟨type, ts'', htype, h⟩
  rcases bind_eq_ok h with ⟨assembly, us', -, hpure⟩
  cases hpure
  rcases rounds_of_loop htype with ⟨members, last, vs, hrounds, hend⟩
  exact (member_ends _ _ _ _ hend).1.trans hrounds.name_eq

section Sharing

variable {text : String} {a : Assembly} {o : Options} {image : Image} {c c' : Construction}

/-- The listing is read around the instruction, whose operand is a constructor of the type. -/
theorem Construction.StandsIn.parse_eq (h : c.StandsIn text) (hparse : parse text = .ok a) :
    ∃ later r, a = c.here.enclose later ⟨c.offset, .newobj, .method r⟩ ∧
      later.type.name = c.here.type.name ∧
      r.declaring = TypeName.ofDotted c.type.assembly c.type.dotted := by
  rcases h with ⟨front, t, rest, items, result, named, hscan, hplace, hresult, htype⟩
  rcases hplace.assembly_eq (marked_of_scan hscan) with ⟨line, heq⟩
  rcases exists_of_parse hparse with ⟨ts, us, hscan', hread⟩
  cases hscan.symm.trans hscan'
  rw [heq] at hread
  rcases bind_eq_ok hread with ⟨o, behind, hoperand, hread⟩
  rcases bind_eq_ok hread with ⟨later, us', hlater, hpure⟩
  cases hpure
  rcases bind_eq_ok hoperand with ⟨r, behind', hmethod, hpure⟩
  cases hpure
  refine ⟨later, r, rfl, later_name hlater, ?_⟩
  -- the reference is read over the same word and the same type of the result
  rcases methodRef_eq_ok hmethod with ⟨result', named', vs, hresult', hdeclaring⟩
  cases hresult.symm.trans hresult'
  rcases WrittenName.typeName_of_tokens htype with ⟨vs', hname⟩
  exact congrArg Prod.fst (Except.ok.inj (hdeclaring.symm.trans hname))

/-- The code of the method of `c` reads the global `read` for it. If the method only forwards to the
host, then there is no code for the instruction. -/
inductive Construction.Reads (o : Options) (image : Image) (home : String) (c : Construction) :
    Option Nat → Prop
  | handle {g : Nat} :
      o.isInterop c.method = false → image.globalRead? c.method c.ordinal = some g →
      image.globals[g]? = some (.lateBound (c.type.handle home)) → Reads o image home c (some g)
  | replaced :
      o.isInterop c.method = true →
      (∀ n g, image.globalRead? c.method n = some g →
        image.globals[g]? =
          some (.lateBound (Handle.methodHandle (Handle.qualified home c.method)))) →
      Reads o image home c none

/-- Every instruction that makes an object reads the handle of its type, or has no code. -/
theorem Construction.StandsIn.reads (h : c.StandsIn text) (hparse : parse text = .ok a)
    (hbuild : build a o = .ok image) : ∃ read, c.Reads o image a.name read := by
  rcases h.parse_eq hparse with ⟨later, r, ha, hname, hdeclaring⟩
  rcases c.here.method_mem_enclose later ⟨c.offset, .newobj, .method r⟩ with
    ⟨t, body, hmem, htype, hinstructions⟩
  rw [← ha] at hmem
  have hmethod : ((c.here.head.method (some body)).ref t.name).fullName = c.method := by
    rw [htype, hname]
    rfl
  have hread := build_globalRead? hbuild hmem
  rw [Assembly.globalsOf, hmethod] at hread
  cases hinterop : o.isInterop c.method with
  | true =>
      refine ⟨none, .replaced hinterop fun n g hg => ?_⟩
      have hat := hread n
      rw [hinterop, if_pos rfl, hg] at hat
      rcases Option.map_eq_some_iff.1 hat.symm with ⟨handle, hhandle, heq⟩
      cases List.mem_singleton.1 (List.mem_of_getElem? hhandle)
      exact heq.symm
  | false =>
      -- the objects that are made before the instruction are as many as its ordinal
      have hmade : (c.here.head.method (some body)).instructions.filterMap
          Instruction.constructed? =
            (c.here.body.instructions.filterMap Instruction.constructed?).reverse ++
              r.declaring :: later.body.instructions.filterMap Instruction.constructed? := by
        change body.instructions.filterMap _ = _
        rw [hinstructions, List.filterMap_append, List.filterMap_reverse]
        rfl
      have hnth : ((c.here.head.method (some body)).instructions.filterMap
          Instruction.constructed?)[c.ordinal]? = some r.declaring := by
        simp [hmade, ordinal]
      have hat := hread c.ordinal
      rw [hinterop, if_neg Bool.false_ne_true, ← List.map_filterMap, List.getElem?_map, hnth,
        hdeclaring] at hat
      rcases Option.map_eq_some_iff.1 hat with ⟨g, hg, hhandle⟩
      rw [WrittenName.typeHandle_eq] at hhandle
      exact ⟨some g, .handle hinterop hg hhandle⟩

/-- Every instruction of the assembly that makes an object stands in the listing. -/
theorem exists_standsIn {t : TypeDef} {m : MethodDef} {body : MethodBody} {k : Nat}
    {i : Instruction} (hparse : parse text = .ok a) (hm : (t, m) ∈ a.methods)
    (hbody : m.body = some body) (hi : body.instructions[k]? = some i)
    (hmakes : i.opcode = .newobj) :
    ∃ c : Construction, c.StandsIn text ∧ c.IsReadTo t m k i := by
  rcases exists_of_parse hparse with ⟨ts, rest, hscan, hread⟩
  rcases List.getElem?_eq_some_iff.1 hi with ⟨hlt, rfl⟩
  have hsplit : body.instructions =
      body.instructions.take k ++ body.instructions[k] :: body.instructions.drop (k + 1) := by
    rw [← List.drop_eq_getElem_cons hlt, List.take_append_drop]
  generalize body.instructions[k] = i at hsplit hmakes ⊢
  rcases i with ⟨offset, opcode, operand⟩
  cases hmakes
  rcases exists_comesTo hread hm hbody hsplit with
    ⟨here, items, us, hcomes, hstands, hname, hmethod, hbefore⟩
  rcases hcomes.exchange with ⟨front, rfl, -⟩
  rcases hstands with ⟨rfl, hmark, hlabel, hcolon, hword, hopcode, hoperand⟩
  next mark colon word us rest' label mnemonic =>
  rcases bind_eq_ok hoperand with ⟨r, behind, hreference, hpure⟩
  cases hpure
  rcases methodRef_eq_ok hreference with ⟨result, named, vs, hresult, hdeclaring⟩
  rcases WrittenName.exists_of_typeName hdeclaring with ⟨w, hw, hdotted⟩
  cases us with
  | nil =>
      cases hresult
  | cons t' ts' =>
      have hplace : (front ++ [mark, colon, word]) ++ t' :: ts' =
          front ++ mark :: colon :: word :: t' :: ts' := by simp
      refine ⟨⟨here, offset, w⟩, ⟨front ++ [mark, colon, word], t', ts', items, result, named,
        ?_, ?_, hresult, hw⟩, ⟨?_, ?_, ?_⟩⟩
      · rw [hplace, hscan]
      · exact .intro rfl hmark hlabel hcolon hword hopcode (hplace ▸ hcomes)
      · rw [hmethod, ← hname]
        rfl
      · rw [hbefore, List.length_reverse, List.length_take, Nat.min_eq_left (Nat.le_of_lt hlt)]
      · rw [← hdotted]
        rfl

/-- Every instruction of a listing that makes an object stands in its text, and any two of them read
one global each, named by their type, unless their method only forwards to the host. It is the same
global if the assemblies and the plain names are the same, or if one assembly and its bar run into
the other; for ordinary names, just if the assemblies and the names are the same as they are
written. -/
theorem build_shares_handle_iff (hparse : parse text = .ok a) (hbuild : build a o = .ok image) :
    (∀ t m body k i, (t, m) ∈ a.methods → m.body = some body → body.instructions[k]? = some i →
      i.opcode = .newobj → ∃ c : Construction, c.StandsIn text ∧ c.IsReadTo t m k i) ∧
    ∀ c c' : Construction, c.StandsIn text → c'.StandsIn text →
      ∃ read read', c.Reads o image a.name read ∧ c'.Reads o image a.name read' ∧
        ∀ g g', read = some g → read' = some g' →
          (g = g' ↔ c.type.Agree a.name c'.type) ∧
          (c.type.Ordinary a.name → c'.type.Ordinary a.name → (g = g' ↔
            c.type.scope a.name = c'.type.scope a.name ∧ c.type.dotted = c'.type.dotted)) := by
  refine ⟨fun t m body k i hm hbody hi hmakes => exists_standsIn hparse hm hbody hi hmakes, ?_⟩
  intro c c' hc hc'
  rcases hc.reads hparse hbuild with ⟨read, hread⟩
  rcases hc'.reads hparse hbuild with ⟨read', hread'⟩
  refine ⟨read, read', hread, hread', ?_⟩
  rintro g g' rfl rfl
  rcases hread with ⟨-, -, hhandle⟩
  rcases hread' with ⟨-, -, hhandle'⟩
  have hsame : g = g' ↔ c.type.Agree a.name c'.type := by
    rw [← WrittenName.handle_eq_iff]
    constructor
    · rintro rfl
      exact congrArg GlobalImport.name (Option.some.inj (hhandle.symm.trans hhandle'))
    · intro heq
      rcases List.getElem?_eq_some_iff.1 hhandle with ⟨hlt, -⟩
      refine (List.getElem?_inj hlt (build_globals_nodup hbuild)).1 ?_
      rw [hhandle, hhandle', heq]
  refine ⟨hsame, fun hordinary hordinary' => ?_⟩
  rw [hsame, hordinary.agree_iff hordinary']

end Sharing

namespace Barred

/-! ### Three names of one handle -/

def firstText : List Char := "IL_0000: newobj instance void [A]'B|X'::.ctor()".toList

def secondText : List Char := "IL_0005: newobj instance void ['A|B']X::.ctor()".toList

def thirdText : List Char := "IL_000a: newobj instance void ['A|B'].X::.ctor()".toList

def lastText : List Char := "IL_000f: ret\n\x7d\n\x7d\n".toList

/-- A method that makes three objects. -/
def text : String :=
  String.ofList (OneMethod.text ++ '\n' :: (firstText ++ '\n' :: (secondText ++ '\n' ::
    (thirdText ++ '\n' :: lastText))))

/-- The tokens of an instruction that makes an object. -/
def lineTokens (line : Nat) (label assembly dotted : String) : List Located :=
  [⟨.ident label, line⟩, ⟨.punct ':', line⟩, ⟨.ident "newobj", line⟩, ⟨.ident "instance", line⟩,
    ⟨.ident "void", line⟩, ⟨.punct '[', line⟩, ⟨.ident assembly, line⟩, ⟨.punct ']', line⟩,
    ⟨.ident dotted, line⟩, ⟨.doubleColon, line⟩, ⟨.ident ".ctor", line⟩, ⟨.punct '(', line⟩,
    ⟨.punct ')', line⟩]

def lastTokens : List Located :=
  [⟨.ident "IL_000f", 9⟩, ⟨.punct ':', 9⟩, ⟨.ident "ret", 9⟩, ⟨.punct '\x7d', 10⟩,
    ⟨.punct '\x7d', 11⟩, ⟨.endOfInput, 12⟩]

def tokens : List Located :=
  OneMethod.tokens ++ (lineTokens 6 "IL_0000" "A" "B|X" ++ (lineTokens 7 "IL_0005" "A|B" "X" ++
    (lineTokens 8 "IL_000a" "A|B" ".X" ++ lastTokens)))

/-- Lines are taken in lexemes, then a line end, and then what stands behind it. -/
theorem scanFrom_lines {count line line' : Nat} {cs ds : List Char} {ts us : List Located}
    (h : lexemes count line cs = some (ts, line', []))
    (h' : scanFrom (line' + 1) ds = .ok us) :
    scanFrom line (cs ++ '\n' :: ds) = .ok (ts ++ us) := by
  have hend : lexemes 1 line' ([] ++ '\n' :: ds) = some ([], line' + 1, ds) := rfl
  rw [scanFrom_of_lexemes (lexemes_add (lexemes_before h ds) hend), h', List.append_nil]
  rfl

theorem scan_text : scan text = .ok tokens := by
  have hfirst : lexemes 17 6 firstText = some (lineTokens 6 "IL_0000" "A" "B|X", 6, []) := by
    decide +kernel
  have hsecond : lexemes 17 7 secondText = some (lineTokens 7 "IL_0005" "A|B" "X", 7, []) := by
    decide +kernel
  have hthird : lexemes 17 8 thirdText = some (lineTokens 8 "IL_000a" "A|B" ".X", 8, []) := by
    decide +kernel
  have hlast : scanFrom 9 lastText = .ok lastTokens := by
    decide +kernel
  have hbody := scanFrom_lines hfirst (scanFrom_lines hsecond (scanFrom_lines hthird hlast))
  rw [scan, text, String.toList_ofList]
  exact scanFrom_lines OneMethod.lexemes_text hbody

/-- The constructor of the type `name` without a qualifier. -/
def constructorOf (assembly name : String) : MethodRef :=
  ⟨⟨some assembly, "", name⟩, ".ctor", true, .void, []⟩

/-- The instructions that make an object, latest first. -/
def instructions : List Instruction :=
  [⟨10, .newobj, .method (constructorOf "A|B" "X")⟩,
    ⟨5, .newobj, .method (constructorOf "A|B" "X")⟩,
    ⟨0, .newobj, .method (constructorOf "A" "B|X")⟩]

def assembly : Assembly where
  name := "Lib"
  types :=
    [{ name := ⟨none, "", "C"⟩
       methods :=
        [{ name := "M", result := .int32, params := [], isStatic := true
           body := some { instructions := instructions.reverse ++ [⟨15, .ret, .empty⟩] } }] }]

theorem parse_text : parse text = .ok assembly := by
  rw [parse_of_scan scan_text]
  decide +kernel

/-- The host provides the two constructors. -/
def options : Options :=
  { bridge :=
      { imports :=
          [⟨"host", "A|System.Void B|X::.ctor()", [.i32], none⟩,
            ⟨"host", "A|B|System.Void X::.ctor()", [.i32], none⟩] } }

def image : Image where
  types := [⟨[.i32], some .i32⟩, ⟨[.i32], none⟩, ⟨[], some .i32⟩]
  memory := ⟨"sys", "memory", 1⟩
  imports :=
    [⟨"sys", "object_new", 0⟩, ⟨"sys", "log", 1⟩, ⟨"host", "A|System.Void B|X::.ctor()", 1⟩,
      ⟨"host", "A|B|System.Void X::.ctor()", 1⟩]
  globals := [⟨"global", "type:A|B|X"⟩]
  functions :=
    [⟨2,
      { name := "System.Int32 C::M()"
        signature := ⟨[], some .i32⟩
        locals := [.i32]
        body :=
          [.loop, .globalGet 0, .call 0, .localSet 0, .localGet 0, .call 2, .localGet 0,
            .globalGet 0, .call 0, .localSet 0, .localGet 0, .call 3, .localGet 0,
            .globalGet 0, .call 0, .localSet 0, .localGet 0, .call 3, .localGet 0,
            .ret, .close, .unreachable, .close]
        exportName := none }⟩]

theorem build_eq : build assembly options = .ok image := by
  decide +kernel

/-- The instruction that comes behind so many others. -/
def made (count : Nat) (offset : UInt32) (type : WrittenName) : Construction :=
  ⟨OneMethod.setting { instructions := instructions.drop (3 - count) }, offset, type⟩

def first : Construction := made 0 0 ⟨some "A", "B|X"⟩

def second : Construction := made 1 5 ⟨some "A|B", "X"⟩

def third : Construction := made 2 10 ⟨some "A|B", ".X"⟩

/-- An instruction stands in the listing if the items before it lead there. -/
theorem standsIn {before after : List Located} {items : List (List Located)} {body : PartialBody}
    {line : Nat} {label assembly dotted : String} {offset : UInt32}
    (htokens : tokens =
      OneMethod.tokens ++ (before ++ (lineTokens line label assembly dotted ++ after)))
    (hlabel : Text.readLabel? label = some offset)
    (h : Rounds (bodyItem []) {} (before ++ (lineTokens line label assembly dotted ++ after)) items
      body (lineTokens line label assembly dotted ++ after)) :
    Construction.StandsIn ⟨OneMethod.setting body, offset, ⟨some assembly, dotted⟩⟩ text := by
  let front := OneMethod.tokens ++ (before ++ (lineTokens line label assembly dotted).take 3)
  let rest := (lineTokens line label assembly dotted).drop 4 ++ after
  have hsplit : tokens = front ++ ⟨.ident "instance", line⟩ :: rest := by
    simp [htokens, front, rest, lineTokens]
  have hfront : front = (OneMethod.tokens ++ before) ++
      [⟨.ident label, line⟩, ⟨.punct ':', line⟩, ⟨.ident "newobj", line⟩] := by
    simp [front, lineTokens]
  have hreached := OneMethod.comesTo h
  rw [← htokens, hsplit] at hreached
  refine ⟨front, ⟨.ident "instance", line⟩, rest, items, .void, rest.drop 1, ?_, ?_, rfl, ?_⟩
  · rw [scan_text, hsplit]
  · exact .intro hfront rfl hlabel rfl rfl (by decide +kernel) hreached
  · exact ⟨_, rfl⟩

theorem first_standsIn : first.StandsIn text := by
  have htokens : tokens = OneMethod.tokens ++ ([] ++ (lineTokens 6 "IL_0000" "A" "B|X" ++
      tokens.drop 25)) := rfl
  exact standsIn htokens (by decide +kernel) (.refl _ _)

theorem moved (line : Nat) (label assembly dotted : String) (ts : List Located) :
    ts.length < (lineTokens line label assembly dotted ++ ts).length := by
  simp only [lineTokens, List.length_append, List.length_cons]
  omega

theorem round_first (ts : List Located) :
    bodyItem [] {} (lineTokens 6 "IL_0000" "A" "B|X" ++ ts) =
      .ok (.more second.here.body, ts) := rfl

theorem round_second (ts : List Located) :
    bodyItem [] second.here.body (lineTokens 7 "IL_0005" "A|B" "X" ++ ts) =
      .ok (.more third.here.body, ts) := rfl

theorem second_standsIn : second.StandsIn text := by
  have htokens : tokens = OneMethod.tokens ++ (lineTokens 6 "IL_0000" "A" "B|X" ++
      (lineTokens 7 "IL_0005" "A|B" "X" ++ tokens.drop 38)) := rfl
  exact standsIn htokens (by decide +kernel) (.more (round_first _) (moved ..) (.refl _ _))

theorem third_standsIn : third.StandsIn text := by
  let last := lineTokens 8 "IL_000a" "A|B" ".X" ++ lastTokens
  have htokens : tokens = OneMethod.tokens ++ ((lineTokens 6 "IL_0000" "A" "B|X" ++
      lineTokens 7 "IL_0005" "A|B" "X") ++ last) := rfl
  have hrounds := Rounds.more (round_first (lineTokens 7 "IL_0005" "A|B" "X" ++ last)) (moved ..)
    (.more (round_second last) (moved ..) (.refl _ _))
  exact standsIn htokens (by decide +kernel) hrounds

/-- The first name runs into the second, so both have one handle. -/
theorem shares_handle :
    parse text = .ok assembly ∧ build assembly options = .ok image ∧ first.StandsIn text ∧
      second.StandsIn text ∧ RunsInto "A" "B|X" "A|B" "X" ∧
      ∃ g, first.Reads options image "Lib" (some g) ∧
        second.Reads options image "Lib" (some g) := by
  have hruns : RunsInto "A" "B|X" "A|B" "X" := ⟨"B", rfl, rfl⟩
  refine ⟨parse_text, build_eq, first_standsIn, second_standsIn, hruns, ?_⟩
  rcases (build_shares_handle_iff parse_text build_eq).2 first second first_standsIn
    second_standsIn with ⟨read, read', hread, hread', hsame⟩
  -- no method only forwards to the host
  rcases hread with @⟨g, hown, hg, hhandle⟩ | ⟨hinterop, -⟩
  · rcases hread' with @⟨g', hown', hg', hhandle'⟩ | ⟨hinterop, -⟩
    · have heq : g = g' := (hsame g g' rfl rfl).1.2 (.inr (.inl hruns))
      subst heq
      exact ⟨g, .handle hown hg hhandle, .handle hown' hg' hhandle'⟩
    · cases hinterop
  · cases hinterop

/-- Three instructions in one listing read one global, though no two of them write the same assembly
and the same name. -/
theorem three_types_one_global :
    parse text = .ok assembly ∧ build assembly options = .ok image ∧
      (∀ c ∈ [first, second, third], c.StandsIn text ∧ c.Reads options image "Lib" (some 0)) ∧
      [first, second, third].Pairwise fun c c' =>
        ¬(c.type.scope "Lib" = c'.type.scope "Lib" ∧ c.type.dotted = c'.type.dotted) := by
  have hreads : ∀ c ∈ [first, second, third], c.Reads options image "Lib" (some 0) := by
    simp only [List.forall_mem_cons, List.not_mem_nil, false_implies, implies_true, and_true]
    exact ⟨.handle rfl (by decide +kernel) (by decide +kernel),
      .handle rfl (by decide +kernel) (by decide +kernel),
      .handle rfl (by decide +kernel) (by decide +kernel)⟩
  refine ⟨parse_text, build_eq, fun c hc => ⟨?_, hreads c hc⟩, by decide +kernel⟩
  simp only [List.mem_cons, List.not_mem_nil, or_false] at hc
  rcases hc with rfl | rfl | rfl
  · exact first_standsIn
  · exact second_standsIn
  · exact third_standsIn

end Barred

end Listing

end CilCompiler
