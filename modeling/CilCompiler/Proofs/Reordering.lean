import CilCompiler.Proofs.ModuleDrafts

/-!
# Reordering

The order of declaration decides the numbers in a module and nothing else. If the types of an
assembly and the methods of each type are declared in another order, the same functions come out,
with other numbers for what they name.

* `Assembly.Reordered` is an assembly with its declarations in another order.
* `setting_of_reordered` says that methods see no difference.
* `build_reordered` says that either both assemblies can be built, or none, and that functions of one
  name agree up to the numbers in their bodies.
-/

namespace CilCompiler

/-- The same type with its methods in another order. -/
structure TypeDef.Reordered (t t' : TypeDef) : Prop where
  methods : t.methods.Perm t'.methods
  rest : t' = { t with methods := t'.methods }

/-- The same assembly with its types in another order, and the methods of each type as well. -/
structure Assembly.Reordered (a a' : Assembly) : Prop where
  name : a'.name = a.name
  types : ∃ types, a.types.Forall₂ TypeDef.Reordered types ∧ types.Perm a'.types

theorem TypeDef.Reordered.name {t t' : TypeDef} (h : t.Reordered t') : t'.name = t.name := by
  rw [h.rest]

theorem TypeDef.Reordered.fields {t t' : TypeDef} (h : t.Reordered t') : t'.fields = t.fields := by
  rw [h.rest]

section Reordered

variable {a a' : Assembly}

/-! ## Types -/

theorem Assembly.Reordered.exists_right (h : a.Reordered a') {t : TypeDef} (ht : t ∈ a.types) :
    ∃ t' ∈ a'.types, t.Reordered t' := by
  rcases h.types with ⟨types, hall, hperm⟩
  rcases exists_of_forall₂_left hall ht with ⟨t', ht', hreordered⟩
  exact ⟨t', hperm.mem_iff.1 ht', hreordered⟩

theorem Assembly.Reordered.exists_left (h : a.Reordered a') {t' : TypeDef} (ht' : t' ∈ a'.types) :
    ∃ t ∈ a.types, t.Reordered t' := by
  rcases h.types with ⟨types, hall, hperm⟩
  exact exists_of_forall₂_right hall (hperm.mem_iff.2 ht')

theorem Assembly.Reordered.typeNames (h : a.Reordered a') :
    (a.types.map (·.name.fullName)).Perm (a'.types.map (·.name.fullName)) := by
  rcases h.types with ⟨types, hall, hperm⟩
  have hsame : a.types.map (·.name.fullName) = types.map (·.name.fullName) :=
    map_eq_of_forall₂ (fun t t' ht => by rw [ht.name]) hall
  rw [hsame]
  exact hperm.map _

/-- If no two types share a full name, then the type of a name is any that has it. -/
theorem findType_eq_some_iff (hnames : (a.types.map (·.name.fullName)).Nodup) {name : TypeName}
    {t : TypeDef} :
    a.findType name = some t ↔
      name.isLocal a.name ∧ t ∈ a.types ∧ t.name.fullName = name.fullName := by
  unfold Assembly.findType
  by_cases hlocal : name.isLocal a.name
  · rw [if_pos hlocal]
    constructor
    · intro h
      exact ⟨hlocal, List.mem_of_find?_eq_some h, by simpa using List.find?_some h⟩
    · rintro ⟨-, hmem, hname⟩
      cases hfind : a.types.find? (·.name.fullName == name.fullName) with
      | none =>
          have hne := List.find?_eq_none.1 hfind t hmem
          simp [hname] at hne
      | some t' =>
          have hname' : t'.name.fullName = name.fullName := by simpa using List.find?_some hfind
          have hsame := List.inj_on_of_nodup_map hnames (List.mem_of_find?_eq_some hfind) hmem
            (hname'.trans hname.symm)
          rw [hsame]
  · rw [if_neg hlocal]
    simp [hlocal]

/-- A name means the same type in both assemblies, or none in either. -/
theorem findType_of_reordered (hnames : (a.types.map (·.name.fullName)).Nodup)
    (h : a.Reordered a') (name : TypeName) :
    Option.Rel TypeDef.Reordered (a.findType name) (a'.findType name) := by
  have hnames' := h.typeNames.nodup_iff.1 hnames
  -- `find?` stops at the first type of the name, and distinct names leave only one
  cases hfind : a.findType name with
  | some t =>
      rcases (findType_eq_some_iff hnames).1 hfind with ⟨hlocal, hmem, hname⟩
      rcases h.exists_right hmem with ⟨t', hmem', hreordered⟩
      have hfind' : a'.findType name = some t' :=
        (findType_eq_some_iff hnames').2 ⟨h.name ▸ hlocal, hmem', hreordered.name ▸ hname⟩
      rw [hfind']
      exact .some hreordered
  | none =>
      cases hfind' : a'.findType name with
      | none =>
          exact .none
      | some t' =>
          rcases (findType_eq_some_iff hnames').1 hfind' with ⟨hlocal, hmem', hname⟩
          rcases h.exists_left hmem' with ⟨t, hmem, hreordered⟩
          have hfound := (findType_eq_some_iff hnames).2
            ⟨h.name ▸ hlocal, hmem, hreordered.name ▸ hname⟩
          rw [hfind] at hfound
          cases hfound

/-! ## What methods see -/

theorem isSome_findMethod_of_reordered (hnames : (a.types.map (·.name.fullName)).Nodup)
    (h : a.Reordered a') (r : MethodRef) :
    (a'.findMethod r).isSome = (a.findMethod r).isSome := by
  unfold Assembly.findMethod
  have hfind := findType_of_reordered hnames h r.declaring
  revert hfind
  generalize a.findType r.declaring = found
  generalize a'.findType r.declaring = found'
  intro hfind
  cases hfind with
  | none =>
      rfl
  | @some t t' hreordered =>
      have hany : ∀ {xs ys : List MethodDef}, xs.Perm ys →
          (ys.find? (·.isNamedBy t.name r)).isSome = (xs.find? (·.isNamedBy t.name r)).isSome := by
        intro xs ys hperm
        rw [Bool.eq_iff_iff, List.find?_isSome, List.find?_isSome]
        simp only [hperm.mem_iff]
      simp only [Option.isSome_map, hreordered.name]
      exact hany hreordered.methods

theorem fieldOffset_of_reordered (hnames : (a.types.map (·.name.fullName)).Nodup)
    (h : a.Reordered a') (headerSize : UInt32) (field : FieldRef) :
    fieldOffset a' headerSize field = fieldOffset a headerSize field := by
  unfold fieldOffset
  have hfind := findType_of_reordered hnames h field.declaring
  revert hfind
  generalize a.findType field.declaring = found
  generalize a'.findType field.declaring = found'
  intro hfind
  cases hfind with
  | none =>
      rfl
  | some hreordered =>
      simp only [TypeDef.findField, hreordered.fields]

/-- Methods see no difference between an assembly and one in another order. -/
theorem setting_of_reordered (hnames : (a.types.map (·.name.fullName)).Nodup)
    (h : a.Reordered a') (o : Options) : a'.setting o = a.setting o := by
  have hselect : select a' o.headerSize = select a o.headerSize := by
    funext i
    unfold select
    simp only [h.name, fieldOffset_of_reordered hnames h]
  have hcallee : a'.callee o = a.callee o := by
    funext r
    have hsome := isSome_findMethod_of_reordered hnames h r
    unfold Assembly.callee
    rw [h.name]
    cases hfound : a.findMethod r with
    | none =>
        have hnone : a'.findMethod r = none := by simpa [hfound] using hsome
        rw [hnone]
    | some found =>
        rw [hfound] at hsome
        rcases Option.isSome_iff_exists.1 hsome with ⟨found', hfound'⟩
        rw [hfound']
  simp only [Assembly.setting, h.name, hselect, hcallee]

/-! ## Methods -/

/-- The methods with the names of their types, which is all that a draft depends on. -/
def Assembly.members (a : Assembly) : List (TypeName × MethodDef) :=
  a.types.flatMap fun t => t.methods.map (t.name, ·)

theorem members_eq (a : Assembly) : a.members = a.methods.map fun tm => (tm.1.name, tm.2) := by
  simp only [Assembly.members, Assembly.methods, List.map_flatMap, List.map_map]
  rfl

theorem mem_members_iff {name : TypeName} {m : MethodDef} :
    (name, m) ∈ a.members ↔ ∃ t, (t, m) ∈ a.methods ∧ t.name = name := by
  rw [members_eq]
  constructor
  · intro h
    rcases List.mem_map.1 h with ⟨⟨t, m'⟩, hmem, heq⟩
    cases heq
    exact ⟨t, hmem, rfl⟩
  · rintro ⟨t, hmem, rfl⟩
    exact List.mem_map.2 ⟨(t, m), hmem, rfl⟩

theorem perm_flatMap_of_forall₂ {α β : Type} {R : α → α → Prop} {f : α → List β} {xs ys : List α}
    (hR : ∀ x y, R x y → (f x).Perm (f y)) (h : xs.Forall₂ R ys) :
    (xs.flatMap f).Perm (ys.flatMap f) := by
  induction h with
  | nil =>
      exact .nil
  | cons hr _ ih =>
      rw [List.flatMap_cons, List.flatMap_cons]
      exact (hR _ _ hr).append ih

theorem Assembly.Reordered.members (h : a.Reordered a') : a.members.Perm a'.members := by
  rcases h.types with ⟨types, hall, hperm⟩
  refine .trans (perm_flatMap_of_forall₂ ?_ hall) (hperm.flatMap_right _)
  intro t t' ht
  rw [ht.name]
  exact ht.methods.map _

theorem methodNames_eq (a : Assembly) :
    a.methodNames = a.members.map fun p => (p.2.ref p.1).fullName := by
  rw [members_eq, List.map_map]
  rfl

theorem Assembly.Reordered.methodNames (h : a.Reordered a') :
    a.methodNames.Perm a'.methodNames := by
  rw [methodNames_eq, methodNames_eq]
  exact h.members.map _

variable {o : Options}

/-! ## Modules -/

theorem build_ok_iff_of_reordered (hnames : (a.types.map (·.name.fullName)).Nodup)
    (h : a.Reordered a') :
    (∃ image, build a o = .ok image) ↔ ∃ image, build a' o = .ok image := by
  have hdrafts : (∀ tm ∈ a.methods, ∃ f, draftMethod (a.setting o) o tm.1.name tm.2 = .ok f) ↔
      ∀ tm ∈ a'.methods, ∃ f, draftMethod (a.setting o) o tm.1.name tm.2 = .ok f := by
    have hmembers : ∀ a₁ : Assembly,
        (∀ tm ∈ a₁.methods, ∃ f, draftMethod (a.setting o) o tm.1.name tm.2 = .ok f) ↔
          ∀ p ∈ a₁.members, ∃ f, draftMethod (a.setting o) o p.1 p.2 = .ok f := by
      intro a₁
      rw [members_eq]
      simp only [List.forall_mem_map]
    rw [hmembers, hmembers]
    simp only [h.members.mem_iff]
  rw [build_ok_iff_drafted, build_ok_iff_drafted, setting_of_reordered hnames h, hdrafts,
    h.methodNames.nodup_iff]

/-- The functions of a module have the names of its methods. -/
theorem functionNames_perm {image : Image} (h : build a o = .ok image) :
    (image.functions.map (·.function.name)).Perm a.methodNames := by
  rcases build_ok_drafted h with ⟨fs, hall, hnames, hwritten⟩
  have hdistinct : (image.functions.map (·.function.name)).Nodup := by
    rw [hwritten.functions]
    exact Numbering.nodup_eraseDups _
  refine (List.perm_ext_iff_of_nodup hdistinct hnames).2 fun name => ?_
  rw [← methodNames_of_drafted hall]
  constructor
  · intro hname
    rcases List.mem_map.1 hname with ⟨d, hd, rfl⟩
    rcases hwritten.origin hd with ⟨f, hf, hrealised⟩
    exact List.mem_map.2 ⟨f, hf, hrealised.name.symm⟩
  · intro hname
    rcases List.mem_map.1 hname with ⟨f, hf, rfl⟩
    rcases hwritten.entry hf with ⟨d, hd, hrealised⟩
    exact List.mem_map.2 ⟨d, hd, hrealised.name⟩

/-- Every function of a module is that of a draft. -/
theorem exists_draft {image : Image} (h : build a o = .ok image) {d : Definition}
    (hd : d ∈ image.functions) :
    ∃ p ∈ a.members, ∃ f, draftMethod (a.setting o) o p.1 p.2 = .ok f ∧
      f.Realised image.toNames d := by
  rcases build_ok_drafted h with ⟨fs, hall, -, hwritten⟩
  rcases hwritten.origin hd with ⟨f, hf, hrealised⟩
  rcases exists_of_forall₂_right hall hf with ⟨⟨t, m⟩, hmem, hdraft⟩
  exact ⟨(t.name, m), mem_members_iff.2 ⟨t, hmem, rfl⟩, f, hdraft, hrealised⟩

/-- Drafts of one name come from one method. -/
theorem draft_unique (hnames : a.methodNames.Nodup) {p p' : TypeName × MethodDef}
    (hp : p ∈ a.members) (hp' : p' ∈ a.members) {f f' : FunctionDraft}
    (hf : draftMethod (a.setting o) o p.1 p.2 = .ok f)
    (hf' : draftMethod (a.setting o) o p'.1 p'.2 = .ok f') (hname : f.name = f'.name) : f = f' := by
  have hfull := ((draftMethod_proper p.1 p.2).holds hf).1
  have hfull' := ((draftMethod_proper p'.1 p'.2).holds hf').1
  rw [methodNames_eq] at hnames
  have hsame : p = p' := by
    refine List.inj_on_of_nodup_map hnames hp hp' ?_
    rw [← hfull, ← hfull', hname]
  subst hsame
  rw [hf] at hf'
  cases hf'
  rfl

/-- The order in which types and methods are declared does not decide whether a module can be built.
If it can, then the functions are the same but for the numbers in their bodies: with the names of
functions, imports and globals in the place of their indices, the bodies are equal. -/
theorem build_reordered (hnames : (a.types.map (·.name.fullName)).Nodup) (h : a.Reordered a')
    (o : Options) :
    ((∃ image, build a o = .ok image) ↔ ∃ image, build a' o = .ok image) ∧
      ∀ image image', build a o = .ok image → build a' o = .ok image' →
        (image.functions.map (·.function.name)).Perm (image'.functions.map (·.function.name)) ∧
        ∀ d ∈ image.functions, ∀ d' ∈ image'.functions, d.function.name = d'.function.name →
          d.function.signature = d'.function.signature ∧ d.function.locals = d'.function.locals ∧
            d.function.exportName = d'.function.exportName ∧
            ∃ body, d.function.body.mapM image.toNames.name? = some body ∧
              d'.function.body.mapM image'.toNames.name? = some body := by
  refine ⟨build_ok_iff_of_reordered hnames h, ?_⟩
  intro image image' hbuild hbuild'
  refine ⟨?_, ?_⟩
  · exact (functionNames_perm hbuild).trans (h.methodNames.trans (functionNames_perm hbuild').symm)
  · intro d hd d' hd' hname
    rcases exists_draft hbuild hd with ⟨p, hp, f, hf, hrealised⟩
    rcases exists_draft hbuild' hd' with ⟨p', hp', f', hf', hrealised'⟩
    -- the draft behind `d'` is one of the first assembly, and it has the name of the one behind `d`
    rw [setting_of_reordered hnames h] at hf'
    have hdistinct := (build_ok_iff_drafted.1 ⟨image, hbuild⟩).2
    have hsame : f = f' := by
      refine draft_unique hdistinct hp (h.members.mem_iff.2 hp') hf hf' ?_
      rw [← hrealised.name, hname, hrealised'.name]
    subst hsame
    exact ⟨hrealised.signature.trans hrealised'.signature.symm,
      hrealised.locals.trans hrealised'.locals.symm,
      hrealised.exportName.trans hrealised'.exportName.symm, f.body, hrealised.body,
      hrealised'.body⟩

end Reordered

namespace Counting

/-- The counter and a type with a field. -/
def pair : Assembly := ⟨"Lib", [type, Cells.type]⟩

/-- The same types the other way round, with the methods of the counter in another order. -/
def turned : Assembly := ⟨"Lib", [Cells.type, { type with methods := [lower, count, constructor] }]⟩

theorem reordered_turned : pair.Reordered turned := by
  have hmethods : type.methods.Perm [lower, count, constructor] := by
    decide +kernel
  have htypes : pair.types.Forall₂ TypeDef.Reordered
      [{ type with methods := [lower, count, constructor] }, Cells.type] :=
    .cons ⟨hmethods, rfl⟩ (.cons ⟨.refl _, rfl⟩ .nil)
  exact ⟨rfl, _, htypes, .swap ..⟩

/-- Both orders can be built, and with names in the place of numbers the bodies are equal. -/
theorem turned_agrees :
    ∃ image image', build pair options = .ok image ∧ build turned options = .ok image' ∧
      ∀ d ∈ image.functions, ∀ d' ∈ image'.functions, d.function.name = d'.function.name →
        ∃ body, d.function.body.mapM image.toNames.name? = some body ∧
          d'.function.body.mapM image'.toNames.name? = some body := by
  have hnames : (pair.types.map (·.name.fullName)).Nodup := by
    decide +kernel
  have hpair : (build pair options).toOption.isSome := by
    decide +kernel
  rcases build_reordered hnames reordered_turned options with ⟨hiff, hagree⟩
  cases hbuild : build pair options with
  | error failure =>
      rw [hbuild] at hpair
      cases hpair
  | ok image =>
      rcases hiff.1 ⟨image, hbuild⟩ with ⟨image', hbuild'⟩
      refine ⟨image, image', rfl, hbuild', ?_⟩
      intro d hd d' hd' hname
      exact ((hagree image image' hbuild hbuild').2 d hd d' hd' hname).2.2.2

end Counting

end CilCompiler
