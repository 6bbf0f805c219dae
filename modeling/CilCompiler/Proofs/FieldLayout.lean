import CilCompiler.Proofs.Overflow

/-!
# Field layout

Where the fields of an object lie, said about the declarations alone. A field lies at its declared
offset behind the header, or else behind the instance fields that are declared before it, each of
which takes one word.

* `Assembly.LaysOut` says that a reference means a field with a place, and `FieldDef.placeBehind` is
  that place.
* `fieldOffset_eq_place_iff` says that the offset of a field is its place.
* `LaysOut.apart` says that fields without declared offsets never overlap.
* `fieldOffset_of_staticsEdited` says that static fields have no influence on the offsets of others.
* `fieldOffset_lays_out` joins them.
-/

namespace CilCompiler

/-! ## Places -/

/-- The reference `r` means the field `f` of the type `t`, which is declared behind the fields
`before`, and the field can be laid out. -/
structure Assembly.LaysOut (a : Assembly) (r : FieldRef) (t : TypeDef) (before : List FieldDef)
    (f : FieldDef) : Prop where
  isLocal : r.declaring.isLocal a.name
  declared : a.types.find? (·.name.fullName == r.declaring.fullName) = some t
  fields : ∃ behind, t.fields = before ++ f :: behind
  /-- It is the first field of its name. -/
  first : f.name = r.name ∧ ∀ g ∈ before, g.name ≠ r.name
  isInstance : f.isStatic = false
  word : f.type.isWord
  earlier : f.offset = none → ∀ g ∈ before, g.isStatic = false → g.type.isWord

/-- The place of a field that is declared behind `before`. -/
def FieldDef.placeBehind (headerSize : UInt32) (before : List FieldDef) (f : FieldDef) : Nat :=
  headerSize.toNat +
    match f.offset with
    | some offset => offset.toNat
    | none => fieldSize * (before.filter (!·.isStatic)).length

section Places

variable {a a' : Assembly} {headerSize n n' : UInt32} {r r' : FieldRef} {t t' : TypeDef}
  {before before' : List FieldDef} {f f' : FieldDef}

theorem findType_eq_some {name : TypeName} :
    a.findType name = some t ↔
      name.isLocal a.name ∧ a.types.find? (·.name.fullName == name.fullName) = some t := by
  unfold Assembly.findType
  by_cases hlocal : name.isLocal a.name <;> simp [hlocal]

/-- The first field of a name parts the fields in two. -/
theorem fieldsBefore_eq {name : String} {behind : List FieldDef}
    (hfields : t.fields = before ++ f :: behind) (hname : f.name = name)
    (hbefore : ∀ g ∈ before, g.name ≠ name) : t.fieldsBefore name = before := by
  have hall : ∀ g ∈ before, (g.name != name) = true := by simpa using hbefore
  rw [TypeDef.fieldsBefore, hfields, List.takeWhile_append_of_pos hall]
  simp [hname]

theorem findField_eq_some_iff {name : String} :
    t.findField name = some f ↔
      ∃ before behind, t.fields = before ++ f :: behind ∧ f.name = name ∧
        ∀ g ∈ before, g.name ≠ name := by
  unfold TypeDef.findField
  rw [List.find?_eq_some_iff_append]
  simp only [beq_iff_eq, Bool.not_eq_true', beq_eq_false_iff_ne]
  constructor
  · rintro ⟨hname, before, behind, hfields, hbefore⟩
    exact ⟨before, behind, hfields, hname, hbefore⟩
  · rintro ⟨before, behind, hfields, hname, hbefore⟩
    exact ⟨hname, before, behind, hfields, hbefore⟩

section Found

variable (h : a.LaysOut r t before f)
include h

theorem Assembly.LaysOut.findType : a.findType r.declaring = some t :=
  findType_eq_some.2 ⟨h.isLocal, h.declared⟩

theorem Assembly.LaysOut.findField : t.findField r.name = some f := by
  rcases h.fields with ⟨behind, hfields⟩
  exact findField_eq_some_iff.2 ⟨before, behind, hfields, h.first⟩

theorem Assembly.LaysOut.fieldsBefore : t.fieldsBefore r.name = before := by
  rcases h.fields with ⟨behind, hfields⟩
  exact fieldsBefore_eq hfields h.first.1 h.first.2

theorem Assembly.LaysOut.place_eq : t.place headerSize f = f.placeBehind headerSize before := by
  have hsplit := h.fieldsBefore
  rw [← h.first.1] at hsplit
  unfold TypeDef.place FieldDef.placeBehind
  rw [hsplit]
  cases f.offset <;> rfl

end Found

/-- The offset of a field is the place of the field that the reference means. -/
theorem fieldOffset_eq_place_iff :
    fieldOffset a headerSize r = .ok n ↔
      ∃ t before f, a.LaysOut r t before f ∧ n.toNat = f.placeBehind headerSize before := by
  rw [fieldOffset_eq_ok_iff]
  constructor
  · rintro ⟨t, f, htype, hfield, hstatic, hword, hearlier, hn⟩
    rcases findType_eq_some.1 htype with ⟨hlocal, hdeclared⟩
    rcases findField_eq_some_iff.1 hfield with ⟨before, behind, hfields, hname, hbefore⟩
    rw [fieldsBefore_eq hfields hname hbefore] at hearlier
    have hf : a.LaysOut r t before f :=
      ⟨hlocal, hdeclared, ⟨behind, hfields⟩, ⟨hname, hbefore⟩, hstatic, hword, hearlier⟩
    exact ⟨t, before, f, hf, hn.trans hf.place_eq⟩
  · rintro ⟨t, before, f, h, hn⟩
    refine ⟨t, f, h.findType, h.findField, h.isInstance, h.word, ?_, hn.trans h.place_eq.symm⟩
    rw [h.fieldsBefore]
    exact h.earlier

/-- A reference means one field at most. -/
theorem Assembly.LaysOut.unique (h : a.LaysOut r t before f) (h' : a.LaysOut r t' before' f') :
    t' = t ∧ before' = before ∧ f' = f := by
  cases h.findType.symm.trans h'.findType
  cases h.findField.symm.trans h'.findField
  exact ⟨rfl, h'.fieldsBefore.symm.trans h.fieldsBefore, rfl⟩

theorem Assembly.LaysOut.toNat_eq_place (h : a.LaysOut r t before f)
    (hn : fieldOffset a headerSize r = .ok n) : n.toNat = f.placeBehind headerSize before := by
  rcases fieldOffset_eq_place_iff.1 hn with ⟨t', before', f', h', hplace⟩
  rcases h.unique h' with ⟨rfl, rfl, rfl⟩
  exact hplace

/-- If all fields before it hold words, the search for the offset of a field reaches its place. -/
theorem Assembly.LaysOut.extent_eq (h : a.LaysOut r t before f) :
    t.extent headerSize f = f.placeBehind headerSize before := by
  have hsplit := h.fieldsBefore
  rw [← h.first.1] at hsplit
  rw [extent_eq_place (hsplit ▸ h.earlier), h.place_eq]

/-- Unless the sum overflows, every field that can be laid out has an offset. -/
theorem fieldOffset_ok_iff_laysOut (h : ¬ a.Overflows headerSize r) :
    (∃ n, fieldOffset a headerSize r = .ok n) ↔ ∃ t before f, a.LaysOut r t before f := by
  constructor
  · rintro ⟨n, hn⟩
    rcases fieldOffset_eq_place_iff.1 hn with ⟨t, before, f, hf, -⟩
    exact ⟨t, before, f, hf⟩
  · rintro ⟨t, before, f, hf⟩
    -- the search reaches the place of the field, which would be an overflow beyond the bound
    have hlt : f.placeBehind headerSize before < UInt32.size := by
      rw [← hf.extent_eq]
      refine Nat.lt_of_not_le fun hle => h ?_
      exact ⟨t, f, hf.findType, hf.findField, hf.isInstance, hf.word, hle⟩
    exact ⟨_, fieldOffset_eq_place_iff.2 ⟨t, before, f, hf, UInt32.toNat_ofNat_of_lt' hlt⟩⟩

/-! ## Fields without declared offsets -/

/-- Of two fields without declared offsets, the later one starts where the earlier one ends, or
behind it. -/
theorem placeBehind_of_earlier {between : List FieldDef} (hf : f.offset = none)
    (hf' : f'.offset = none) (hstatic : f.isStatic = false) :
    f.placeBehind headerSize before + fieldSize ≤
      f'.placeBehind headerSize (before ++ f :: between) := by
  have hlength : ((before ++ f :: between).filter (!·.isStatic)).length =
      (before.filter (!·.isStatic)).length + 1 + (between.filter (!·.isStatic)).length := by
    simp [hstatic]
    omega
  unfold FieldDef.placeBehind
  rw [hf, hf', hlength]
  simp only [fieldSize]
  omega

/-- Two fields of one type without declared offsets do not overlap. -/
theorem Assembly.LaysOut.apart (h : a.LaysOut r t before f) (h' : a.LaysOut r' t before' f')
    (hne : r.name ≠ r'.name) (hf : f.offset = none) (hf' : f'.offset = none) :
    f.placeBehind headerSize before + fieldSize ≤ f'.placeBehind headerSize before' ∨
      f'.placeBehind headerSize before' + fieldSize ≤ f.placeBehind headerSize before := by
  rcases h.fields with ⟨behind, hfields⟩
  rcases h'.fields with ⟨behind', hfields'⟩
  have hsplit : before ++ f :: behind = before' ++ f' :: behind' := hfields.symm.trans hfields'
  -- one of the two is declared before the other, since they are not one field
  rcases List.append_eq_append_iff.1 hsplit with ⟨mid, hmid, hrest⟩ | ⟨mid, hmid, hrest⟩
  · cases mid with
    | nil =>
        cases hrest
        exact absurd (h.first.1.symm.trans h'.first.1) hne
    | cons g between =>
        cases hrest
        rw [hmid]
        exact .inl (placeBehind_of_earlier hf hf' h.isInstance)
  · cases mid with
    | nil =>
        cases hrest
        exact absurd (h.first.1.symm.trans h'.first.1) hne
    | cons g between =>
        cases hrest
        rw [hmid]
        exact .inr (placeBehind_of_earlier hf' hf h'.isInstance)

end Places

/-! ## Static fields -/

/-- Whether the search for the offset of the field `name` heeds `f`: it counts the instance fields,
and stops at a field of that name. -/
def FieldDef.isHeeded (name : String) (f : FieldDef) : Bool :=
  !f.isStatic || f.name == name

/-- The type with static fields of other names than `field` added, removed or moved. -/
structure TypeDef.StaticsEdited (field : String) (t t' : TypeDef) : Prop where
  name : t'.name = t.name
  fields : t'.fields.filter (·.isHeeded field) = t.fields.filter (·.isHeeded field)

/-- The assembly with static fields of other names than `field` added, removed or moved in any of
its types. -/
structure Assembly.StaticsEdited (field : String) (a a' : Assembly) : Prop where
  name : a'.name = a.name
  types : a.types.Forall₂ (TypeDef.StaticsEdited field) a'.types

section Statics

variable {a a' : Assembly} {t t' : TypeDef} {r : FieldRef} {field : String}

theorem find?_filter_isHeeded (fs : List FieldDef) :
    (fs.filter (·.isHeeded field)).find? (·.name == field) = fs.find? (·.name == field) := by
  rw [List.find?_filter]
  congr 1
  funext f
  by_cases hname : f.name = field <;> simp [FieldDef.isHeeded, hname]

/-- The fields before a name take the same room without the static fields among them. -/
theorem offsetBehind_filter_isHeeded (offset : UInt32) (fs : List FieldDef) :
    offsetBehind r offset ((fs.filter (·.isHeeded r.name)).takeWhile (·.name != r.name)) =
      offsetBehind r offset (fs.takeWhile (·.name != r.name)) := by
  induction fs generalizing offset with
  | nil =>
      rfl
  | cons f fs ih =>
      by_cases hname : f.name = r.name
      · -- the search stops here, whatever the field is
        simp [FieldDef.isHeeded, hname]
      · cases hstatic : f.isStatic with
        | true =>
            -- the filter drops the field, and the sum leaves it out
            simpa [FieldDef.isHeeded, hname, hstatic, offsetBehind] using ih offset
        | false =>
            simp only [FieldDef.isHeeded, hstatic, hname, Bool.not_false, Bool.true_or,
              List.filter_cons_of_pos, bne_iff_ne, ne_eq, not_false_eq_true,
              List.takeWhile_cons_of_pos, offsetBehind]
            cases valueKind f.type with
            | error e =>
                rfl
            | ok kind =>
                cases boundedOffset r (offset.toNat + fieldSize) with
                | error e =>
                    rfl
                | ok next =>
                    exact ih next

theorem find?_of_staticsEdited {types types' : List TypeDef} {fullName : String}
    (h : types.Forall₂ (TypeDef.StaticsEdited field) types') :
    Option.Rel (TypeDef.StaticsEdited field) (types.find? (·.name.fullName == fullName))
      (types'.find? (·.name.fullName == fullName)) := by
  induction h with
  | nil =>
      exact .none
  | @cons t t' types types' ht _ ih =>
      rw [List.find?_cons, List.find?_cons, ht.name]
      cases t.name.fullName == fullName with
      | true =>
          exact .some ht
      | false =>
          exact ih

theorem findType_of_staticsEdited (h : a.StaticsEdited field a') (name : TypeName) :
    Option.Rel (TypeDef.StaticsEdited field) (a.findType name) (a'.findType name) := by
  unfold Assembly.findType
  rw [h.name]
  by_cases hlocal : name.isLocal a.name
  · rw [if_pos hlocal, if_pos hlocal]
    exact find?_of_staticsEdited h.types
  · rw [if_neg hlocal, if_neg hlocal]
    exact .none

theorem TypeDef.StaticsEdited.findField (h : t.StaticsEdited field t') :
    t'.findField field = t.findField field :=
  calc t'.findField field
      = (t'.fields.filter (·.isHeeded field)).find? (·.name == field) :=
        (find?_filter_isHeeded _).symm
    _ = (t.fields.filter (·.isHeeded field)).find? (·.name == field) := by rw [h.fields]
    _ = t.findField field := find?_filter_isHeeded _

theorem TypeDef.StaticsEdited.offsetBehind (h : t.StaticsEdited r.name t') (offset : UInt32) :
    offsetBehind r offset (t'.fieldsBefore r.name) =
      offsetBehind r offset (t.fieldsBefore r.name) := by
  unfold TypeDef.fieldsBefore
  rw [← offsetBehind_filter_isHeeded offset t'.fields, h.fields, offsetBehind_filter_isHeeded]

/-- Static fields have no influence on the offset of another field, nor on the error if it has
none. -/
theorem fieldOffset_of_staticsEdited (h : a.StaticsEdited r.name a') (headerSize : UInt32) :
    fieldOffset a' headerSize r = fieldOffset a headerSize r := by
  -- the reference finds a type in both assemblies, or in neither
  have hfind := findType_of_staticsEdited h r.declaring
  unfold fieldOffset
  revert hfind
  generalize a.findType r.declaring = found
  generalize a'.findType r.declaring = found'
  intro hfind
  cases hfind with
  | none =>
      rfl
  | @some t t' ht =>
      have hbehind := ht.offsetBehind headerSize
      unfold TypeDef.fieldsBefore at hbehind
      simp only [ht.findField, hbehind]

end Statics

/-! ## The layout -/

/-- A field has an offset exactly if it can be laid out, unless the sum overflows, and the offset is
its place. Fields of a type without declared offsets lie behind the header and apart from each
other, and static fields move no other field. -/
theorem fieldOffset_lays_out (a : Assembly) (headerSize : UInt32) :
    (∀ r, ¬ a.Overflows headerSize r →
      ((∃ n, fieldOffset a headerSize r = .ok n) ↔ ∃ t before f, a.LaysOut r t before f)) ∧
    (∀ r t before f n, a.LaysOut r t before f → fieldOffset a headerSize r = .ok n →
      n.toNat = f.placeBehind headerSize before) ∧
    (∀ r r' t before before' f f' n n', r.name ≠ r'.name →
      a.LaysOut r t before f → f.offset = none → fieldOffset a headerSize r = .ok n →
      a.LaysOut r' t before' f' → f'.offset = none → fieldOffset a headerSize r' = .ok n' →
      headerSize.toNat ≤ n.toNat ∧
        (n.toNat + fieldSize ≤ n'.toNat ∨ n'.toNat + fieldSize ≤ n.toNat)) ∧
    (∀ r a', a.StaticsEdited r.name a' →
      fieldOffset a' headerSize r = fieldOffset a headerSize r) := by
  refine ⟨fun r => fieldOffset_ok_iff_laysOut, fun r t before f n h => h.toNat_eq_place, ?_,
    fun r a' h => fieldOffset_of_staticsEdited h headerSize⟩
  intro r r' t before before' f f' n n' hne h hoffset hn h' hoffset' hn'
  rw [h.toNat_eq_place hn, h'.toNat_eq_place hn']
  exact ⟨Nat.le_add_right _ _, h.apart h' hne hoffset hoffset'⟩

/-! ## A type with fields of all sorts -/

namespace Reading

def meter : TypeName := ⟨none, "Lib", "Meter"⟩

def count : FieldDef := { name := "count", type := .int32, isStatic := true }

def low : FieldDef := { name := "low", type := .int32 }

def flag : FieldDef := { name := "flag", type := .boolean, offset := some 32 }

/-- A static field of a type that no instance field can have. -/
def unit : FieldDef := { name := "unit", type := .string, isStatic := true }

def high : FieldDef := { name := "high", type := .int32 }

def declared (fields : List FieldDef) : TypeDef :=
  { name := meter, fields }

def assembly (fields : List FieldDef) : Assembly :=
  ⟨"Lib", [declared fields]⟩

def ref (name : String) : FieldRef :=
  ⟨meter, name, .int32⟩

theorem laysOut_low :
    (assembly [count, low, unit, flag, high]).LaysOut (ref "low")
      (declared [count, low, unit, flag, high]) [count] low :=
  ⟨by decide, by decide, ⟨[unit, flag, high], rfl⟩, by decide, rfl, rfl, by decide⟩

theorem laysOut_high :
    (assembly [count, low, unit, flag, high]).LaysOut (ref "high")
      (declared [count, low, unit, flag, high]) [count, low, unit, flag] high :=
  ⟨by decide, by decide, ⟨[], rfl⟩, by decide, rfl, rfl, by decide⟩

/-- The field `high` lies two words behind the header, apart from `low`, and stays there if one of
the static fields is removed and the other one moved to the front. -/
theorem low_apart_from_high :
    ∃ m n, fieldOffset (assembly [count, low, unit, flag, high]) 8 (ref "low") = .ok m ∧
      fieldOffset (assembly [count, low, unit, flag, high]) 8 (ref "high") = .ok n ∧
      n.toNat = 16 ∧ (m.toNat + fieldSize ≤ n.toNat ∨ n.toNat + fieldSize ≤ m.toNat) ∧
      fieldOffset (assembly [unit, low, flag, high]) 8 (ref "high") = .ok n := by
  rcases fieldOffset_lays_out (assembly [count, low, unit, flag, high]) 8 with
    ⟨hexists, hplace, happart, hstatics⟩
  have hfit : (assembly [count, low, unit, flag, high]).FieldsFit 8 := by decide
  rcases (hexists _ (not_overflows_of_fieldsFit hfit)).2 ⟨_, _, _, laysOut_low⟩ with ⟨m, hm⟩
  rcases (hexists _ (not_overflows_of_fieldsFit hfit)).2 ⟨_, _, _, laysOut_high⟩ with ⟨n, hn⟩
  have hedited : (assembly [count, low, unit, flag, high]).StaticsEdited "high"
      (assembly [unit, low, flag, high]) :=
    ⟨rfl, .cons ⟨rfl, by decide⟩ .nil⟩
  refine ⟨m, n, hm, hn, hplace _ _ _ _ _ laysOut_high hn, ?_, (hstatics _ _ hedited).trans hn⟩
  exact (happart _ _ _ _ _ _ _ _ _ (by decide) laysOut_low rfl hm laysOut_high rfl hn).2

end Reading

end CilCompiler
