import CilCompiler.Proofs.Reading

/-!
# Printed listings read back

Every printable assembly comes back from its listing.

* `reads_operand` and `reads_instruction` read printed code, `reads_body` a whole body.
* `reads_fieldDef`, `reads_methodDef` and `reads_typeDef` read printed declarations.
* `parse_print` puts the scanner and the readers together.
-/

namespace CilCompiler

namespace Listing

variable {β : Type}

/-! ## Operands -/

theorem reads_int32 (value : Int32) : Reads int32 [.int value.toInt64] value Anything := by
  have hlow := Int32.le_toInt value
  have hhigh := Int32.toInt_lt value
  have hbound : -0x80000000 ≤ value.toInt64.toInt ∧ value.toInt64.toInt < 0x100000000 := by
    rw [Int32.toInt_toInt64]
    omega
  unfold int32
  refine (reads_expectInt _).cons ?_
  rw [if_pos hbound, Int32.toInt_toInt64, Int32.ofInt_toInt]
  exact Reads.pure

theorem toInt_ofNat {n : Nat} (h : n < 0x100000000) : (Int64.ofNat n).toInt = n := by
  rw [Int64.toInt_ofNat_of_lt]
  omega

theorem reads_slotIndex (slots : SlotClass) (names : List (Option String)) (index : UInt16) :
    Reads (slotIndex slots names) [.int (Int64.ofNat index.toNat)] index Anything := by
  have hindex := index.toNat_lt
  have hvalue : (Int64.ofNat index.toNat).toInt = index.toNat := toInt_ofNat (by omega)
  have hbound : 0 ≤ (Int64.ofNat index.toNat).toInt ∧
      (Int64.ofNat index.toNat).toInt < 0x10000 := by
    omega
  unfold slotIndex
  refine (reads_take (.int _) nofun).cons ?_
  simp only [if_pos hbound]
  rw [hvalue, Int.toNat_natCast, Nat.toUInt16_eq, UInt16.ofNat_toNat]
  exact Reads.pure

theorem reads_string (text : String) : Reads string [.string text] text Anything := by
  unfold string
  exact (reads_take (.string text) nofun).cons Reads.pure

theorem reads_labels (offsets : List UInt32) :
    Reads (inParens label) (tokens (parens (offsets.map fun offset => [.label offset]))) offsets
      Anything := by
  refine reads_list ?_ fun offset _ => ⟨_, _, rfl⟩
  intro offset _
  exact (reads_label offset).of_anything

/-- Every operand but floats and unread ones is read back by its shape. -/
theorem reads_operand (scope : Scope) (line : Nat) {o : Operand} (h : o.Printable)
    (hkind : o.kind ∉ [.float, .raw]) :
    Reads (operand scope line o.kind) (tokens o.pieces) o NoBrackets := by
  cases o with
  | empty => exact Reads.pure
  | int32 value => exact (reads_int32 value).of_anything.map
  | int64 value => exact (reads_expectInt value).of_anything.map
  | string text => exact (reads_string text).of_anything.map
  | arg index => exact (reads_slotIndex _ _ index).of_anything.map
  | loc index => exact (reads_slotIndex _ _ index).of_anything.map
  | target offset => exact (reads_label offset).of_anything.map
  | targets offsets => exact (reads_labels offsets).of_anything.map
  | method ref => exact (reads_methodRef h).of_anything.map
  | field ref => exact (reads_fieldRef h).of_anything.map
  | type sig => exact (reads_typeSig h).map
  | float value => exact absurd (.head _) hkind
  | raw text => exact absurd (.tail _ (.head _)) hkind

/-! ## Instructions -/

theorem ofMnemonic?_mnemonic (op : Opcode) : Opcode.ofMnemonic? op.mnemonic = some op := by
  have hall : ∀ op ∈ Opcode.all, Opcode.ofMnemonic? op.mnemonic = some op := by
    decide +kernel
  exact hall op op.mem_all

theorem reads_instruction (scope : Scope) {i : Instruction} (h : i.Printable) :
    Reads (instruction scope i.offset) (.ident i.opcode.mnemonic :: tokens i.operand.pieces) i
      NoBrackets := by
  obtain ⟨hkind, hread, hprint⟩ := h
  unfold instruction
  refine Reads.line fun line => ?_
  refine (reads_expectName _).cons ?_
  rw [ofMnemonic?_mnemonic]
  have hoperand := reads_operand scope line hprint (hkind ▸ hread)
  rw [hkind] at hoperand
  exact hoperand.map

/-! ## Bodies -/

theorem reads_optionalName_none : Reads optionalName [] none EndsItem := by
  have hpunct : ∀ c, Reads optionalName [] none (StartsWith (.punct c)) := by
    intro c
    unfold optionalName
    refine Reads.peek_next ?_ fun _ hrest => hrest
    exact Reads.pure
  exact (hpunct ',').or (hpunct ')')

theorem reads_localVariable {s : TypeSig} (h : s.Printable) :
    Reads localVariable (tokens s.pieces) (s, none) EndsItem := by
  unfold localVariable
  refine (reads_acceptPunct_other '[').none ?_ fun rest _ => head?_typeSig_ne_punct s rest
  refine (reads_typeSig h).last ?_ fun _ => noBrackets_of_endsItem
  exact reads_optionalName_none.map

theorem reads_exceptionRegion (r : ExceptionRegion) :
    Reads exceptionRegion (tokens r.pieces.tail) r Anything := by
  unfold exceptionRegion
  refine (reads_label r.tryStart).cons ?_
  refine (reads_expectWord "to").cons ?_
  refine (reads_label r.tryEnd).cons ?_
  refine (reads_acceptWord_other "finally").none ?_ fun _ _ => by simp
  refine (reads_acceptWord_other "fault").none ?_ fun _ _ => by simp
  refine (reads_acceptWord "handler").cons ?_
  refine (reads_label r.handlerStart).cons ?_
  refine (reads_expectWord "to").cons ?_
  exact (reads_label r.handlerEnd).map

theorem reads_bodyItem_locals (args : List (Option String)) (b : PartialBody) {sigs : List TypeSig}
    (h : ∀ s ∈ sigs, s.Printable) :
    Reads (bodyItem args b)
      (.ident ".locals" :: .ident "init" :: tokens (parens (sigs.map TypeSig.pieces)))
      (.more { b with locals := b.locals ++ sigs.map fun s => (s, none) }) Anything := by
  unfold bodyItem
  refine Reads.peek ?_
  refine (reads_take (.ident ".locals") nofun).cons ?_
  refine (reads_acceptWord "init").cons ?_
  have hitem : ∀ s ∈ sigs, Reads localVariable (tokens s.pieces) (s, none) EndsItem := by
    intro s hs
    exact reads_localVariable (h s hs)
  exact (reads_inParens hitem fun s _ => startsWithWord_typeSig s).map

theorem reads_bodyItem_region (args : List (Option String)) (b : PartialBody)
    (r : ExceptionRegion) :
    Reads (bodyItem args b) (tokens r.pieces) (.more { b with regions := r :: b.regions })
      Anything := by
  unfold bodyItem
  refine Reads.peek ?_
  refine (reads_take (.ident ".try") nofun).cons ?_
  exact (reads_exceptionRegion r).map

theorem reads_bodyItem_close (args : List (Option String)) (b : PartialBody) :
    Reads (bodyItem args b) [.punct '\x7d'] (.done b.finish) Anything := by
  unfold bodyItem
  refine Reads.peek ?_
  exact (reads_take (.punct '\x7d') nofun).cons Reads.pure

theorem label_ne (offset : UInt32) {word : String} (h : word.toList.head? ≠ some 'I') :
    Text.label offset ≠ word := by
  rintro rfl
  rw [label_toList] at h
  exact h rfl

theorem hasLabelMark_label (offset : UInt32) : Text.hasLabelMark (Text.label offset) = true := by
  unfold Text.hasLabelMark
  rw [label_toList]
  rfl

theorem reads_bodyItem_instruction (args : List (Option String)) (b : PartialBody)
    {i : Instruction} (h : i.Printable) :
    Reads (bodyItem args b) (tokens i.pieces) (.more { b with instructions := i :: b.instructions })
      NoBrackets := by
  unfold bodyItem
  refine Reads.peek ?_
  -- A label is none of the directives.
  dsimp only
  rw [if_neg (label_ne _ (by decide)), if_neg (label_ne _ (by decide)),
    if_neg (label_ne _ (by decide)), if_neg (label_ne _ (by decide)),
    if_pos (hasLabelMark_label _)]
  refine (reads_label i.offset).cons ?_
  refine (reads_expectPunct ':').cons ?_
  exact (reads_instruction _ h).map

theorem loops_instructions (args : List (Option String)) (locals : List (TypeSig × Option String))
    (regions : List ExceptionRegion) {is : List Instruction} (h : ∀ i ∈ is, i.Printable) :
    Loops (bodyItem args) ⟨locals, [], regions⟩
      (tokens (is.flatMap Instruction.pieces) ++ [.punct '\x7d'])
      (PartialBody.finish ⟨locals, is.reverse, regions⟩) Anything := by
  have hitem : ∀ seen, ∀ i ∈ is, Reads (bodyItem args ⟨locals, List.reverse seen, regions⟩)
      (tokens i.pieces) (.more ⟨locals, (seen ++ [i]).reverse, regions⟩) NoBrackets := by
    intro seen i hi
    rw [List.reverse_append]
    exact reads_bodyItem_instruction args ⟨locals, seen.reverse, regions⟩ (h i hi)
  refine Loops.items (fun seen => PartialBody.mk locals seen.reverse regions) [] hitem ?_ ?_ ?_
  · intro i _
    exact ⟨_, _, rfl, fun _ => noBrackets_of_startsWith rfl nofun⟩
  · exact Loops.done (reads_bodyItem_close args _)
  · intro rest _
    exact noBrackets_of_startsWith rfl nofun

theorem loops_regions (args : List (Option String)) (locals : List (TypeSig × Option String))
    (rs : List ExceptionRegion) {us : List Token} {b : MethodBody}
    (h : Loops (bodyItem args) ⟨locals, [], rs.reverse⟩ us b Anything) :
    Loops (bodyItem args) ⟨locals, [], []⟩ (tokens (rs.flatMap ExceptionRegion.pieces) ++ us) b
      Anything := by
  have hitem : ∀ seen, ∀ r ∈ rs, Reads (bodyItem args ⟨locals, [], List.reverse seen⟩)
      (tokens r.pieces) (.more ⟨locals, [], (seen ++ [r]).reverse⟩) Anything := by
    intro seen r _
    rw [List.reverse_append]
    exact reads_bodyItem_region args ⟨locals, [], seen.reverse⟩ r
  refine Loops.items (fun seen => PartialBody.mk locals [] seen.reverse) [] hitem ?_ h
    fun _ _ => trivial
  intro r _
  exact ⟨_, _, rfl, fun _ => trivial⟩

theorem reads_body (args : List (Option String)) {b : MethodBody} (h : b.Printable) :
    Reads (body args) (tokens b.pieces) b Anything := by
  obtain ⟨hlocals, hinstructions⟩ := h
  have htokens : tokens b.pieces = .punct '\x7b' ::
      ((.ident ".locals" :: .ident "init" :: tokens (parens (b.locals.map TypeSig.pieces))) ++
        (tokens (b.regions.flatMap ExceptionRegion.pieces) ++
          (tokens (b.instructions.flatMap Instruction.pieces) ++ [.punct '\x7d']))) := by
    simp [MethodBody.pieces]
  have hfinish : PartialBody.finish ⟨b.locals.map fun s => (s, none), b.instructions.reverse,
      b.regions.reverse⟩ = b := by
    simp [PartialBody.finish, Function.comp_def]
  have hcode := loops_instructions args (b.locals.map fun s => (s, none)) b.regions.reverse
    hinstructions
  rw [hfinish] at hcode
  rw [htokens]
  unfold body
  refine (reads_expectPunct '\x7b').cons (Loops.reads ?_)
  refine Loops.more (reads_bodyItem_locals args {} hlocals) (List.cons_ne_nil _ _) ?_ fun _ _ => trivial
  exact loops_regions args _ b.regions hcode

/-! ## Members -/

/-- What follows is none of these words. -/
def NotAmong (words : List String) (rest : List Token) : Prop :=
  ∀ word ∈ words, rest.head? ≠ some (.ident word)

theorem takeWords_of_notAmong {words : List String} {rest : List Located}
    (h : NotAmong words (rest.map (·.token))) : takeWords words rest = ([], rest) := by
  unfold takeWords
  split
  · rfl
  · next t rest =>
    split
    · next word hword =>
      have hnot : word ∉ words := fun hmem => h word hmem (congrArg some hword)
      rw [if_neg hnot]
    · rfl

theorem reads_attributes {words ws : List String} (h : ∀ word ∈ ws, word ∈ words) :
    Reads (attributes words) (tokens (ws.map .word)) ws (NotAmong words) := by
  intro front rest hfront hrest
  change Except.ok (takeWords words (front ++ rest)) = _
  induction ws generalizing front with
  | nil =>
    cases List.map_eq_nil_iff.1 hfront
    rw [List.nil_append, takeWords_of_notAmong hrest]
  | cons word ws ih =>
    obtain ⟨t, front, rfl, ht, hfront⟩ := List.map_eq_cons_iff.1 hfront
    have ih := ih (fun w hw => h w (.tail _ hw)) front hfront
    have hword : word ∈ words := h word (.head _)
    rw [Except.ok.injEq] at ih ⊢
    simp [takeWords, ht, hword, ih]

/-- The word before a type is not taken for an attribute. -/
theorem notAmong_typeSig {words : List String} (h : ∀ word ∈ words, word ∉ typeWords) (s : TypeSig)
    (rest : List Token) : NotAmong words (tokens s.pieces ++ rest) := by
  intro word hword
  exact typeSig_not_startsWith (h word hword) s rest

theorem notAmong_of_startsWith {words : List String} {t : Token} {rest : List Token}
    (h : StartsWith t rest) (ht : ∀ word ∈ words, t ≠ .ident word) : NotAmong words rest := by
  intro word hword hhead
  exact ht word hword (Option.some.inj (h.symm.trans hhead))

theorem reads_fieldOffset (offset : UInt32) :
    Reads fieldOffset [.int (Int64.ofNat offset.toNat), .punct ']'] offset Anything := by
  have hoffset := offset.toNat_lt
  have hvalue : (Int64.ofNat offset.toNat).toInt = offset.toNat := toInt_ofNat hoffset
  have hbound : 0 ≤ (Int64.ofNat offset.toNat).toInt ∧
      (Int64.ofNat offset.toNat).toInt < 0x100000000 := by
    omega
  unfold fieldOffset
  refine (reads_expectInt _).cons ?_
  rw [if_pos hbound, hvalue, Int.toNat_natCast, Nat.toUInt32_eq, UInt32.ofNat_toNat]
  exact (reads_expectPunct ']').cons Reads.pure

theorem mem_chosen {flags : List (Bool × String)} {word : String} :
    word ∈ chosen flags ↔ (true, word) ∈ flags := by
  simp [chosen]

theorem reads_noAttributes (words : List String) :
    Reads (attributes words) [] [] (NotAmong words) := by
  have hnone : ∀ word ∈ ([] : List String), word ∈ words := nofun
  exact reads_attributes hnone

theorem reads_fieldDef {f : FieldDef} (h : f.Printable) :
    Reads fieldDef (tokens f.pieces.tail) f Anything := by
  obtain ⟨-, htype⟩ := h
  have hwords : ∀ word ∈ chosen [(f.isStatic, "static")], word ∈ fieldWords := by
    cases f.isStatic <;> decide
  have hnot : ∀ word ∈ fieldWords, word ∉ typeWords := by decide
  -- The type and the name, with the words that have been seen before them.
  have hrest : Reads (do
      let type ← typeSig
      let name ← expectName
      return { name, type, isStatic := "static" ∈ chosen [(f.isStatic, "static")] ++ [],
               offset := f.offset : FieldDef })
      (tokens f.type.pieces ++ [.ident f.name]) f Anything := by
    refine (reads_typeSig htype).bind ?_ fun _ _ => noBrackets_of_startsWith rfl nofun
    refine (reads_expectName f.name).map.result ?_
    simp [mem_chosen]
  unfold fieldDef FieldDef.pieces
  rw [List.tail_cons, tokens_append, tokens_append, tokens_append, List.append_assoc,
    List.append_assoc]
  refine (reads_attributes hwords).bind ?_ ?_
  · cases hoffset : f.offset with
    | none =>
      rw [hoffset] at hrest
      refine (reads_acceptPunct_other '[').none (Reads.pure_bind hrest) fun rest _ => ?_
      rw [List.append_assoc, List.append_assoc]
      exact head?_typeSig_ne_punct _ _
    | some offset =>
      rw [hoffset] at hrest
      refine (reads_acceptPunct '[').cons ?_
      refine (reads_fieldOffset offset).bind ?_ fun _ _ => trivial
      refine (reads_noAttributes fieldWords).none (Reads.pure_bind hrest) fun rest _ => ?_
      rw [List.append_assoc]
      exact notAmong_typeSig hnot _ _
  · -- The attributes end at the offset or at the type.
    intro rest _
    cases hoffset : f.offset with
    | none =>
      rw [List.append_assoc, List.append_assoc]
      exact notAmong_typeSig hnot _ _
    | some offset => exact notAmong_of_startsWith rfl nofun

theorem reads_param {p : Param} (h : p.Printable) :
    Reads param (tokens p.pieces) p EndsItem := by
  obtain ⟨name, type⟩ := p
  obtain ⟨-, htype⟩ := h
  unfold param Param.pieces
  rw [tokens_append]
  cases name with
  | none =>
    refine (reads_typeSig htype).bind ?_ fun _ => noBrackets_of_endsItem
    exact reads_optionalName_none.map
  | some name =>
    refine (reads_typeSig htype).bind ?_ fun _ _ => noBrackets_of_startsWith rfl nofun
    have hname : Reads optionalName [.ident name] (some name) EndsItem := by
      unfold optionalName
      refine Reads.peek ?_
      exact (reads_expectName name).of_anything.map
    exact hname.map

theorem startsWithWord_param (p : Param) : StartsWithWord p.pieces := by
  obtain ⟨word, us, hus⟩ := startsWithWord_typeSig p.type
  exact ⟨word, _, by rw [Param.pieces, tokens_append, hus, List.cons_append]⟩

theorem reads_params {ps : List Param} (h : ∀ p ∈ ps, p.Printable) :
    Reads (inParens param) (tokens (parens (ps.map Param.pieces))) ps Anything := by
  refine reads_list ?_ fun p _ => startsWithWord_param p
  intro p hp
  exact reads_param (h p hp)

/-- What follows a method: another one, or the end of the class. -/
def EndsMethod (rest : List Token) : Prop :=
  StartsWith (.ident ".method") rest ∨ StartsWith (.punct '\x7d') rest

/-- A body, if there is one, and what is made of it. -/
theorem reads_optionalBody (args : List (Option String)) {b? : Option MethodBody}
    (h : ∀ b ∈ b?, b.Printable) {f : Option MethodBody → β} :
    Reads (do
      if (← peek) = .punct '\x7b' then
        let body ← some <$> body args
        return f body
      else
        let body ← pure none
        return f body)
      (tokens (b?.toList.flatMap MethodBody.pieces)) (f b?) EndsMethod := by
  cases b? with
  | none =>
    refine Reads.or ?_ ?_
    · refine Reads.peek_next ?_ fun _ hrest => hrest
      exact Reads.pure_bind Reads.pure
    · refine Reads.peek_next ?_ fun _ hrest => hrest
      exact Reads.pure_bind Reads.pure
  | some b =>
    rw [Option.toList_some, List.flatMap_singleton]
    refine Reads.peek ?_
    refine Reads.last ?_ Reads.pure fun _ hrest => hrest
    exact (reads_body args (h b rfl)).of_anything.fmap

/-- What follows the parameters of a method is no word about its implementation. -/
theorem notAmong_optionalBody (b? : Option MethodBody) {rest : List Token} (h : EndsMethod rest) :
    NotAmong implementationWords (tokens (b?.toList.flatMap MethodBody.pieces) ++ rest) := by
  cases b? with
  | none =>
    rcases h with h | h
    · exact notAmong_of_startsWith h (by decide)
    · exact notAmong_of_startsWith h nofun
  | some b => exact notAmong_of_startsWith rfl nofun

theorem reads_methodDef {m : MethodDef} (h : m.Printable) :
    Reads methodDef (tokens m.pieces.tail) m EndsMethod := by
  obtain ⟨-, hresult, hparams, hbody⟩ := h
  have hwords : ∀ word ∈ m.words, word ∈ methodWords := by
    unfold MethodDef.words
    cases m.isPublic <;> cases m.isStatic <;> cases m.isVirtual <;> decide
  have hnot : ∀ word ∈ methodWords, word ∉ typeWords := by decide
  have htokens : tokens m.pieces.tail = tokens (m.words.map .word) ++ (tokens m.result.pieces ++
      (.ident m.name :: (tokens (parens (m.params.map Param.pieces)) ++
        tokens (m.body.toList.flatMap MethodBody.pieces)))) := by
    simp [MethodDef.pieces]
  rw [htokens]
  unfold methodDef
  refine (reads_attributes hwords).bind ?_ fun rest _ => ?_
  · refine (reads_typeSig hresult).bind ?_ fun _ _ => noBrackets_of_startsWith rfl (by simp)
    refine (reads_expectName m.name).cons ?_
    refine (reads_params hparams).bind ?_ fun _ _ => trivial
    refine (reads_noAttributes implementationWords).none ?_ fun _ => notAmong_optionalBody m.body
    refine (reads_optionalBody _ hbody).result ?_
    simp [MethodDef.words, mem_chosen]
  · rw [List.append_assoc]
    exact notAmong_typeSig hnot _ _

/-! ## Types -/

theorem reads_member_field (t : TypeDef) {f : FieldDef} (h : f.Printable) :
    Reads (member t) (tokens f.pieces) (.more { t with fields := f :: t.fields }) Anything := by
  unfold member
  refine Reads.peek ?_
  refine (reads_take (.ident ".field") nofun).cons ?_
  exact (reads_fieldDef h).map

theorem reads_member_method (t : TypeDef) {m : MethodDef} (h : m.Printable) :
    Reads (member t) (tokens m.pieces) (.more { t with methods := m :: t.methods })
      EndsMethod := by
  unfold member
  refine Reads.peek ?_
  refine (reads_take (.ident ".method") nofun).cons ?_
  exact (reads_methodDef h).map

theorem reads_member_close (t : TypeDef) :
    Reads (member t) [.punct '\x7d']
      (.done { t with fields := t.fields.reverse, methods := t.methods.reverse }) Anything := by
  unfold member
  refine Reads.peek ?_
  exact (reads_take (.punct '\x7d') nofun).cons Reads.pure

theorem loops_methods (t : TypeDef) (fields : List FieldDef) {ms : List MethodDef}
    (h : ∀ m ∈ ms, m.Printable) :
    Loops member { t with fields := fields, methods := [] }
      (tokens (ms.flatMap MethodDef.pieces) ++ [.punct '\x7d'])
      { t with fields := fields.reverse, methods := ms } Anything := by
  have hitem : ∀ seen, ∀ m ∈ ms,
      Reads (member { t with fields := fields, methods := List.reverse seen }) (tokens m.pieces)
        (.more { t with fields := fields, methods := (seen ++ [m]).reverse }) EndsMethod := by
    intro seen m hm
    rw [List.reverse_append]
    exact reads_member_method { t with fields := fields, methods := seen.reverse } (h m hm)
  refine Loops.items (fun seen => { t with fields := fields, methods := seen.reverse }) [] hitem
    ?_ ?_ ?_
  · intro m _
    exact ⟨_, _, rfl, fun _ => .inl rfl⟩
  · have := reads_member_close { t with fields := fields, methods := ms.reverse }
    rw [List.reverse_reverse] at this
    exact Loops.done this
  · intro rest _
    exact .inr rfl

theorem loops_fields (t : TypeDef) {fs : List FieldDef} (h : ∀ f ∈ fs, f.Printable)
    {us : List Token} {t' : TypeDef}
    (hmethods : Loops member { t with fields := fs.reverse, methods := [] } us t' Anything) :
    Loops member { t with fields := [], methods := [] } (tokens (fs.flatMap FieldDef.pieces) ++ us)
      t' Anything := by
  have hitem : ∀ seen, ∀ f ∈ fs,
      Reads (member { t with fields := List.reverse seen, methods := [] }) (tokens f.pieces)
        (.more { t with fields := (seen ++ [f]).reverse, methods := [] }) Anything := by
    intro seen f hf
    rw [List.reverse_append]
    exact reads_member_field { t with fields := seen.reverse, methods := [] } (h f hf)
  refine Loops.items (fun seen => { t with fields := seen.reverse, methods := [] }) [] hitem ?_
    hmethods fun _ _ => trivial
  intro f _
  exact ⟨_, _, rfl, fun _ => trivial⟩

theorem reads_typeDef {t : TypeDef} (h : t.Printable) :
    Reads typeDef (tokens t.pieces.tail) t Anything := by
  obtain ⟨hassembly, hattribute, hname, hfields, hmethods⟩ := h
  have hwords : ∀ word ∈ t.words, word ∈ classWords := by
    unfold TypeDef.words
    cases t.isPublic <;> cases t.isExplicit <;> decide
  have hdotted : TypeName.ofDotted none t.name.fullName = t.name := by
    rw [← hassembly]
    exact ofDotted_fullName hname
  have htokens : tokens t.pieces.tail = tokens (t.words.map .word) ++ (.ident t.name.fullName ::
      .punct '\x7b' :: (tokens (t.fields.flatMap FieldDef.pieces) ++
        (tokens (t.methods.flatMap MethodDef.pieces) ++ [.punct '\x7d']))) := by
    simp [TypeDef.pieces]
  have hmembers := loops_fields t hfields (loops_methods t t.fields.reverse hmethods)
  rw [List.reverse_reverse] at hmembers
  rw [htokens]
  unfold typeDef
  refine (reads_attributes hwords).bind ?_ fun rest _ => ?_
  · refine (reads_expectName t.name.fullName).cons ?_
    refine (reads_acceptWord_other "extends").none ?_ fun _ _ => by simp
    refine (reads_expectPunct '\x7b').cons ?_
    refine Loops.reads ?_
    rw [hdotted]
    simpa [TypeDef.words, mem_chosen] using hmembers
  · -- The name of the class is not one of its attributes.
    refine notAmong_of_startsWith rfl ?_
    rintro word hword heq
    cases heq
    exact hattribute hword

/-! ## Assemblies -/

theorem reads_skipBlock : Reads skipBlock [] () (fun rest => rest.head? ≠ some (.punct '\x7b')) := by
  unfold skipBlock
  exact (reads_acceptPunct_other '\x7b').last Reads.pure fun _ hrest => hrest

/-- What follows a declaration: a class, or the end of the listing. -/
def EndsDeclaration (rest : List Token) : Prop :=
  StartsWith (.ident ".class") rest ∨ StartsWith .endOfInput rest

theorem reads_declaration_assembly (a : PartialAssembly) {name : String} (h : name ≠ "extern") :
    Reads (declaration a) [.ident ".assembly", .ident name] (.more { a with name := some name })
      EndsDeclaration := by
  unfold declaration
  refine Reads.peek ?_
  refine (reads_take (.ident ".assembly") nofun).cons ?_
  refine (reads_acceptWord_other "extern").none ?_ fun _ _ => by simpa using h
  refine (reads_expectName name).cons ?_
  refine reads_skipBlock.last Reads.pure ?_
  -- Neither a class nor the end of the listing is a block.
  rintro rest (hrest | hrest)
  · rw [hrest]
    nofun
  · rw [hrest]
    nofun

theorem reads_declaration_class (a : PartialAssembly) {t : TypeDef} (h : t.Printable) :
    Reads (declaration a) (tokens t.pieces) (.more { a with types := t :: a.types })
      Anything := by
  unfold declaration
  refine Reads.peek ?_
  refine (reads_take (.ident ".class") nofun).cons ?_
  exact (reads_typeDef h).map

theorem reads_declaration_end (name : String) (types : List TypeDef) :
    Reads (declaration ⟨some name, types⟩) [] (.done { name, types := types.reverse })
      (StartsWith .endOfInput) := by
  unfold declaration
  refine Reads.peek_next ?_ fun _ hrest => hrest
  exact Reads.pure

theorem loops_types (name : String) {ts : List TypeDef} (h : ∀ t ∈ ts, t.Printable) :
    Loops declaration ⟨some name, []⟩ (tokens (ts.flatMap TypeDef.pieces)) { name, types := ts }
      (StartsWith .endOfInput) := by
  have hitem : ∀ seen, ∀ t ∈ ts, Reads (declaration ⟨some name, List.reverse seen⟩)
      (tokens t.pieces) (.more ⟨some name, (seen ++ [t]).reverse⟩) Anything := by
    intro seen t ht
    rw [List.reverse_append]
    exact reads_declaration_class ⟨some name, seen.reverse⟩ (h t ht)
  have hend := reads_declaration_end name ts.reverse
  rw [List.reverse_reverse] at hend
  have := Loops.items (fun seen => PartialAssembly.mk (some name) seen.reverse) [] hitem
    (fun t _ => ⟨_, _, rfl, fun _ => trivial⟩) (Loops.done hend) fun _ _ => trivial
  rwa [List.append_nil] at this

theorem reads_assembly {a : Assembly} (h : a.Printable) :
    Reads assembly (tokens a.pieces) a (StartsWith .endOfInput) := by
  obtain ⟨hname, -, htypes⟩ := h
  have hbehind : ∀ rest, StartsWith .endOfInput rest →
      EndsDeclaration (tokens (a.types.flatMap TypeDef.pieces) ++ rest) := by
    intro rest hrest
    cases a.types with
    | nil => exact .inr hrest
    | cons t ts => exact .inl rfl
  have hloop := Loops.more (reads_declaration_assembly {} hname) nofun
    (loops_types a.name htypes) hbehind
  exact hloop.reads

end Listing

open Listing

/-- Reading the listing of an assembly gives the assembly back. -/
theorem Assembly.parse_print {a : Assembly} (h : a.Printable) : parse a.print = .ok a := by
  obtain ⟨located, hscan, hlocated⟩ := scan_layout (a.spelled h)
  -- The tokens of the pieces are read, and the end mark is what is left.
  obtain ⟨front, rest, rfl, hfront, hrest⟩ := List.map_eq_append_iff.1 hlocated
  have hread : assembly (front ++ rest) = .ok (a, rest) := by
    refine reads_assembly h front rest hfront ?_
    rw [hrest]
    rfl
  unfold parse Assembly.print
  rw [hscan]
  change (assembly (front ++ rest) >>= fun found => pure found.1) = .ok a
  rw [hread]
  rfl

example :
    let method : MethodDef :=
      { name := "f", result := .int32, params := [⟨some "x", .array .int32⟩]
        body := some { instructions := [⟨0, .ldcI4, .int32 (-5)⟩, ⟨1, .ret, .empty⟩] } }
    (Assembly.print ⟨"A", [{ name := ⟨none, "N", "T"⟩, methods := [method] }]⟩).toList =
      (".assembly 'A'\n.class 'N.T' \x7b\n.method int32 'f'(int32[] 'x') \x7b\n" ++
        ".locals init ()\nIL_0000:  ldc.i4 -5\nIL_0001:  ret\n\x7d\n\x7d\n").toList := by
  decide +kernel

namespace Ledger

/-- A class with every kind of declaration and operand that a listing can hold. -/
def ledger : Assembly :=
  { name := "Ledger"
    types := [
      { name := ⟨none, "Bank.Core", "Account"⟩
        isPublic := true
        isExplicit := true
        fields := [
          { name := "static", type := .array (.array (.classType ⟨some "corlib", "System", "Uri"⟩)),
            isStatic := true, offset := some 4 },
          { name := "", type := .nativeUInt }]
        methods := [
          { name := ".ctor", result := .void, isPublic := true
            params := [⟨some "the owner", .int32⟩, ⟨none, .valueType ⟨none, "", "Rate"⟩⟩] },
          { name := "post", result := .array .string, params := [], isStatic := true,
            isVirtual := true,
            body := some {
              locals := [.int32, .array .object]
              regions := [⟨0, 4, 6, 0xffffffff⟩]
              instructions := [
                ⟨0, .nop, .empty⟩,
                ⟨1, .ldcI4, .int32 (-5)⟩,
                ⟨2, .ldcI8, .int64 Int64.minValue⟩,
                ⟨3, .ldstr, .string "a\"b\\c\n\t\r\x00'"⟩,
                ⟨4, .ldargS, .arg 3⟩,
                ⟨5, .br, .target 0x12345⟩,
                ⟨6, .switch, .targets [0, 1]⟩,
                ⟨7, .call, .method
                  { declaring := ⟨some "corlib", "System", "Uri"⟩, name := "f", hasThis := true,
                    result := .array .int32, params := [.int32, .nativeInt] }⟩,
                ⟨8, .ldfld, .field
                  { declaring := ⟨none, "Bank", "Rate"⟩, name := "r",
                    type := .classType ⟨none, "", "instance"⟩ }⟩,
                ⟨9, .newarr, .type (.array .boolean)⟩,
                ⟨10, .ret, .empty⟩] } }] }] }

theorem ledger_reads_back : ledger.Printable ∧ parse ledger.print = .ok ledger := by
  have h : ledger.Printable := by decide
  exact ⟨h, ledger.parse_print h⟩

end Ledger

end CilCompiler
