import CilCompiler.Proofs.Surroundings

/-!
# Where instructions come from

Whatever a listing is read to stands somewhere in the listing. Each loop of the grammar gathers what
its rounds read, so it has come to the position of everything that it has gathered.

* `rounds_of_loop` gives the rounds of a loop that ends.
* `Gathers` says that every round of a loop adds at most one thing, and where this thing stands.
  `Rounds.origin` says that everything which has been gathered stands where the loop has come to.
* `InstructionAt` says that an instruction stands at some position.
* `exists_comesTo` is the main result: reading comes to every instruction of an assembly.
-/

namespace CilCompiler.Listing

variable {σ β γ : Type}

/-! ## Rounds of a loop -/

section Loops

variable {step : σ → Reader (Round σ β)} {state last : σ} {ts us rest : List Located}
  {positions : List (List Located)}

/-- A loop that ends has come to its last round. -/
theorem rounds_of_loop {result : β} (h : loop step state ts = .ok (result, rest)) :
    ∃ positions last us, Rounds step state ts positions last us ∧
      step last us = .ok (.done result, rest) := by
  unfold loop at h
  generalize (⟨currentLine ts, .stalled⟩ : SyntaxError) = stalled at h
  induction state, ts using round_induction step with
  | error state ts e hround =>
      rw [iterate_error hround] at h
      cases h
  | done state ts result' rest' hround =>
      rw [iterate_done hround] at h
      cases h
      exact ⟨[], state, ts, .refl state ts, hround⟩
  | stuck state ts next behind hround hstuck =>
      rw [iterate_stalled hround hstuck] at h
      cases h
  | more state ts next behind hround hmoved ih =>
      rw [iterate_more hround hmoved] at h
      rcases ih h with ⟨positions, last, us, hrounds, hlast⟩
      exact ⟨ts :: positions, last, us, .more hround hmoved hrounds, hlast⟩

/-- What a reader ensures of the rounds that go on holds of such a round. -/
theorem Ensures.of_more {P : σ → Prop} {reader : Reader (Round σ β)} {next : σ}
    (h : Ensures (RoundOf P fun _ => True) reader) (hrun : reader ts = .ok (.more next, rest)) :
    P next :=
  h ts _ rest hrun

/-- Every round keeps what has been gathered, and adds at most one thing in front of it, which
stands where the round starts. -/
def Gathers (step : σ → Reader (Round σ β)) (gathered : σ → List γ)
    (standsAt : σ → List Located → γ → Prop) : Prop :=
  ∀ state ts next rest, step state ts = .ok (.more next, rest) →
    gathered next = gathered state ∨
      ∃ x, gathered next = x :: gathered state ∧ standsAt state ts x

variable {gathered : σ → List γ} {standsAt : σ → List Located → γ → Prop}

theorem Rounds.isSuffix (hg : Gathers step gathered standsAt)
    (h : Rounds step state ts positions last us) : gathered state <:+ gathered last := by
  induction h with
  | refl state ts =>
      exact List.suffix_rfl
  | more round _ _ ih =>
      rcases hg _ _ _ _ round with hsame | ⟨x, hadd, -⟩
      · exact hsame ▸ ih
      · exact ((List.suffix_cons x _).trans (hadd ▸ List.suffix_rfl)).trans ih

/-- What has been gathered on the way stands at a position that the loop has come to, with what was
gathered before. -/
theorem Rounds.origin (hg : Gathers step gathered standsAt)
    (h : Rounds step state ts positions last us) {before after : List γ} {x : γ}
    (hx : gathered last = after ++ x :: before)
    (hnew : (gathered state).length ≤ before.length) :
    ∃ positions' middle vs, Rounds step state ts positions' middle vs ∧
      gathered middle = before ∧ standsAt middle vs x := by
  induction h with
  | refl state ts =>
      rw [hx] at hnew
      simp only [List.length_append, List.length_cons] at hnew
      omega
  | @more state next last ts rest us positions round moved hrounds ih =>
      have hgoes : (gathered next).length ≤ before.length →
          ∃ positions' middle vs, Rounds step state ts positions' middle vs ∧
            gathered middle = before ∧ standsAt middle vs x := by
        intro hlength
        rcases ih hx hlength with ⟨positions', middle, vs, hrounds', hbefore, hstands⟩
        exact ⟨ts :: positions', middle, vs, .more round moved hrounds', hbefore, hstands⟩
      rcases hg _ _ _ _ round with hsame | ⟨y, hadd, hstands⟩
      · exact hgoes (hsame ▸ hnew)
      · by_cases hlength : (gathered next).length ≤ before.length
        · exact hgoes hlength
        · -- the first round has added it: two ends of one list that are as long as each other
          have hends : y :: gathered state <:+ x :: before := by
            refine List.suffix_of_suffix_length_le (hadd ▸ hrounds.isSuffix hg)
              (hx ▸ List.suffix_append _ _) ?_
            simpa using hnew
          have hsame : y :: gathered state = x :: before := by
            refine hends.eq_of_length ?_
            rw [hadd] at hlength
            simp only [List.length_cons] at hlength ⊢
            omega
          cases hsame
          exact ⟨[], state, ts, .refl state ts, rfl, hstands⟩

end Loops

/-! ## Tokens that have been taken -/

section Taken

variable {ts rest : List Located}

theorem exists_of_current {token : Token} (h : current ts = token) (hne : token ≠ .endOfInput) :
    ∃ t us, ts = t :: us ∧ t.token = token := by
  cases ts with
  | nil =>
      exact absurd h.symm hne
  | cons t us =>
      exact ⟨t, us, rfl, h⟩

theorem expectName_eq_ok {word : String} (h : expectName ts = .ok (word, rest)) :
    ∃ t, ts = t :: rest ∧ t.token = .ident word := by
  cases hcurrent : current ts with
  | ident text =>
      rcases exists_of_current hcurrent (by simp) with ⟨t, us, rfl, ht⟩
      rw [expectName_of_token ht] at h
      cases h
      exact ⟨t, rfl, ht⟩
  | _ =>
      unfold expectName at h
      rw [peek_bind, hcurrent] at h
      cases h

theorem expect_eq_ok {what : Expected} {token : Token} {u : Unit}
    (h : expect what token ts = .ok (u, rest)) (hne : token ≠ .endOfInput) :
    ∃ t, ts = t :: rest ∧ t.token = token := by
  by_cases hcurrent : current ts = token
  · rcases exists_of_current hcurrent hne with ⟨t, us, rfl, ht⟩
    rw [expect_of_token ht hne] at h
    cases h
    exact ⟨t, rfl, ht⟩
  · have haccept : accept token ts = .ok (false, ts) := if_neg hcurrent
    unfold expect at h
    rw [run_bind haccept] at h
    cases h

theorem label_eq_ok {offset : UInt32} (h : label ts = .ok (offset, rest)) :
    ∃ t word, ts = t :: rest ∧ t.token = .ident word ∧ Text.readLabel? word = some offset := by
  unfold label at h
  rcases bind_eq_ok h with ⟨word, us, hword, hread⟩
  rcases expectName_eq_ok hword with ⟨t, rfl, ht⟩
  cases hlabel : Text.readLabel? word with
  | none =>
      rw [hlabel] at hread
      cases hread
  | some offset' =>
      rw [hlabel] at hread
      cases hread
      exact ⟨t, word, rfl, ht, hlabel⟩

end Taken

/-! ## Instructions of a body -/

/-- The instruction stands here: its label, a colon, its opcode and its operand. -/
inductive InstructionAt (scope : Scope) (ts : List Located) (i : Instruction) : Prop
  | intro {mark colon word : Located} {us rest : List Located} {label mnemonic : String}
      (hts : ts = mark :: colon :: word :: us)
      (hmark : mark.token = .ident label) (hlabel : Text.readLabel? label = some i.offset)
      (hcolon : colon.token = .punct ':')
      (hword : word.token = .ident mnemonic)
      (hopcode : Opcode.ofMnemonic? mnemonic = some i.opcode)
      (hoperand : operand scope word.line i.opcode.operandKind us = .ok (i.operand, rest))

section Body

variable {args : List (Option String)}

theorem instruction_eq_ok {scope : Scope} {offset : UInt32} {i : Instruction}
    {ts rest : List Located} (h : instruction scope offset ts = .ok (i, rest)) :
    ∃ word us mnemonic, ts = word :: us ∧ word.token = .ident mnemonic ∧
      Opcode.ofMnemonic? mnemonic = some i.opcode ∧ i.offset = offset ∧
      operand scope word.line i.opcode.operandKind us = .ok (i.operand, rest) := by
  unfold instruction at h
  rw [line_bind] at h
  rcases bind_eq_ok h with ⟨mnemonic, us, hname, hread⟩
  rcases expectName_eq_ok hname with ⟨word, rfl, hword⟩
  cases hopcode : Opcode.ofMnemonic? mnemonic with
  | none =>
      rw [hopcode] at hread
      cases hread
  | some opcode =>
      rw [hopcode] at hread
      rcases bind_eq_ok hread with ⟨o, behind, hoperand, hpure⟩
      cases hpure
      exact ⟨word, us, mnemonic, rfl, hword, hopcode, rfl, hoperand⟩

/-- A body gathers the instructions that stand in it. -/
theorem gathers_bodyItem : Gathers (bodyItem args) PartialBody.instructions fun b ts i =>
    InstructionAt ⟨args, b.locals.map Prod.snd⟩ ts i := by
  intro b ts next rest h
  by_cases hlabelled : ∃ word, current ts = .ident word ∧ Text.hasLabelMark word = true
  · rcases hlabelled with ⟨word, hcurrent, hmarked⟩
    unfold bodyItem at h
    rw [peek_bind, hcurrent] at h
    -- a label is none of the directives
    dsimp only at h
    rw [if_neg (ne_of_hasLabelMark hmarked rfl), if_neg (ne_of_hasLabelMark hmarked rfl),
      if_neg (ne_of_hasLabelMark hmarked rfl), if_neg (ne_of_hasLabelMark hmarked rfl),
      if_pos hmarked] at h
    rcases bind_eq_ok h with ⟨offset, us, hlabel, h⟩
    rcases bind_eq_ok h with ⟨_, vs, hexpect, h⟩
    rcases bind_eq_ok h with ⟨i, behind, hinstruction, hpure⟩
    cases hpure
    rcases label_eq_ok hlabel with ⟨mark, label, rfl, hmark, hread⟩
    rcases expect_eq_ok hexpect (by simp) with ⟨colon, rfl, hcolon⟩
    rcases instruction_eq_ok hinstruction with
      ⟨word, us, mnemonic, rfl, hword, hopcode, rfl, hoperand⟩
    exact .inr ⟨i, rfl, .intro rfl hmark hread hcolon hword hopcode hoperand⟩
  · -- no other item is an instruction
    unfold bodyItem at h
    rw [peek_bind] at h
    refine .inl (Ensures.of_more (P := (·.instructions = b.instructions)) ?_ h)
    split
    · exact .after fun _ => .pure trivial
    · next word hword =>
        split
        · exact .after fun _ => .after fun _ => .pure rfl
        split
        · exact .after fun _ => .pure rfl
        split
        · exact .after fun _ => .after fun _ => .after fun _ => .pure rfl
        split
        · exact .after fun _ => .after fun _ => .pure rfl
        split
        · next hmarked =>
            exact absurd ⟨word, hword, hmarked⟩ hlabelled
        · exact .refuse
    · exact .refuse

theorem bodyItem_ends (b : PartialBody) :
    Ensures (RoundOf (fun _ => True) (· = b.finish)) (bodyItem args b) := by
  unfold bodyItem
  refine .after fun token => ?_
  split
  · exact .after fun _ => .pure rfl
  · split
    · exact .after fun _ => .after fun _ => .pure trivial
    split
    · exact .after fun _ => .pure trivial
    split
    · exact .after fun _ => .after fun _ => .after fun _ => .pure trivial
    split
    · exact .after fun _ => .after fun _ => .pure trivial
    split
    · exact .after fun _ => .after fun _ => .after fun _ => .pure trivial
    · exact .refuse
  · exact .refuse

end Body

/-! ## Methods of a type -/

/-- The method stands here. -/
def MethodAt (ts : List Located) (m : MethodDef) : Prop :=
  ∃ word us rest, ts = word :: us ∧ word.token = .ident ".method" ∧ methodDef us = .ok (m, rest)

/-- The members of a type do not change its name, and it ends with the methods in order. -/
theorem member_ends (t : TypeDef) :
    Ensures (RoundOf (·.name = t.name) fun whole =>
      whole.name = t.name ∧ whole.methods = t.methods.reverse) (member t) := by
  unfold member
  refine .after fun token => ?_
  split
  · exact .after fun _ => .pure ⟨rfl, rfl⟩
  · split
    · exact .after fun _ => .after fun _ => .pure rfl
    split
    · exact .after fun _ => .after fun _ => .pure rfl
    split
    · exact .after fun _ => .after fun _ => .pure rfl
    · exact .refuse
  · exact .refuse

/-- A type gathers the methods that stand in it. -/
theorem gathers_member : Gathers member TypeDef.methods fun _ => MethodAt := by
  intro t ts next rest h
  by_cases hmethod : current ts = .ident ".method"
  · rcases exists_of_current hmethod (by simp) with ⟨word, us, rfl, hword⟩
    rw [member_method t hword, map_eq_pure_bind] at h
    rcases bind_eq_ok h with ⟨m, behind, hread, hpure⟩
    cases hpure
    exact .inr ⟨m, rfl, word, us, rest, rfl, hword, hread⟩
  · unfold member at h
    rw [peek_bind] at h
    refine .inl (Ensures.of_more (P := (·.methods = t.methods)) ?_ h)
    split
    · exact .after fun _ => .pure trivial
    · next word hword =>
        split
        · exact .after fun _ => .after fun _ => .pure rfl
        split
        · next heq =>
            exact absurd (heq ▸ hword) hmethod
        split
        · exact .after fun _ => .after fun _ => .pure rfl
        · exact .refuse
    · exact .refuse

theorem Rounds.name_eq {t t' : TypeDef} {ts us : List Located} {members : List (List Located)}
    (h : Rounds member t ts members t' us) : t'.name = t.name := by
  induction h with
  | refl t ts =>
      rfl
  | more round _ _ ih =>
      exact ih.trans (member_ends _ _ _ _ round)

/-- A method with a body is its head, and the body between braces. -/
theorem methodDef_eq_ok {m : MethodDef} {body : MethodBody} {ts rest : List Located}
    (h : methodDef ts = .ok (m, rest)) (hbody : m.body = some body) :
    ∃ head brace us, methodHead ts = .ok (head, brace :: us) ∧ brace.token = .punct '\x7b' ∧
      m = head.method (some body) ∧ loop (bodyItem head.argNames) {} us = .ok (body, rest) := by
  rw [methodDef_eq] at h
  rcases bind_eq_ok h with ⟨head, vs, hhead, hread⟩
  rw [peek_bind] at hread
  by_cases hcurrent : current vs = .punct '\x7b'
  · rcases exists_of_current hcurrent (by simp) with ⟨brace, us, rfl, hbrace⟩
    have hmap := methodDef_of_methodHead hhead hbrace
    rw [methodDef_eq, h, map_eq_pure_bind] at hmap
    rcases bind_eq_ok hmap.symm with ⟨body', behind, hloop, hpure⟩
    cases hpure
    cases hbody
    exact ⟨head, brace, us, hhead, hbrace, rfl, hloop⟩
  · rw [if_neg hcurrent] at hread
    cases hread
    cases hbody

/-! ## Types of a listing -/

/-- The type stands here. -/
def TypeAt (ts : List Located) (t : TypeDef) : Prop :=
  ∃ word us rest, ts = word :: us ∧ word.token = .ident ".class" ∧ typeDef us = .ok (t, rest)

theorem declaration_ends (a : PartialAssembly) :
    Ensures (RoundOf (fun _ => True) fun whole => whole.types = a.types.reverse)
      (declaration a) := by
  unfold declaration
  refine .after fun token => ?_
  split
  · split
    · exact .pure rfl
    · exact .throw
  · split
    · refine .after fun _ => .after fun isExtern => ?_
      split
      · exact .after fun _ => .after fun _ => .pure trivial
      · exact .after fun _ => .after fun _ => .pure trivial
    split
    · exact .after fun _ => .after fun _ => .pure trivial
    split
    · exact .after fun _ => .after fun _ => .pure trivial
    · exact .refuse
  · exact .refuse

/-- A listing gathers the types that stand in it. -/
theorem gathers_declaration : Gathers declaration PartialAssembly.types fun _ => TypeAt := by
  intro a ts next rest h
  by_cases hclass : current ts = .ident ".class"
  · rcases exists_of_current hclass (by simp) with ⟨word, us, rfl, hword⟩
    rw [declaration_class a hword, map_eq_pure_bind] at h
    rcases bind_eq_ok h with ⟨t, behind, hread, hpure⟩
    cases hpure
    exact .inr ⟨t, rfl, word, us, rest, rfl, hword, hread⟩
  · unfold declaration at h
    rw [peek_bind] at h
    refine .inl (Ensures.of_more (P := (·.types = a.types)) ?_ h)
    split
    · split
      · exact .pure trivial
      · exact .throw
    · next word hword =>
        split
        · refine .after fun _ => .after fun isExtern => ?_
          split
          · exact .after fun _ => .after fun _ => .pure rfl
          · exact .after fun _ => .after fun _ => .pure rfl
        split
        · exact .after fun _ => .after fun _ => .pure rfl
        split
        · next heq =>
            exact absurd (heq ▸ hword) hclass
        · exact .refuse
    · exact .refuse

theorem typeHead_methods : Ensures (·.methods = []) typeHead := by
  unfold typeHead
  refine .after fun words => .after fun name => .after fun extended => ?_
  split
  · exact .after fun _ => .after fun _ => .pure rfl
  · exact .after fun _ => .pure rfl

/-! ## All instructions -/

/-- Reading comes to every instruction of an assembly, and what it has read before are the name of
the type, the head of the method and the instructions in front. -/
theorem exists_comesTo {ts rest : List Located} {a : Assembly} {t : TypeDef} {m : MethodDef}
    {body : MethodBody} {before after : List Instruction} {i : Instruction}
    (h : assembly ts = .ok (a, rest)) (hm : (t, m) ∈ a.methods) (hbody : m.body = some body)
    (hi : body.instructions = before ++ i :: after) :
    ∃ here items us, ComesTo ts here items us ∧ InstructionAt here.scope us i ∧
      here.type.name = t.name ∧ m = here.head.method (some body) ∧
      here.body.instructions = before.reverse := by
  rcases List.mem_flatMap.1 hm with ⟨t', ht, hm'⟩
  rcases List.mem_map.1 hm' with ⟨m', hmethod, heq⟩
  cases heq
  -- the type
  rcases rounds_of_loop h with ⟨_, listing, _, hdeclared, hend⟩
  have htypes : a.types = listing.types.reverse := declaration_ends _ _ _ _ hend
  rw [htypes, List.mem_reverse] at ht
  rcases List.append_of_mem ht with ⟨later, earlier, hsplit⟩
  rcases hdeclared.origin gathers_declaration hsplit (Nat.zero_le _) with
    ⟨declarations, here, _, hdeclared', -, cls, atHead, _, rfl, hcls, htype⟩
  rw [typeDef_eq] at htype
  rcases bind_eq_ok htype with ⟨first, atMembers, htyped, hmembers⟩
  -- the method
  rcases rounds_of_loop hmembers with ⟨_, whole, _, hgathered, hend'⟩
  rcases member_ends _ _ _ _ hend' with ⟨hname, hmethods⟩
  rw [hmethods, List.mem_reverse] at hmethod
  rcases List.append_of_mem hmethod with ⟨later', earlier', hsplit'⟩
  have hfresh : first.methods.length ≤ earlier'.length := by
    rw [typeHead_methods _ _ _ htyped]
    exact Nat.zero_le _
  rcases hgathered.origin gathers_member hsplit' hfresh with
    ⟨members, type, _, hgathered', -, method, atMethod, _, rfl, hword, hread⟩
  rcases methodDef_eq_ok hread hbody with ⟨head, brace, atItems, hheaded, hbrace, rfl, hitems⟩
  -- the instruction
  rcases rounds_of_loop hitems with ⟨_, last, _, hitemized, hend''⟩
  have hfinish : body = last.finish := bodyItem_ends _ _ _ _ hend''
  have hlast : last.instructions = after.reverse ++ i :: before.reverse := by
    have hreverse : last.instructions.reverse = before ++ i :: after := by
      rw [← hi, hfinish]
      rfl
    rw [← List.reverse_reverse last.instructions, hreverse]
    simp
  rcases hitemized.origin gathers_bodyItem hlast (Nat.zero_le _) with
    ⟨items, b, us, hitemized', hbefore, hstands⟩
  refine ⟨⟨here, type, head, b⟩, items, us, ?_, hstands, ?_, rfl, hbefore⟩
  · exact .intro hdeclared' hcls htyped hgathered' hword hheaded hbrace hitemized'
  · exact hgathered'.name_eq.trans (hgathered.name_eq.symm.trans hname.symm)

end CilCompiler.Listing
