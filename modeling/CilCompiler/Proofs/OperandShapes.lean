import CilCompiler.Listing.Declaration
import CilCompiler.Proofs.Faults

/-!
# Shapes of operands

A listing gives every opcode an operand of the shape that the opcode asks for. So an assembly that
was read from a text never fails for the shape of an operand: what is left are arguments that a
method does not have, and fields that belong to no object.

* `Listing.Ensures` says that everything a reader returns has some property. Loops keep an
  invariant.
* `Assembly.WellShaped` is the property that reading ensures.
* `parse_wellShaped` says so of whole texts.
-/

namespace CilCompiler

/-- The operand has the shape that the opcode asks for. -/
def Instruction.WellShaped (i : Instruction) : Prop :=
  i.operand.kind = i.opcode.operandKind

def MethodBody.WellShaped (body : MethodBody) : Prop :=
  ∀ i ∈ body.instructions, i.WellShaped

def MethodDef.WellShaped (m : MethodDef) : Prop :=
  ∀ body ∈ m.body, body.WellShaped

def TypeDef.WellShaped (t : TypeDef) : Prop :=
  ∀ m ∈ t.methods, m.WellShaped

def Assembly.WellShaped (a : Assembly) : Prop :=
  ∀ t ∈ a.types, t.WellShaped

theorem Assembly.WellShaped.method {a : Assembly} {t : TypeDef} {m : MethodDef} (h : a.WellShaped)
    (hmem : (t, m) ∈ a.methods) : m.WellShaped := by
  rcases List.mem_flatMap.1 hmem with ⟨t', ht', hm⟩
  rcases List.mem_map.1 hm with ⟨m', hm', heq⟩
  cases heq
  exact h t ht' m hm'

namespace Listing

/-! ## What readers ensure -/

/-- Everything that the reader returns has the property `Q`. -/
def Ensures {α : Type} (Q : α → Prop) (reader : Reader α) : Prop :=
  ∀ ts r rest, reader ts = .ok (r, rest) → Q r

/-- A round that goes on has the property `I`, one that is done the property `Q`. -/
def RoundOf {σ β : Type} (I : σ → Prop) (Q : β → Prop) : Round σ β → Prop
  | .more state => I state
  | .done result => Q result

namespace Ensures

variable {α β σ : Type} {Q : α → Prop}

theorem pure {r : α} (h : Q r) : Ensures Q (pure r) := by
  intro ts r' rest hrun
  cases hrun
  exact h

theorem refuse {cause : Cause} : Ensures Q (refuse cause) :=
  fun _ _ _ hrun => nomatch hrun

theorem throw {e : SyntaxError} : Ensures Q (throw e) :=
  fun _ _ _ hrun => nomatch hrun

theorem bind {P : β → Prop} {x : Reader β} {f : β → Reader α} (hx : Ensures P x)
    (hf : ∀ r, P r → Ensures Q (f r)) : Ensures Q (x >>= f) := by
  intro ts r rest hrun
  have hsteps : (x >>= f) ts = x ts >>= fun p => f p.1 p.2 := rfl
  rw [hsteps] at hrun
  cases hfirst : x ts with
  | error e =>
      rw [hfirst] at hrun
      cases hrun
  | ok p =>
      rw [hfirst] at hrun
      exact hf p.1 (hx ts p.1 p.2 hfirst) p.2 r rest hrun

/-- What is read first may be anything. -/
theorem after {x : Reader β} {f : β → Reader α} (hf : ∀ r, Ensures Q (f r)) : Ensures Q (x >>= f) :=
  bind (P := fun _ => True) (fun _ _ _ _ => trivial) fun r _ => hf r

/-- A loop ensures what its last round does, if every round keeps the invariant. -/
theorem loop {I : σ → Prop} {step : σ → Reader (Round σ α)} {state : σ}
    (hstep : ∀ state, I state → Ensures (RoundOf I Q) (step state)) (hstate : I state) :
    Ensures Q (loop step state) := by
  intro ts r rest hrun
  unfold Listing.loop at hrun
  generalize (⟨currentLine ts, .stalled⟩ : SyntaxError) = stalled at hrun
  -- the input gets shorter from round to round
  induction hlength : ts.length using Nat.strongRecOn generalizing ts state with
  | ind n ih =>
      rw [Parser.iterate_eq] at hrun
      cases hround : step state ts with
      | error e =>
          rw [hround] at hrun
          cases hrun
      | ok p =>
          rcases p with ⟨round, behind⟩
          have hkeeps := hstep state hstate ts round behind hround
          rw [hround] at hrun
          cases round with
          | done result =>
              cases hrun
              exact hkeeps
          | more next =>
              simp only at hrun
              -- a round that consumed nothing ends the loop with an error
              split at hrun
              · next hshorter =>
                exact ih behind.length (hlength ▸ hshorter) hkeeps behind hrun rfl
              · cases hrun

end Ensures

/-! ## Instructions and bodies -/

section Grammar

variable {scope : Scope} {offset : UInt32}

theorem operand_ensures (scope : Scope) (line : Nat) (kind : OperandKind) :
    Ensures (·.kind = kind) (operand scope line kind) := by
  cases kind with
  | empty =>
      exact .pure rfl
  | _ =>
      exact .after fun _ => .pure rfl

theorem instruction_ensures : Ensures Instruction.WellShaped (instruction scope offset) := by
  refine .after fun line => .after fun word => ?_
  split
  · exact (operand_ensures scope line _).bind fun operand hkind => .pure hkind
  · exact .throw

theorem bodyItem_ensures {args : List (Option String)} {b : PartialBody}
    (hb : ∀ i ∈ b.instructions, i.WellShaped) :
    Ensures (RoundOf (fun b => ∀ i ∈ b.instructions, i.WellShaped) MethodBody.WellShaped)
      (bodyItem args b) := by
  refine .after fun token => ?_
  split
  · refine .after fun _ => .pure fun i hi => ?_
    exact hb i (List.mem_reverse.1 hi)
  · -- only a labelled line adds an instruction
    split
    · exact .after fun _ => .after fun _ => .pure hb
    split
    · exact .after fun _ => .pure hb
    split
    · exact .after fun _ => .after fun _ => .after fun _ => .pure hb
    split
    · exact .after fun _ => .after fun _ => .pure hb
    split
    · refine .after fun _ => .after fun _ => instruction_ensures.bind fun i hi => .pure ?_
      exact List.forall_mem_cons.2 ⟨hi, hb⟩
    · exact .refuse
  · exact .refuse

theorem body_ensures {args : List (Option String)} :
    Ensures MethodBody.WellShaped (body args) :=
  .after fun _ => .loop (fun _ hb => bodyItem_ensures hb) (by simp)

/-! ## Declarations -/

theorem methodDef_ensures : Ensures MethodDef.WellShaped methodDef := by
  refine .after fun words => .after fun result => .after fun name => .after fun params =>
    .after fun _ => .after fun token => ?_
  simp only [map_eq_pure_bind, bind_assoc, pure_bind]
  -- without a brace there is no body, so nothing has to be shown
  split
  · refine body_ensures.bind fun body hbody => .pure fun found hfound => ?_
    exact Option.some.inj hfound ▸ hbody
  · exact .pure nofun

theorem member_ensures {t : TypeDef} (ht : t.WellShaped) :
    Ensures (RoundOf TypeDef.WellShaped TypeDef.WellShaped) (member t) := by
  refine .after fun token => ?_
  split
  · refine .after fun _ => .pure fun m hm => ?_
    exact ht m (List.mem_reverse.1 hm)
  · -- only a method adds a body
    split
    · exact .after fun _ => .after fun _ => .pure ht
    split
    · refine .after fun _ => methodDef_ensures.bind fun m hm => .pure ?_
      exact List.forall_mem_cons.2 ⟨hm, ht⟩
    split
    · exact .after fun _ => .after fun _ => .pure ht
    · exact .refuse
  · exact .refuse

theorem typeDef_ensures : Ensures TypeDef.WellShaped typeDef := by
  refine .after fun words => .after fun name => .after fun extended => ?_
  -- the type starts without methods, whether or not it names what it extends
  have hmembers : ∀ t : TypeDef, t.methods = [] → Ensures TypeDef.WellShaped (loop member t) :=
    fun t ht => .loop (fun _ ht => member_ensures ht) (by simp [TypeDef.WellShaped, ht])
  split
  · exact .after fun _ => .after fun _ => hmembers _ rfl
  · exact .after fun _ => hmembers _ rfl

theorem declaration_ensures {a : PartialAssembly} (ha : ∀ t ∈ a.types, t.WellShaped) :
    Ensures (RoundOf (fun a => ∀ t ∈ a.types, t.WellShaped) Assembly.WellShaped)
      (declaration a) := by
  refine .after fun token => ?_
  split
  · split
    · refine .pure fun t ht => ?_
      exact ha t (List.mem_reverse.1 ht)
    · exact .throw
  · -- names of assemblies and modules leave the types as they are
    split
    · refine .after fun _ => .after fun isExtern => ?_
      split <;> exact .after fun _ => .after fun _ => .pure ha
    split
    · exact .after fun _ => .after fun _ => .pure ha
    split
    · refine .after fun _ => typeDef_ensures.bind fun t ht => .pure ?_
      exact List.forall_mem_cons.2 ⟨ht, ha⟩
    · exact .refuse
  · exact .refuse

theorem exists_of_parse {text : String} {a : Assembly} (h : parse text = .ok a) :
    ∃ ts rest, scan text = .ok ts ∧ assembly ts = .ok (a, rest) := by
  unfold parse at h
  cases hscan : scan text with
  | error e =>
      rw [hscan] at h
      cases h
  | ok ts =>
      rw [hscan] at h
      cases hread : assembly ts with
      | error e =>
          simp only [bind, Except.bind, hread] at h
          cases h
      | ok p =>
          simp only [bind, Except.bind, hread] at h
          cases h
          exact ⟨ts, p.2, rfl, hread⟩

theorem parse_wellShaped {text : String} {a : Assembly} (h : parse text = .ok a) :
    a.WellShaped := by
  have hassembly : Ensures Assembly.WellShaped assembly :=
    .loop (fun _ ha => declaration_ensures ha) (by simp)
  rcases exists_of_parse h with ⟨ts, rest, -, hread⟩
  exact hassembly ts a rest hread

end Grammar

end Listing

/-! ## Faults of well-shaped assemblies -/

section Faults

variable {a : Assembly} {o : Options}

/-- A well-shaped body is never refused for the operand of a jump. -/
theorem analyze_ne_malformed {body : MethodBody} (h : body.WellShaped) (fault : OperandFault) :
    Schedule.analyze body ≠ .error (.malformedOperand fault) := by
  intro hanalyze
  rcases analyze_eq_error hanalyze with ⟨_, he⟩ | ⟨i, hi, htargets⟩
  · cases he
  · exact (targetsOf_eq_error htargets).2 (h i hi)

/-- A well-shaped instruction is refused for its operand only if that is a static field. -/
theorem select_malformed {headerSize : UInt32} {i : Instruction} {fault : OperandFault}
    (h : i.WellShaped) (hselect : select a headerSize i = .error (.malformedOperand fault)) :
    ∃ r, fault = .staticField r ∧
      ∃ t f, a.findType r.declaring = some t ∧ t.findField r.name = some f ∧ f.isStatic := by
  rcases select_eq_error hselect with he | ⟨_, hkind⟩ | ⟨r, hopcode, hoperand, hoffset⟩
  · cases he
  · exact absurd h hkind
  · rcases fieldOffset_eq_error hoffset with he | ⟨he, hstatic⟩ | ⟨_, he⟩ | he
    · cases he
    · cases he
      exact ⟨r, rfl, hstatic⟩
    · cases he
    · cases he

/-- A well-shaped method is refused for an operand only if that is an argument that it does not
have, or a static field. -/
theorem fault_malformed {declaring : TypeName} {m : MethodDef} {fault : OperandFault}
    (h : m.WellShaped) (hfault : m.Fault (a.setting o) o declaring (.malformedOperand fault)) :
    (∃ n : UInt16, m.arity ≤ n.toNat ∧ fault = .noSuchArgument n m.arity) ∨
      ∃ r, fault = .staticField r ∧
        ∃ t f, a.findType r.declaring = some t ∧ t.findField r.name = some f ∧ f.isStatic := by
  rcases hfault.cases with ⟨_, he⟩ | ⟨_, _, _, he⟩ | ⟨_, he⟩ | ⟨body, hbody, i, hi, htargets⟩ |
      ⟨i, hcomes, hselect⟩ | ⟨n, hn, he⟩ | ⟨_, he⟩
  · cases he
  · cases he
  · cases he
  · -- a jump fails for the shape of its operand only
    exact absurd (h body hbody i hi) (targetsOf_eq_error htargets).2
  · rcases hcomes.reached with ⟨body, _, _, hbody, _, horder, _⟩
    have hi : i ∈ body.instructions := horder.subset (by simp)
    exact .inr (select_malformed (h body hbody i hi) hselect)
  · cases he
    exact .inl ⟨n, hn, rfl⟩
  · cases he

theorem noSuchArgument_message (n : UInt16) (count : Nat) :
    (OperandFault.noSuchArgument n count).message = "argument: " ++ ("index " ++
      (toString n.toNat ++ (" is outside the " ++ (toString count ++
        " parameter(s) of the method")))) := by
  have hhead : "argument: index " = "argument: " ++ "index " := by decide
  calc (OperandFault.noSuchArgument n count).message
      = "argument: index " ++ toString n.toNat ++ " is outside the " ++ toString count ++
          " parameter(s) of the method" := rfl
    _ = _ := by rw [hhead, String.append_assoc, String.append_assoc, String.append_assoc,
          String.append_assoc]

theorem staticField_message (r : FieldRef) :
    (OperandFault.staticField r).message =
      "ldfld/stfld: " ++ (r.fullName ++ " is a static field") :=
  String.append_assoc

end Faults

/-- In an assembly that was read from a text, every operand has the shape that its opcode asks for.
No body is refused by the analysis for an operand, and no instruction for the shape of one. A build
fails for an operand only if that is an argument beyond the last of the method, or a static
field. -/
theorem parse_shapes_operands {text : String} {a : Assembly} (h : Listing.parse text = .ok a) :
    (∀ t m body, (t, m) ∈ a.methods → m.body = some body →
      (∀ i ∈ body.instructions, i.operand.kind = i.opcode.operandKind) ∧
      (∀ fault, Schedule.analyze body ≠ .error (.malformedOperand fault)) ∧
      ∀ i ∈ body.instructions, ∀ headerSize opcode offset,
        select a headerSize i ≠ .error (.malformedOperand (.wrongShape opcode offset))) ∧
      ∀ o contexts fault, build a o = .error ⟨contexts, .compile (.malformedOperand fault)⟩ →
        ∃ t m, (t, m) ∈ a.methods ∧ contexts = [.compilingMethod (nameOf (t, m))] ∧
          ((∃ n : UInt16, m.arity ≤ n.toNat ∧ fault = .noSuchArgument n m.arity ∧
              ∃ rest : String, fault.message = "argument: " ++ rest) ∨
            ∃ r, (∃ t f, a.findType r.declaring = some t ∧ t.findField r.name = some f ∧
                f.isStatic) ∧ fault = .staticField r ∧
              ∃ rest : String, fault.message = "ldfld/stfld: " ++ rest) := by
  have hshaped : a.WellShaped := Listing.parse_wellShaped h
  refine ⟨fun t m body hmem hbody => ?_, fun o contexts fault hbuild => ?_⟩
  · have hinstructions : body.WellShaped := hshaped.method hmem body hbody
    refine ⟨hinstructions, analyze_ne_malformed hinstructions, ?_⟩
    intro i hi headerSize opcode offset hselect
    rcases select_malformed (hinstructions i hi) hselect with ⟨_, he, _⟩
    cases he
  · rcases build_error_iff.1 hbuild with ⟨before, t, m, e, hcomes, hstops, hfailure⟩
    cases hfailure
    have hmem : (t, m) ∈ a.methods := hcomes.order.subset (by simp)
    refine ⟨t, m, hmem, rfl, ?_⟩
    rcases hstops with hfault | ⟨_, _, he⟩
    · rcases fault_malformed (hshaped.method hmem) hfault with ⟨n, hn, rfl⟩ | ⟨r, rfl, hstatic⟩
      · exact .inl ⟨n, hn, rfl, _, noSuchArgument_message n m.arity⟩
      · exact .inr ⟨r, hstatic, rfl, _, staticField_message r⟩
    · cases he

/-! ## An argument too far -/

namespace Probe

/-- Its method takes one value and loads a second one. -/
def listing : String :=
  ".assembly Lib\n" ++
  ".class public Lib.Probe\n" ++
  "\x7b\n" ++
  "  .method public static int32 Pick(int32 value)\n" ++
  "  \x7b\n" ++
  "    IL_0000: ldarg value\n" ++
  "    IL_0004: switch (IL_000d)\n" ++
  "    IL_000d: ldarg.1\n" ++
  "    IL_000e: ret\n" ++
  "  \x7d\n" ++
  "\x7d\n"

def picking : MethodBody where
  instructions := [⟨0, .ldarg, .arg 0⟩, ⟨4, .switch, .targets [13]⟩, ⟨13, .ldarg1, .empty⟩,
    ⟨14, .ret, .empty⟩]

def pick : MethodDef where
  name := "Pick"
  result := .int32
  params := [⟨some "value", .int32⟩]
  isPublic := true
  isStatic := true
  body := some picking

def probe : TypeDef where
  name := ⟨none, "Lib", "Probe"⟩
  isPublic := true
  methods := [pick]

def assembly : Assembly where
  name := "Lib"
  types := [probe]

/-- Its operands have their shapes, and the build stops at the second argument. -/
theorem second_argument :
    Listing.parse listing = .ok assembly ∧
      (∀ i ∈ picking.instructions, i.operand.kind = i.opcode.operandKind) ∧
      build assembly {} = .error ⟨[.compilingMethod "System.Int32 Lib.Probe::Pick(System.Int32)"],
        .compile (.malformedOperand (.noSuchArgument 1 1))⟩ ∧
      ∃ t m, (t, m) ∈ assembly.methods ∧ m.arity ≤ (1 : UInt16).toNat := by
  have hread : Listing.parse listing = .ok assembly := by decide +kernel
  have hbuild : build assembly {} =
      .error ⟨[.compilingMethod "System.Int32 Lib.Probe::Pick(System.Int32)"],
        .compile (.malformedOperand (.noSuchArgument 1 1))⟩ := by decide +kernel
  have hshapes := parse_shapes_operands hread
  refine ⟨hread, (hshapes.1 probe pick picking (by simp [Assembly.methods, assembly, probe]) rfl).1,
    hbuild, ?_⟩
  rcases hshapes.2 {} _ _ hbuild with ⟨t, m, hmem, -, ⟨n, hn, hfault, -⟩ | ⟨r, -, hfault, -⟩⟩
  · have hindex : 1 = n := (OperandFault.noSuchArgument.inj hfault).1
    exact ⟨t, m, hmem, hindex ▸ hn⟩
  · cases hfault

end Probe

end CilCompiler
