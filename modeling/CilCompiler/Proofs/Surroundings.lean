import CilCompiler.Proofs.EndMark
import CilCompiler.Proofs.FreeLayout
import CilCompiler.Proofs.Lookahead

/-!
# The surroundings of an instruction

Reading comes to an instruction through the declarations, members and body items before it. What it
reads behind the instruction does not depend on the instruction. So a listing with one operand left
open is read to an assembly with one instruction left open.

* `iterate_map` lets a loop run on a state that already holds something.
* `methodHead` and `typeHead` read up to the body and the members, which are loops.
* `Setting` is what has been read before an instruction. `ComesTo` says that reading comes there.
* `OperandAt` says that a token is the first one of an operand.
* `OperandAt.assembly_eq` is the main result: the listing is read around the instruction.
-/

namespace CilCompiler

variable {σ τ β γ : Type}

deriving instance DecidableEq for Round

deriving instance DecidableEq for Listing.PartialBody, Listing.PartialAssembly

def Round.map (g : σ → τ) (k : β → γ) : Round σ β → Round τ γ
  | .more state => .more (g state)
  | .done result => .done (k result)

namespace Listing

variable {α : Type}

/-! ## Loops that start with something -/

section Map

variable {r : Reader α} {ts us : List Located} (f : α → β)

theorem map_ok {x : α} (h : r ts = .ok (x, us)) : (f <$> r) ts = .ok (f x, us) := by
  change (r ts >>= fun p => .ok (f p.1, p.2)) = _
  rw [h]
  rfl

theorem map_error {e : SyntaxError} (h : r ts = .error e) : (f <$> r) ts = .error e := by
  change (r ts >>= fun p => .ok (f p.1, p.2)) = _
  rw [h]
  rfl

theorem map_refuse (cause : Cause) : f <$> (refuse cause : Reader α) = refuse cause := rfl

theorem map_throw (e : SyntaxError) : f <$> (throw e : Reader α) = throw e := rfl

theorem map_if (c : Prop) [Decidable c] (r s : Reader α) :
    f <$> (if c then r else s) = if c then f <$> r else f <$> s := by
  split <;> rfl

end Map

/-- If the rounds of one loop are the images of those of another, so is its result. -/
theorem iterate_map {step : σ → Reader (Round σ β)} {step' : τ → Reader (Round τ γ)} {g : σ → τ}
    {k : β → γ} (hstep : ∀ state, step' (g state) = Round.map g k <$> step state)
    (stalled : SyntaxError) (state : σ) :
    Parser.iterate stalled step' (g state) =
      (k <$> (Parser.iterate stalled step state : Reader β) : Reader γ) := by
  funext ts
  -- both loops move alike, since the image of a round leaves the same tokens
  induction state, ts using round_induction step with
  | error state ts e hround =>
      have himage : step' (g state) ts = .error e := by rw [hstep, map_error _ hround]
      rw [iterate_error himage, map_error _ (iterate_error hround)]
  | done state ts result rest hround =>
      have himage : step' (g state) ts = .ok (.done (k result), rest) := by
        rw [hstep, map_ok _ hround, Round.map]
      rw [iterate_done himage, map_ok _ (iterate_done hround)]
  | stuck state ts next rest hround hstuck =>
      have himage : step' (g state) ts = .ok (.more (g next), rest) := by
        rw [hstep, map_ok _ hround, Round.map]
      rw [iterate_stalled himage hstuck, map_error _ (iterate_stalled hround hstuck)]
  | more state ts next rest hround hmoved ih =>
      have himage : step' (g state) ts = .ok (.more (g next), rest) := by
        rw [hstep, map_ok _ hround, Round.map]
      have hrest : (Parser.iterate stalled step state : Reader β) ts =
          Parser.iterate stalled step next rest := iterate_more hround hmoved
      rw [iterate_more himage hmoved, ih]
      change _ = ((Parser.iterate stalled step state : Reader β) ts >>= fun p => .ok (k p.1, p.2))
      rw [hrest]
      rfl

/-- The body with instructions in front of its own; they are latest first. -/
def PartialBody.following (earlier : List Instruction) (b : PartialBody) : PartialBody :=
  { b with instructions := b.instructions ++ earlier }

theorem bodyItem_following (args : List (Option String)) (earlier : List Instruction)
    (b : PartialBody) :
    bodyItem args (b.following earlier) =
      Round.map (PartialBody.following earlier)
        (fun done => { done with instructions := earlier.reverse ++ done.instructions }) <$>
          bodyItem args b := by
  unfold bodyItem
  rw [map_bind]
  congr 1
  funext token
  split
  · simp [Round.map, PartialBody.finish, PartialBody.following]
  · simp only [map_if, map_bind, map_pure, map_refuse, Round.map, PartialBody.following,
      List.cons_append]
  · rw [map_refuse]

/-- The type with methods in front of its own; they are latest first. -/
def followingMethods (earlier : List MethodDef) (t : TypeDef) : TypeDef :=
  { t with methods := t.methods ++ earlier }

theorem member_following (earlier : List MethodDef) (t : TypeDef) :
    member (followingMethods earlier t) =
      Round.map (followingMethods earlier)
        (fun done => { done with methods := earlier.reverse ++ done.methods }) <$> member t := by
  unfold member
  rw [map_bind]
  congr 1
  funext token
  split
  · simp [Round.map, followingMethods]
  · simp only [map_if, map_bind, map_pure, map_refuse, Round.map, followingMethods,
      List.cons_append]
  · rw [map_refuse]
    rfl

/-- The listing with types in front of its own; they are latest first. -/
def PartialAssembly.following (earlier : List TypeDef) (a : PartialAssembly) : PartialAssembly :=
  { a with types := a.types ++ earlier }

theorem declaration_following (earlier : List TypeDef) (a : PartialAssembly) :
    declaration (a.following earlier) =
      Round.map (PartialAssembly.following earlier)
        (fun done => { done with types := earlier.reverse ++ done.types }) <$> declaration a := by
  unfold declaration
  rw [map_bind]
  congr 1
  funext token
  split
  · cases hname : a.name with
    | none =>
        simp [PartialAssembly.following, hname, map_throw]
    | some name =>
        simp [Round.map, PartialAssembly.following, hname]
  · simp only [map_if, map_bind, map_pure, map_refuse, Round.map, PartialAssembly.following,
      List.cons_append]
  · rw [map_refuse]

/-! ## Labels -/

theorem hasLabelMark_of_readLabel? {word : String} {offset : UInt32}
    (h : Text.readLabel? word = some offset) : Text.hasLabelMark word = true := by
  unfold Text.readLabel? at h
  unfold Text.hasLabelMark
  split at h
  · next digits hword =>
      rw [hword]
      rfl
  · cases h

theorem ne_of_hasLabelMark {word directive : String} (h : Text.hasLabelMark word = true)
    (hdirective : Text.hasLabelMark directive = false) : word ≠ directive := by
  rintro rfl
  rw [h] at hdirective
  cases hdirective

/-! ## Heads of methods and types -/

/-- What a method says before its body. -/
structure MethodHead where
  words : List String
  result : TypeSig
  name : String
  params : List Param
  deriving DecidableEq

def MethodHead.isStatic (head : MethodHead) : Bool :=
  decide ("static" ∈ head.words)

/-- The names of the arguments; an instance method has a receiver before them. -/
def MethodHead.argNames (head : MethodHead) : List (Option String) :=
  Listing.argNames head.isStatic head.params

def MethodHead.method (head : MethodHead) (body : Option MethodBody) : MethodDef :=
  { name := head.name, result := head.result, params := head.params,
    isPublic := "public" ∈ head.words, isStatic := head.isStatic,
    isVirtual := "virtual" ∈ head.words, body }

def methodHead : Reader MethodHead := do
  let words ← attributes methodWords
  let result ← typeSig
  let name ← expectName
  let params ← inParens param
  let _ ← attributes implementationWords
  return { words, result, name, params }

theorem methodDef_eq : methodDef = (do
    let head ← methodHead
    let body ← if (← peek) = .punct '\x7b' then some <$> body head.argNames else pure none
    return head.method body) := by
  simp only [methodDef, methodHead, bind_assoc, pure_bind]
  rfl

/-- What a type says before its members. -/
def typeHead : Reader TypeDef := do
  let words ← attributes classWords
  let name := TypeName.ofDotted none (← expectName)
  if ← acceptWord "extends" then
    let _ ← typeName
  expectPunct '\x7b'
  return { name, isPublic := "public" ∈ words, isExplicit := "explicit" ∈ words }

theorem typeDef_eq : typeDef = typeHead >>= loop member := by
  simp only [typeDef, typeHead, bind_assoc]
  congr 1
  funext words
  congr 1
  funext name
  congr 1
  funext extended
  split <;> simp only [bind_assoc, pure_bind]

section Heads

variable {P : ∀ {α : Type}, Reader α → Prop}

theorem Hereditary.methodHead (h : Hereditary P) : P methodHead :=
  h.bind (h.attributes _) fun _ => h.bind h.typeSig fun _ => h.bind h.expectName fun _ =>
    h.bind (h.inParens h.param hereditary_safe.param) fun _ =>
      h.bind (h.attributes _) fun _ => h.pure _

theorem Hereditary.typeHead (h : Hereditary P) : P typeHead := by
  refine h.bind (h.attributes _) fun _ => h.bind h.expectName fun _ =>
    h.bind (h.accept _) fun extended => ?_
  split
  · exact h.bind h.typeName fun _ => h.bind (h.expectPunct _) fun _ => h.pure _
  · exact h.bind (h.expectPunct _) fun _ => h.pure _

end Heads

/-! ## Leaving a round -/

section Leave

variable {step : σ → Reader (Round σ β)} {inner : Reader γ} {add : γ → σ} {fresh : σ}
  {k : γ → β → β} {state last : σ} {ts us vs : List Located} {positions : List (List Located)}

theorem Marked.tail {t : Located} (h : Marked (t :: ts)) (ht : t.token ≠ .endOfInput) :
    Marked ts := by
  rcases marked_cons_iff.1 h with ⟨hmark, -⟩ | ⟨-, hts⟩
  · exact absurd hmark ht
  · exact hts

theorem Marked.of_append {front : List Located} (h : Marked (front ++ ts)) (hts : ts ≠ []) :
    Marked ts := by
  induction front with
  | nil =>
      exact h
  | cons t front ih =>
      rcases marked_cons_iff.1 h with ⟨-, hnil⟩ | ⟨-, hrest⟩
      · exact absurd (List.append_eq_nil_iff.1 hnil).2 hts
      · exact ih hrest

theorem Rounds.marked (hsafe : ∀ state, Safe (step state)) (hts : Marked ts)
    (h : Rounds step state ts positions last us) : Marked us := by
  induction h with
  | refl state ts =>
      exact hts
  | @more state next last ts rest us positions round _ _ ih =>
      exact ih ((hsafe state ts hts).rest _ rest round).marked

/-- A loop that always moves never gives the error for loops that stall. -/
theorem iterate_stalled_irrelevant (hsafe : ∀ state, Safe (step state)) (hmoves : Progresses step)
    (stalled stalled' : SyntaxError) (state : σ) (hts : Marked ts) :
    Parser.iterate stalled step state ts = Parser.iterate stalled' step state ts := by
  induction state, ts using round_induction step with
  | error state ts e hround =>
      rw [iterate_error hround, iterate_error hround]
  | done state ts result rest hround =>
      rw [iterate_done hround, iterate_done hround]
  | stuck state ts next rest hround hstuck =>
      exact absurd (hmoves state ts hts next rest hround) hstuck
  | more state ts next rest hround hmoved ih =>
      have hrest := ((hsafe state ts hts).rest _ rest hround).marked
      rw [iterate_more hround hmoved, iterate_more hround hmoved, ih hrest]

/-- A loop can be entered at any position that it comes to. -/
theorem Rounds.loop_eq (hsafe : ∀ state, Safe (step state)) (hmoves : Progresses step)
    (hts : Marked ts) (h : Rounds step state ts positions last us) :
    loop step state ts = loop step last us := by
  unfold loop
  rw [h.iterate_eq]
  exact iterate_stalled_irrelevant hsafe hmoves _ _ last (h.marked hsafe hts)

/-- Readers that give the same at two positions can be followed by the same. -/
theorem bind_eq_bind {r r' : Reader α} (f : α → Reader β) (h : r us = r' vs) :
    (r >>= f) us = (r' >>= f) vs := by
  change (r us >>= fun p => f p.1 p.2) = (r' vs >>= fun p => f p.1 p.2)
  rw [h]

/-- If a round reads one thing and adds it to the state, the loop reads this thing and then goes on
as if it had not yet begun. -/
theorem loop_inner (hsafe : ∀ state, Safe (step state)) (hmoves : Progresses step) (hus : Marked us)
    (hround : step last us = ((fun x => .more (add x)) <$> inner) vs)
    (hfresh : ∀ x stalled, Parser.iterate stalled step (add x) =
      (k x <$> (Parser.iterate stalled step fresh : Reader β) : Reader β)) :
    loop step last us = (inner >>= fun x => k x <$> loop step fresh) vs := by
  unfold loop
  cases hinner : inner vs with
  | error e =>
      rw [map_error _ hinner] at hround
      rw [iterate_error hround]
      change _ = inner vs >>= _
      rw [hinner]
      rfl
  | ok p =>
      rcases p with ⟨x, rest⟩
      rw [map_ok _ hinner] at hround
      have hrest := ((hsafe last us hus).rest _ rest hround).marked
      rw [run_bind hinner, iterate_more hround (hmoves last us hus _ rest hround),
        iterate_stalled_irrelevant hsafe hmoves _ ⟨currentLine rest, .stalled⟩ _ hrest, hfresh]
      rfl

end Leave

theorem iterate_bodyItem_cons (args : List (Option String)) (b : PartialBody) (i : Instruction)
    (stalled : SyntaxError) :
    Parser.iterate stalled (bodyItem args) { b with instructions := i :: b.instructions } =
      ((fun done =>
          { done with instructions := b.instructions.reverse ++ i :: done.instructions }) <$>
        (Parser.iterate stalled (bodyItem args) { b with instructions := [] } :
          Reader MethodBody) : Reader MethodBody) := by
  have hmap := iterate_map (bodyItem_following args (i :: b.instructions)) stalled
    { b with instructions := [] }
  simpa only [PartialBody.following, List.nil_append, List.reverse_cons, List.append_assoc,
    List.cons_append] using hmap

theorem iterate_member_cons (t : TypeDef) (m : MethodDef) (stalled : SyntaxError) :
    Parser.iterate stalled member { t with methods := m :: t.methods } =
      ((fun done => { done with methods := t.methods.reverse ++ m :: done.methods }) <$>
        (Parser.iterate stalled member { t with methods := [] } : Reader TypeDef) :
          Reader TypeDef) := by
  have hmap := iterate_map (member_following (m :: t.methods)) stalled { t with methods := [] }
  simpa only [followingMethods, List.nil_append, List.reverse_cons, List.append_assoc,
    List.cons_append] using hmap

theorem iterate_declaration_cons (a : PartialAssembly) (t : TypeDef) (stalled : SyntaxError) :
    Parser.iterate stalled declaration { a with types := t :: a.types } =
      ((fun done => { done with types := a.types.reverse ++ t :: done.types }) <$>
        (Parser.iterate stalled declaration { a with types := [] } : Reader Assembly) :
          Reader Assembly) := by
  have hmap := iterate_map (declaration_following (t :: a.types)) stalled { a with types := [] }
  simpa only [PartialAssembly.following, List.nil_append, List.reverse_cons, List.append_assoc,
    List.cons_append] using hmap

/-! ## Coming to an instruction -/

/-- What has been read when reading stands in a body: the declarations before the type, the members
before the method, the head of the method and the items before. -/
structure Setting where
  assembly : PartialAssembly
  type : TypeDef
  head : MethodHead
  body : PartialBody

/-- The names that an instruction can use here. -/
def Setting.scope (here : Setting) : Scope :=
  ⟨here.head.argNames, here.body.locals.map Prod.snd⟩

/-- Reading the listing `ts` comes to `us`, and `here` is what it has read before. The items of the
body start at the positions `items`. -/
inductive ComesTo (ts : List Located) (here : Setting) (items : List (List Located))
    (us : List Located) : Prop
  | intro {first : TypeDef} {declarations members : List (List Located)}
      {cls method brace : Located} {atHead atMembers atMethod atItems : List Located}
      (declared : Rounds declaration {} ts declarations here.assembly (cls :: atHead))
      (hcls : cls.token = .ident ".class")
      (typed : typeHead atHead = .ok (first, atMembers))
      (gathered : Rounds member first atMembers members here.type (method :: atMethod))
      (hmethod : method.token = .ident ".method")
      (headed : methodHead atMethod = .ok (here.head, brace :: atItems))
      (hbrace : brace.token = .punct '\x7b')
      (itemized : Rounds (bodyItem here.head.argNames) {} atItems items here.body us)

/-- What is read behind an instruction: the later items of its body, the later members of its type
and the later declarations. -/
structure Later where
  body : MethodBody
  type : TypeDef
  assembly : Assembly

/-- Reads from behind an instruction to the end of the listing. -/
def Setting.later (here : Setting) : Reader Later := do
  let body ← loop (bodyItem here.head.argNames) { here.body with instructions := [] }
  let type ← loop member { here.type with methods := [] }
  let assembly ← loop declaration { here.assembly with types := [] }
  return { body, type, assembly }

/-- The assembly with the whole body of the method, between what is read before and behind it. -/
def Setting.complete (here : Setting) (body : MethodBody) (type : TypeDef) (assembly : Assembly) :
    Assembly :=
  let whole := { type with
    methods := here.type.methods.reverse ++ here.head.method (some body) :: type.methods }
  { assembly with types := here.assembly.types.reverse ++ whole :: assembly.types }

/-- The assembly with the instruction between what is read before and behind it. -/
def Setting.enclose (here : Setting) (later : Later) (i : Instruction) : Assembly :=
  let body := { later.body with
    instructions := here.body.instructions.reverse ++ i :: later.body.instructions }
  here.complete body later.type later.assembly

section Tokens

variable {t : Located} {ts us : List Located}

theorem accept_of_token {token : Token} (h : t.token = token) (hne : token ≠ .endOfInput) :
    accept token (t :: ts) = .ok (true, ts) := by
  unfold accept
  rw [advance_eq_tail (h ▸ hne)]
  exact if_pos h

theorem expect_of_token {what : Expected} {token : Token} (h : t.token = token)
    (hne : token ≠ .endOfInput) : expect what token (t :: ts) = .ok ((), ts) := by
  unfold expect
  rw [run_bind (accept_of_token h hne)]
  rfl

theorem expectName_of_token {word : String} (h : t.token = .ident word) :
    expectName (t :: ts) = .ok (word, ts) := by
  have hcurrent : current (t :: ts) = .ident word := h
  unfold expectName
  rw [peek_bind, hcurrent]
  change (take >>= fun _ => pure word) (t :: ts) = _
  rw [take_bind, advance_eq_tail (by simp [h])]
  rfl

theorem declaration_class (a : PartialAssembly) (h : t.token = .ident ".class") :
    declaration a (t :: ts) =
      ((fun d => .more { a with types := d :: a.types }) <$> typeDef) ts := by
  have hcurrent : current (t :: ts) = .ident ".class" := h
  have htail : advance (t :: ts) = ts := advance_eq_tail (by simp [h])
  unfold declaration
  rw [peek_bind, hcurrent]
  simp only [String.reduceEq, reduceIte]
  rw [take_bind, htail, map_eq_pure_bind]

theorem member_method (owner : TypeDef) (h : t.token = .ident ".method") :
    member owner (t :: ts) =
      ((fun m => .more { owner with methods := m :: owner.methods }) <$> methodDef) ts := by
  have hcurrent : current (t :: ts) = .ident ".method" := h
  have htail : advance (t :: ts) = ts := advance_eq_tail (by simp [h])
  unfold member
  rw [peek_bind, hcurrent]
  simp only [String.reduceEq, reduceIte]
  rw [take_bind, htail, map_eq_pure_bind]

theorem typeDef_of_typeHead {first : TypeDef} (h : typeHead ts = .ok (first, us)) :
    typeDef ts = loop member first us := by
  rw [typeDef_eq, run_bind h]

theorem methodDef_of_methodHead {head : MethodHead} (h : methodHead ts = .ok (head, t :: us))
    (hbrace : t.token = .punct '\x7b') :
    methodDef ts = ((fun b => head.method (some b)) <$> loop (bodyItem head.argNames) {}) us := by
  have hcurrent : current (t :: us) = .punct '\x7b' := hbrace
  have hopen : expectPunct '\x7b' (t :: us) = .ok ((), us) := expect_of_token hbrace nofun
  rw [methodDef_eq, run_bind h, peek_bind, hcurrent, if_pos rfl]
  simp only [map_eq_pure_bind, bind_assoc, pure_bind, body]
  rw [run_bind hopen]

/-- A labelled instruction is read up to its operand, and then the operand decides. -/
theorem bodyItem_instruction {mark colon word : Located} {label mnemonic : String} {offset : UInt32}
    {opcode : Opcode} (args : List (Option String)) (b : PartialBody) (ts : List Located)
    (hmark : mark.token = .ident label) (hlabel : Text.readLabel? label = some offset)
    (hcolon : colon.token = .punct ':') (hword : word.token = .ident mnemonic)
    (hopcode : Opcode.ofMnemonic? mnemonic = some opcode) :
    bodyItem args b (mark :: colon :: word :: ts) =
      ((fun o => .more { b with instructions := ⟨offset, opcode, o⟩ :: b.instructions }) <$>
        operand ⟨args, b.locals.map Prod.snd⟩ word.line opcode.operandKind) ts := by
  have hcurrent : current (mark :: colon :: word :: ts) = .ident label := hmark
  have hread : Listing.label (mark :: colon :: word :: ts) = .ok (offset, colon :: word :: ts) := by
    unfold Listing.label
    rw [run_bind (expectName_of_token hmark), hlabel]
    rfl
  have hexpect : expectPunct ':' (colon :: word :: ts) = .ok ((), word :: ts) :=
    expect_of_token hcolon nofun
  have hmarked : Text.hasLabelMark label = true := hasLabelMark_of_readLabel? hlabel
  unfold bodyItem
  rw [peek_bind, hcurrent]
  -- a label is none of the directives
  dsimp only
  rw [if_neg (ne_of_hasLabelMark hmarked rfl), if_neg (ne_of_hasLabelMark hmarked rfl),
    if_neg (ne_of_hasLabelMark hmarked rfl), if_neg (ne_of_hasLabelMark hmarked rfl),
    if_pos hmarked, run_bind hread, run_bind hexpect]
  unfold instruction
  rw [bind_assoc, line_bind, bind_assoc, run_bind (expectName_of_token hword), hopcode]
  simp only [map_eq_pure_bind, bind_assoc, pure_bind]
  rfl

end Tokens

/-! ## Reading around an instruction -/

section Around

variable {ts us : List Located} {here : Setting} {items : List (List Located)}

/-- Reading goes on at a position that it comes to, with what it has read before. -/
theorem ComesTo.assembly_eq (h : ComesTo ts here items us) (hts : Marked ts) :
    assembly ts = (do
      let body ← loop (bodyItem here.head.argNames) here.body
      let type ← loop member { here.type with methods := [] }
      let assembly ← loop declaration { here.assembly with types := [] }
      return here.complete body type assembly) us := by
  rcases h with ⟨declared, hcls, typed, gathered, hmethod, headed, hbrace, itemized⟩
  next first declarations members cls method brace atHead atMembers atMethod atItems =>
  -- reading stays within the tokens on its way
  have hsafe := hereditary_safe.declaration safe_instruction
  have hsafe' := hereditary_safe.member safe_instruction
  have hsafe'' := hereditary_safe.bodyItem safe_instruction here.head.argNames
  have hatClass : Marked (cls :: atHead) := declared.marked hsafe hts
  have hatHead : Marked atHead := hatClass.tail (by simp [hcls])
  have hatMembers : Marked atMembers :=
    (hereditary_safe.typeHead atHead hatHead |>.rest _ _ typed).marked
  have hatMember : Marked (method :: atMethod) := gathered.marked hsafe' hatMembers
  have hatMethod : Marked atMethod := hatMember.tail (by simp [hmethod])
  have hatBrace : Marked (brace :: atItems) :=
    (hereditary_safe.methodHead atMethod hatMethod |>.rest _ _ headed).marked
  have hatItems : Marked atItems := hatBrace.tail (by simp [hbrace])
  -- from the inside out: the body, the type and the listing
  have hbody : methodDef atMethod =
      ((fun b => here.head.method (some b)) <$>
        loop (bodyItem here.head.argNames) here.body) us := by
    rw [methodDef_of_methodHead headed hbrace, map_eq_pure_bind, map_eq_pure_bind]
    exact bind_eq_bind _ (itemized.loop_eq hsafe'' (progresses_bodyItem _) hatItems)
  have htype : typeDef atHead =
      (methodDef >>= fun m =>
        (fun done => { done with methods := here.type.methods.reverse ++ m :: done.methods }) <$>
          loop member { here.type with methods := [] }) atMethod := by
    rw [typeDef_of_typeHead typed, gathered.loop_eq hsafe' progresses_member hatMembers]
    exact loop_inner hsafe' progresses_member hatMember (member_method here.type hmethod)
      fun m stalled => iterate_member_cons here.type m stalled
  have hlisting : assembly ts =
      (typeDef >>= fun t =>
        (fun done => { done with types := here.assembly.types.reverse ++ t :: done.types }) <$>
          loop declaration { here.assembly with types := [] }) atHead := by
    unfold assembly
    rw [declared.loop_eq hsafe progresses_declaration hts]
    exact loop_inner hsafe progresses_declaration hatClass (declaration_class here.assembly hcls)
      fun t stalled => iterate_declaration_cons here.assembly t stalled
  rw [hlisting, bind_eq_bind _ htype, bind_assoc, bind_eq_bind _ hbody]
  simp only [map_eq_pure_bind, bind_assoc, pure_bind]
  rfl

/-- What stands behind the next two tokens does not matter for coming there. -/
theorem ComesTo.exchange (h : ComesTo ts here items us) :
    ∃ front, ts = front ++ us ∧ ∀ vs, vs.take 2 = us.take 2 →
      ∃ items', ComesTo (front ++ vs) here items' vs := by
  rcases h with ⟨declared, hcls, typed, gathered, hmethod, headed, hbrace, itemized⟩
  next first declarations members cls method brace atHead atMembers atMethod atItems =>
  have hsight := hereditary_shortsighted
  have hsees := shortsighted_instruction
  rcases itemized.exchange (hsight.bodyItem hsees _) with ⟨inBody, rfl, hbody⟩
  rcases hsight.methodHead _ _ _ headed with ⟨inHead, rfl, hhead⟩
  rcases gathered.exchange (hsight.member hsees) with ⟨inType, rfl, htype⟩
  rcases hsight.typeHead _ _ _ typed with ⟨inTypeHead, rfl, htypeHead⟩
  rcases declared.exchange (hsight.declaration hsees) with ⟨before, rfl, hbefore⟩
  refine ⟨before ++ cls :: (inTypeHead ++ (inType ++ method :: (inHead ++ brace :: inBody))),
    by simp only [List.append_assoc, List.cons_append], fun vs hvs => ?_⟩
  -- the two next tokens are the same at every position on the way
  have hatBrace := take_two_append (brace :: inBody) hvs
  have hatMethod := take_two_append (method :: inHead) hatBrace
  have hatMembers := take_two_append inType hatMethod
  have hatClass := take_two_append (cls :: inTypeHead) hatMembers
  simp only [List.append_assoc, List.cons_append] at hatBrace hatMethod hatMembers hatClass ⊢
  rcases hbody vs hvs with ⟨items', hitems⟩
  rcases htype _ hatMethod with ⟨members', hmembers⟩
  rcases hbefore _ hatClass with ⟨declarations', hdeclarations⟩
  exact ⟨items', hdeclarations, hcls, htypeHead _ hatMembers, hmembers, hmethod, hhead _ hatBrace,
    hbrace, hitems⟩

/-- In the listing `front ++ t :: rest`, the operand of an instruction with this offset and opcode
starts with the token `t`, and `here` is what is read before the instruction. -/
inductive OperandAt (front : List Located) (t : Located) (rest : List Located) (here : Setting)
    (items : List (List Located)) (offset : UInt32) (opcode : Opcode) : Prop
  | intro {before : List Located} {mark colon word : Located} {label mnemonic : String}
      (hfront : front = before ++ [mark, colon, word])
      (hmark : mark.token = .ident label) (hlabel : Text.readLabel? label = some offset)
      (hcolon : colon.token = .punct ':')
      (hword : word.token = .ident mnemonic) (hopcode : Opcode.ofMnemonic? mnemonic = some opcode)
      (reached : ComesTo (front ++ t :: rest) here items (mark :: colon :: word :: t :: rest))

variable {front rest : List Located} {t : Located} {offset : UInt32} {opcode : Opcode}

/-- Another token in the place of the operand does not change how reading comes there. -/
theorem OperandAt.exchange (h : OperandAt front t rest here items offset opcode) (u : Located) :
    ∃ items', OperandAt front u rest here items' offset opcode := by
  rcases h with ⟨hfront, hmark, hlabel, hcolon, hword, hopcode, reached⟩
  next before mark colon word label mnemonic =>
  rcases reached.exchange with ⟨before', hts, hexchange⟩
  -- the label, the colon and the mnemonic are left, so two tokens stay the same
  have hbefore : before' = before := by
    rw [hfront, List.append_assoc] at hts
    exact (List.append_cancel_right hts).symm
  rcases hexchange (mark :: colon :: word :: u :: rest) rfl with ⟨items', hreached⟩
  refine ⟨items', hfront, hmark, hlabel, hcolon, hword, hopcode, ?_⟩
  rw [hfront, List.append_assoc, ← hbefore]
  exact hreached

/-- The listing is read by reading the operand and what stands behind it; the instruction stands
between what is read before and behind. -/
theorem OperandAt.assembly_eq (h : OperandAt front t rest here items offset opcode)
    (hmarked : Marked (front ++ t :: rest)) :
    ∃ line, assembly (front ++ t :: rest) = (do
      let o ← operand here.scope line opcode.operandKind
      return here.enclose (← here.later) ⟨offset, opcode, o⟩) (t :: rest) := by
  rcases h with ⟨hfront, hmark, hlabel, hcolon, hword, hopcode, reached⟩
  next before mark colon word label mnemonic =>
  have hsafe := hereditary_safe.bodyItem safe_instruction here.head.argNames
  have hplace : Marked (mark :: colon :: word :: t :: rest) := by
    rw [hfront, List.append_assoc] at hmarked
    exact hmarked.of_append (List.cons_ne_nil _ _)
  have hitem := bodyItem_instruction here.head.argNames here.body (t :: rest) hmark hlabel hcolon
    hword hopcode
  -- the loop over the items is left at the instruction and entered again behind it
  refine ⟨word.line, ?_⟩
  rw [reached.assembly_eq hmarked]
  rw [bind_eq_bind _ (loop_inner hsafe (progresses_bodyItem _) hplace hitem fun o stalled =>
    iterate_bodyItem_cons here.head.argNames here.body ⟨offset, opcode, o⟩ stalled)]
  simp only [Setting.later, map_eq_pure_bind, bind_assoc, pure_bind]
  rfl

/-- An operand of one token that can be read gives the instruction. -/
theorem OperandAt.parse_of_ok {text : String} {o : Operand}
    (h : OperandAt front t rest here items offset opcode)
    (hscan : scan text = .ok (front ++ t :: rest))
    (ho : ∀ line, operand here.scope line opcode.operandKind (t :: rest) = .ok (o, rest)) :
    parse text =
      (here.later rest).map fun later => here.enclose later.1 ⟨offset, opcode, o⟩ := by
  rcases h.assembly_eq (marked_of_scan hscan) with ⟨line, heq⟩
  rw [parse_of_scan hscan, heq, run_bind (ho line)]
  change (here.later rest >>= fun later => .ok (_, later.2)).map Prod.fst = _
  cases here.later rest with
  | error e =>
      rfl
  | ok later =>
      rfl

/-- An operand that cannot be read is what the listing is refused for. -/
theorem OperandAt.parse_of_error {text : String} {e : SyntaxError}
    (h : OperandAt front t rest here items offset opcode)
    (hscan : scan text = .ok (front ++ t :: rest))
    (ho : ∀ line, operand here.scope line opcode.operandKind (t :: rest) = .error e) :
    parse text = .error e := by
  rcases h.assembly_eq (marked_of_scan hscan) with ⟨line, heq⟩
  rw [parse_of_scan hscan, heq]
  change Except.map Prod.fst (operand here.scope line opcode.operandKind (t :: rest) >>= _) = _
  rw [ho line]
  rfl

end Around

/-- The method has the instructions before it, the instruction and those behind it. -/
theorem Setting.method_mem_enclose (here : Setting) (later : Later) (i : Instruction) :
    ∃ t body, (t, here.head.method (some body)) ∈ (here.enclose later i).methods ∧
      t.name = later.type.name ∧
      body.instructions = here.body.instructions.reverse ++ i :: later.body.instructions := by
  let body := { later.body with
    instructions := here.body.instructions.reverse ++ i :: later.body.instructions }
  let type := { later.type with
    methods := here.type.methods.reverse ++ here.head.method (some body) :: later.type.methods }
  refine ⟨type, body, ?_, rfl, rfl⟩
  refine List.mem_flatMap.2 ⟨type, ?_, List.mem_map.2 ⟨_, ?_, rfl⟩⟩
  · exact List.mem_append_right _ (.head _)
  · exact List.mem_append_right _ (.head _)

/-- The instruction stands in the body of a method, behind the instructions before it. -/
theorem Setting.mem_enclose (here : Setting) (later : Later) (i : Instruction) :
    ∃ t m body, (t, m) ∈ (here.enclose later i).methods ∧ m.body = some body ∧
      body.instructions[here.body.instructions.length]? = some i := by
  rcases here.method_mem_enclose later i with ⟨t, body, hmem, -, hinstructions⟩
  refine ⟨t, here.head.method (some body), body, hmem, rfl, ?_⟩
  rw [hinstructions, ← List.length_reverse, List.getElem?_append_right (Nat.le_refl _),
    Nat.sub_self]
  rfl

end Listing

end CilCompiler
