import CilCompiler.Proofs.Literals

/-!
# Storage by name and by number

An instruction gives an argument or a local variable by its number or by its name. A name stands for
the position of its first declaration, counted in sixteen bits. A listing can also write a number
before a local variable, which ought to be the slot of the variable. The parser reads the number and
drops it, and this is a defect: the name and the number mean two variables unless the number is the
position.

* `LocalRow` is a row of a `.locals` directive with the number that it may have; `rowsAt` are the
  rows of the directive at some position.
* `declaredNames` are the names that have been declared before an instruction.
* `parse_of_name` and `parse_of_number` read a listing around an operand of either form.
* `Accesses` says which variable an instruction loads or stores, and `accesses_same_iff` when it is
  the variable of a short form.
* `Numbered` rows have numbers of their own, which leave room for no more than sixteen bits of them.
* `parse_declared_local` says when the number of a row is honoured, and `Swapped` has two rows whose
  numbers are not.
-/

namespace CilCompiler.Listing

variable {α β : Type}

/-! ## Declared local variables -/

/-- A row of a `.locals` directive. -/
structure LocalRow where
  number : Option Int64
  type : TypeSig
  name : Option String
  deriving DecidableEq

/-- What is kept of a row. -/
def LocalRow.kept (row : LocalRow) : TypeSig × Option String :=
  (row.type, row.name)

/-- A number in brackets, if there is one. -/
def slotNumber : Reader (Option Int64) := do
  if ← acceptPunct '[' then
    let n ← expectInt
    expectPunct ']'
    return some n
  else return none

def localRow : Reader LocalRow := do
  let number ← slotNumber
  let type ← typeSig
  return { number, type, name := ← optionalName }

theorem localVariable_eq : localVariable = LocalRow.kept <$> localRow := by
  simp only [localVariable, localRow, slotNumber, map_bind, map_pure, bind_assoc]
  congr 1
  funext numbered
  split <;> simp only [bind_assoc, pure_bind, LocalRow.kept]

theorem loop_map {σ τ : Type} {step : σ → Reader (Round σ α)} {step' : τ → Reader (Round τ β)}
    {g : σ → τ} {k : α → β} (hstep : ∀ state, step' (g state) = Round.map g k <$> step state)
    (state : σ) : loop step' (g state) = k <$> loop step state := by
  funext ts
  unfold loop
  rw [iterate_map hstep]
  rfl

/-- A list of things that are read and then changed is read and then changed. -/
theorem inParens_map (f : α → β) (item : Reader α) :
    inParens (f <$> item) = List.map f <$> inParens item := by
  have hround : ∀ seen, commaRound (f <$> item) (seen.map f) =
      Round.map (List.map f) (List.map f) <$> commaRound item seen := by
    intro seen
    simp only [commaRound, map_bind, bind_map_left, map_if, map_pure, Round.map, List.map_cons,
      List.map_reverse]
  have hlist : commaSeparated (f <$> item) = List.map f <$> commaSeparated item :=
    loop_map hround []
  unfold inParens
  simp only [map_bind, hlist]
  congr 1
  funext _
  congr 1
  funext token
  split <;> simp

/-- The rows of a `.locals` directive, behind its first word. -/
def localRows : Reader (List LocalRow) := do
  let _ ← acceptWord "init"
  inParens localRow

/-- The rows of the `.locals` directive at the front, if there is one. -/
def rowsAt (ts : List Located) : List LocalRow :=
  if current ts = .ident ".locals" then
    match localRows (advance ts) with
    | .ok (rows, _) => rows
    | .error _ => []
  else []

/-- An item of a body adds its rows to the local variables. -/
theorem bodyItem_locals {args : List (Option String)} {b next : PartialBody}
    {ts rest : List Located} (h : bodyItem args b ts = .ok (.more next, rest)) :
    next.locals = b.locals ++ (rowsAt ts).map LocalRow.kept := by
  unfold bodyItem at h
  rw [peek_bind] at h
  by_cases hlocals : current ts = .ident ".locals"
  · rw [hlocals] at h
    simp only [String.reduceEq, reduceIte, localVariable_eq, inParens_map, take_bind] at h
    rcases bind_eq_ok h with ⟨accepted, us, haccept, h⟩
    rcases bind_eq_ok h with ⟨kept, us', hkept, hnext⟩
    rw [map_eq_pure_bind] at hkept
    rcases bind_eq_ok hkept with ⟨rows, us'', hrows, hmap⟩
    cases hmap
    cases hnext
    -- the directive is read in the same way with the numbers of its rows
    have hread : localRows (advance ts) = .ok (rows, rest) := by
      unfold localRows
      rw [run_bind haccept]
      exact hrows
    simp only [rowsAt, if_pos hlocals, hread]
  · -- no other item declares anything
    have hsame : ∀ r : Reader (Round PartialBody MethodBody),
        Ensures (RoundOf (·.locals = b.locals) fun _ => True) r →
          r ts = .ok (.more next, rest) → next.locals = b.locals :=
      fun r hr hrun => hr ts _ rest hrun
    rw [rowsAt, if_neg hlocals, List.map_nil, List.append_nil]
    refine hsame _ ?_ h
    split
    · exact .after fun _ => .pure trivial
    · next word hword =>
        split
        · exact .after fun _ => .after fun _ => .pure rfl
        split
        · exact .after fun _ => .pure rfl
        split
        · next heq =>
            exact absurd (heq ▸ hword) hlocals
        split
        · exact .after fun _ => .after fun _ => .pure rfl
        split
        · exact .after fun _ => .after fun _ => .after fun _ => .pure rfl
        · exact .refuse
    · exact .refuse

/-- The local variables of a body are those of all rows before, in their order. -/
theorem Rounds.locals_eq {args : List (Option String)} {b b' : PartialBody}
    {ts us : List Located} {items : List (List Located)}
    (h : Rounds (bodyItem args) b ts items b' us) :
    b'.locals = b.locals ++ (items.flatMap rowsAt).map LocalRow.kept := by
  induction h with
  | refl b ts =>
      simp
  | more round _ _ ih =>
      rw [ih, bodyItem_locals round, List.flatMap_cons, List.map_append, List.append_assoc]

/-! ## Names in scope -/

/-- The name is declared at position `i`, and nowhere before. -/
def FirstAt (names : List (Option String)) (name : String) (i : Nat) : Prop :=
  names[i]? = some (some name) ∧ ∀ j < i, names[j]? ≠ some (some name)

theorem findIdx?_of_firstAt {names : List (Option String)} {name : String} {i : Nat}
    (h : FirstAt names name i) : names.findIdx? (· == some name) = some i := by
  rcases h with ⟨hget, hbefore⟩
  rcases List.getElem?_eq_some_iff.1 hget with ⟨hlt, hname⟩
  refine List.findIdx?_eq_some_iff_getElem.2 ⟨hlt, by simp [hname], fun j hj => ?_⟩
  have hne := hbefore j hj
  rw [List.getElem?_eq_getElem (Nat.lt_trans hj hlt)] at hne
  simpa using hne

/-- The names of the arguments of a method, or of the local variables that the items have declared.
An instance method has a receiver without a name before its parameters. -/
def declaredNames (head : MethodHead) (items : List (List Located)) :
    SlotClass → List (Option String)
  | .argument => (if head.isStatic then [] else [none]) ++ head.params.map Param.name
  | .variableSlot => (items.flatMap rowsAt).map LocalRow.name

def Scope.names (scope : Scope) : SlotClass → List (Option String)
  | .argument => scope.args
  | .variableSlot => scope.locals

/-- The shape of an operand that gives a place of storage. -/
def operandKindOf : SlotClass → OperandKind
  | .argument => .arg
  | .variableSlot => .loc

/-- The operand that gives the place of storage with this number. -/
def slotOperand : SlotClass → UInt16 → Operand
  | .argument, index => .arg index
  | .variableSlot, index => .loc index

theorem ComesTo.names_eq {ts us : List Located} {here : Setting} {items : List (List Located)}
    (h : ComesTo ts here items us) (slots : SlotClass) :
    here.scope.names slots = declaredNames here.head items slots := by
  cases slots with
  | argument =>
      rfl
  | variableSlot =>
      rcases h with ⟨-, -, -, -, -, -, -, itemized⟩
      have hlocals := itemized.locals_eq
      change here.body.locals.map Prod.snd = (items.flatMap rowsAt).map LocalRow.name
      rw [hlocals, List.nil_append, List.map_map]
      rfl

/-! ## Operands -/

section Operands

variable {slots : SlotClass} {names : List (Option String)} {name : String} {line : Nat}
  {rest : List Located}

theorem slotIndex_name {i : Nat} (h : FirstAt names name i) :
    slotIndex slots names (⟨.ident name, line⟩ :: rest) = .ok (i.toUInt16, rest) := by
  unfold slotIndex
  rw [take_bind]
  simp only [current, findIdx?_of_firstAt h]
  rfl

theorem slotIndex_number {w : Int64} (h : 0 ≤ w.toInt ∧ w.toInt < 0x10000) :
    slotIndex slots names (⟨.int w, line⟩ :: rest) = .ok (w.toInt.toNat.toUInt16, rest) := by
  unfold slotIndex
  rw [take_bind]
  simp only [current, if_pos h]
  rfl

theorem slotIndex_outside {w : Int64} (h : ¬(0 ≤ w.toInt ∧ w.toInt < 0x10000)) :
    slotIndex slots names (⟨.int w, line⟩ :: rest) =
      .error ⟨currentLine rest, .slotRange slots w⟩ := by
  unfold slotIndex
  rw [take_bind]
  simp only [current, if_neg h]
  rfl

theorem operand_slot (scope : Scope) (n : Nat) (slots : SlotClass) :
    operand scope n (operandKindOf slots) =
      slotOperand slots <$> slotIndex slots (scope.names slots) := by
  cases slots with
  | argument =>
      exact (map_eq_pure_bind _ _).symm
  | variableSlot =>
      exact (map_eq_pure_bind _ _).symm

end Operands

theorem toUInt16_mod (i : Nat) : (i % 0x10000).toUInt16 = i.toUInt16 := by
  rw [Nat.toUInt16_eq, Nat.toUInt16_eq]
  exact UInt16.ofNat_mod_size

theorem toNat_toUInt16 {i : Nat} (h : i < 0x10000) : i.toUInt16.toNat = i := by
  rw [Nat.toUInt16_eq, UInt16.toNat_ofNat_of_lt' h]

section Parse

variable {text : String} {lit : Literal} {front rest : List Located} {t : Located} {line : Nat}
  {here : Setting} {items : List (List Located)} {offset : UInt32} {opcode : Opcode}
  {slots : SlotClass} {name : String}

/-- A name is read as the position of its first declaration, counted in sixteen bits. -/
theorem parse_of_name {i : Nat}
    (hplace : OperandAt front ⟨.ident name, line⟩ rest here items offset opcode)
    (hscan : scan text = .ok (front ++ ⟨.ident name, line⟩ :: rest))
    (hkind : opcode.operandKind = operandKindOf slots)
    (hfirst : FirstAt (declaredNames here.head items slots) name i) :
    parse text = (here.later rest).map fun later =>
      here.enclose later.1 ⟨offset, opcode, slotOperand slots i.toUInt16⟩ := by
  refine hplace.parse_of_ok hscan fun n => ?_
  rw [hkind, operand_slot]
  rcases hplace with ⟨-, -, -, -, -, -, reached⟩
  rw [← reached.names_eq] at hfirst
  exact map_ok _ (slotIndex_name hfirst)

/-- A number of sixteen bits is read as this number, whatever has been declared. -/
theorem parse_of_number (hlit : lit.StandsIn text front line rest)
    (hplace : OperandAt front t rest here items offset opcode)
    (hkind : opcode.operandKind = operandKindOf slots)
    (hrange : 0 ≤ lit.value ∧ lit.value < 0x10000) :
    parse text = (here.later rest).map fun later =>
      here.enclose later.1 ⟨offset, opcode, slotOperand slots lit.value.toNat.toUInt16⟩ := by
  have hword : ∃ w : Int64, lit.token = .ok (.int w) ∧ w.toInt = lit.value := by
    rcases lit.token_cases with ⟨w, htoken, hw | ⟨-, hlow, -, -⟩⟩ | ⟨-, houtside, -⟩
    · exact ⟨w, htoken, hw⟩
    · omega
    · omega
  rcases hword with ⟨w, htoken, hw⟩
  rcases hplace.exchange ⟨.int w, line⟩ with ⟨items', hplace'⟩
  refine hplace'.parse_of_ok (scan_literal hlit htoken) fun n => ?_
  rw [← hw] at hrange ⊢
  rw [hkind, operand_slot]
  exact map_ok _ (slotIndex_number hrange)

/-- Any other number is refused. -/
theorem parse_of_outside (hlit : lit.StandsIn text front line rest)
    (hplace : OperandAt front t rest here items offset opcode)
    (hkind : opcode.operandKind = operandKindOf slots)
    (hrange : ¬(0 ≤ lit.value ∧ lit.value < 0x10000)) :
    ∃ e, parse text = .error e := by
  rcases lit.token_cases with ⟨w, htoken, hw⟩ | ⟨⟨cause, htoken⟩, -, -⟩
  -- a great hexadecimal number is negative when it comes to the test
  · have houtside : ¬(0 ≤ w.toInt ∧ w.toInt < 0x10000) := by
      rcases hw with hw | ⟨-, hlow, hhigh, hw⟩
      · rwa [hw]
      · omega
    rcases hplace.exchange ⟨.int w, line⟩ with ⟨items', hplace'⟩
    refine ⟨⟨currentLine rest, .slotRange slots w⟩, ?_⟩
    refine hplace'.parse_of_error (scan_literal hlit htoken) fun n => ?_
    rw [hkind, operand_slot]
    exact map_error _ (slotIndex_outside houtside)
  · exact ⟨⟨line, cause⟩, parse_literal_error hlit htoken⟩

/-- A listing that gives an argument or a local variable by its name, and one that gives the
position of its first declaration by number, are read in the same way while the position fits into
sixteen bits. A greater number is refused, but the name is read as the position modulo `0x10000`. -/
theorem parse_slot_by_name {byName byNumber : String} {i : Nat}
    (hplace : OperandAt front ⟨.ident name, line⟩ rest here items offset opcode)
    (hname : scan byName = .ok (front ++ ⟨.ident name, line⟩ :: rest))
    (hnumber : lit.StandsIn byNumber front line rest) (hvalue : lit.value = i)
    (hkind : opcode.operandKind = operandKindOf slots)
    (hfirst : FirstAt (declaredNames here.head items slots) name i) :
    (parse byName = (here.later rest).map fun later =>
        here.enclose later.1 ⟨offset, opcode, slotOperand slots (i % 0x10000).toUInt16⟩) ∧
      (i < 0x10000 → parse byNumber = parse byName) ∧
      (0x10000 ≤ i → ∃ e, parse byNumber = .error e) := by
  have hread := parse_of_name hplace hname hkind hfirst
  refine ⟨toUInt16_mod i ▸ hread, fun hlt => ?_, fun hge => ?_⟩
  · rw [hread, parse_of_number hnumber hplace hkind (by omega), hvalue]
    rfl
  · exact parse_of_outside hnumber hplace hkind (by omega)

end Parse

namespace Crowded

/-! ### A method with more local variables than sixteen bits can count -/

/-- The row of a local variable without a name. -/
def unnamed : List Char := "bool,".toList

/-- Rows for `n` local variables without names, one on each line. -/
def rowText : Nat → List Char
  | 0 => []
  | n + 1 => unnamed ++ '\n' :: rowText n

def rowTokens (line : Nat) : Nat → List Located
  | 0 => []
  | n + 1 => ⟨.ident "bool", line⟩ :: ⟨.punct ',', line⟩ :: rowTokens (line + 1) n

theorem lexemes_rows (n line : Nat) (cs : List Char) :
    lexemes (n * 3) line (rowText n ++ cs) = some (rowTokens line n, line + n, cs) := by
  induction n generalizing line with
  | zero =>
      rw [Nat.zero_mul]
      rfl
  | succ n ih =>
      have hrow : lexemes 2 line unnamed =
          some ([⟨.ident "bool", line⟩, ⟨.punct ',', line⟩], line, []) := rfl
      have hend : lexemes 1 line ('\n' :: (rowText n ++ cs)) =
          some ([], line + 1, rowText n ++ cs) := rfl
      have hline := lexemes_add (lexemes_before hrow (rowText n ++ cs)) hend
      have hall := lexemes_add hline (ih (line + 1))
      have hcount : (n + 1) * 3 = 2 + 1 + n * 3 := by omega
      have hlast : line + (n + 1) = line + 1 + n := by omega
      rw [hcount, hlast, rowText, List.append_assoc, List.cons_append]
      exact hall

/-- The rows are read one by one. -/
theorem iterate_rows (stalled : SyntaxError) (n line : Nat) (seen : List (TypeSig × Option String))
    (ts : List Located) :
    Parser.iterate stalled (commaRound localVariable) seen (rowTokens line n ++ ts) =
      Parser.iterate stalled (commaRound localVariable)
        (List.replicate n (.boolean, none) ++ seen) ts := by
  induction n generalizing line seen with
  | zero =>
      rfl
  | succ n ih =>
      -- a type that is followed by a comma has no name
      have hround : ∀ us, commaRound localVariable seen
          (⟨.ident "bool", line⟩ :: ⟨.punct ',', line⟩ :: us) =
            .ok (.more ((.boolean, none) :: seen), us) := by
        intro us
        cases us <;> rfl
      have hmoved : (rowTokens (line + 1) n ++ ts).length <
          (rowTokens line (n + 1) ++ ts).length := by
        simp only [rowTokens, List.cons_append, List.length_cons]
        omega
      have hround' : commaRound localVariable seen (rowTokens line (n + 1) ++ ts) =
          .ok (.more ((.boolean, none) :: seen), rowTokens (line + 1) n ++ ts) := hround _
      rw [iterate_more hround' hmoved, ih, List.replicate_succ', List.append_assoc]
      rfl

/-- The tokens behind the rows: a last row with a name, and an instruction up to its operand. -/
def lastTokens (line : Nat) : List Located :=
  [⟨.ident "int32", line⟩, ⟨.ident "last", line⟩, ⟨.punct ')', line⟩,
    ⟨.ident "IL_0000", line + 1⟩, ⟨.punct ':', line + 1⟩, ⟨.ident "ldloc.s", line + 1⟩]

def declared (n : Nat) : List (TypeSig × Option String) :=
  List.replicate n (.boolean, none) ++ [(.int32, some "last")]

theorem inParens_rows (line n : Nat) (ts : List Located) :
    inParens localVariable (⟨.punct '(', 6⟩ :: (rowTokens 7 n ++ (lastTokens line ++ ts))) =
      .ok (declared n, (lastTokens line).drop 3 ++ ts) := by
  have hopen : ∀ us, expectPunct '(' (⟨.punct '(', 6⟩ :: us) = .ok ((), us) :=
    fun us => expect_of_token rfl nofun
  have hclose : expectPunct ')' ((lastTokens line).drop 2 ++ ts) =
      .ok ((), (lastTokens line).drop 3 ++ ts) := expect_of_token rfl nofun
  have hcurrent : current (rowTokens 7 n ++ (lastTokens line ++ ts)) ≠ .punct ')' := by
    cases n <;> exact nofun
  have hlast : commaRound localVariable (List.replicate n (.boolean, none) ++ [])
      (lastTokens line ++ ts) = .ok (.done (declared n), (lastTokens line).drop 2 ++ ts) := by
    have hreverse : ((.int32, some "last") :: (List.replicate n (.boolean, none) ++ [])).reverse =
        declared n := by
      rw [List.append_nil, List.reverse_cons, List.reverse_replicate, declared]
    rw [← hreverse]
    rfl
  have hlist : commaSeparated localVariable (rowTokens 7 n ++ (lastTokens line ++ ts)) =
      .ok (declared n, (lastTokens line).drop 2 ++ ts) := by
    change Parser.iterate _ (commaRound localVariable) [] _ = _
    rw [iterate_rows, iterate_done hlast]
  unfold inParens
  rw [run_bind (hopen _), peek_bind, if_neg hcurrent, run_bind hlist]
  exact run_bind hclose

/-- The tokens of the directive before its rows. -/
def localsTokens : List Located :=
  [⟨.ident ".locals", 6⟩, ⟨.ident "init", 6⟩, ⟨.punct '(', 6⟩]

def front (n : Nat) : List Located :=
  OneMethod.tokens ++ (localsTokens ++ (rowTokens 7 n ++ lastTokens (7 + n)))

def here (n : Nat) : Setting := OneMethod.setting { locals := declared n }

theorem bodyItem_rows (line n : Nat) (ts : List Located) :
    bodyItem [] {} (localsTokens ++ (rowTokens 7 n ++ (lastTokens line ++ ts))) =
      .ok (.more (here n).body, (lastTokens line).drop 3 ++ ts) := by
  have hitem : ∀ us, bodyItem [] {} (localsTokens ++ us) =
      ((fun rows => .more { locals := rows }) <$> inParens localVariable)
        (localsTokens.drop 2 ++ us) := fun us => rfl
  rw [hitem]
  exact map_ok _ (inParens_rows line n ts)

theorem comesTo (n : Nat) (ts : List Located) :
    ∃ items, ComesTo (front n ++ ts) (here n) items ((lastTokens (7 + n)).drop 3 ++ ts) := by
  have hmoved : ((lastTokens (7 + n)).drop 3 ++ ts).length <
      (localsTokens ++ (rowTokens 7 n ++ (lastTokens (7 + n) ++ ts))).length := by
    simp only [localsTokens, lastTokens, List.drop_succ_cons, List.drop_zero, List.length_append,
      List.length_cons, List.length_nil]
    omega
  simp only [front, List.append_assoc]
  exact ⟨_, OneMethod.comesTo (.more (bodyItem_rows (7 + n) n ts) hmoved (.refl _ _))⟩

theorem operandAt (n : Nat) (t : Located) (rest : List Located) :
    ∃ items, OperandAt (front n) t rest (here n) items 0 .ldlocS := by
  rcases comesTo n (t :: rest) with ⟨items, hcomes⟩
  have hfront : front n =
      OneMethod.tokens ++ (localsTokens ++ (rowTokens 7 n ++ (lastTokens (7 + n)).take 3)) ++
        (lastTokens (7 + n)).drop 3 := by
    simp only [front, List.append_assoc, List.take_append_drop]
  exact ⟨items, .intro hfront rfl (by decide +kernel) rfl rfl (by decide +kernel) hcomes⟩

theorem firstAt {n : Nat} {ts us : List Located} {items : List (List Located)}
    (h : ComesTo ts (here n) items us) :
    FirstAt (declaredNames (here n).head items .variableSlot) "last" n := by
  have hnames : declaredNames (here n).head items .variableSlot =
      List.replicate n none ++ [some "last"] := by
    rw [← h.names_eq]
    simp [Scope.names, Setting.scope, here, OneMethod.setting, declared]
  rw [hnames]
  refine ⟨by simp, fun j hj => ?_⟩
  simp [List.getElem?_append_left, hj]

def rest (n : Nat) : List Located :=
  [⟨.punct '\x7d', 9 + n⟩, ⟨.punct '\x7d', 10 + n⟩, ⟨.endOfInput, 11 + n⟩]

/-- Nothing but closing braces stands behind the operand. -/
def later (n : Nat) : Later :=
  ⟨(here n).body.finish, (here n).type, ⟨"Lib", []⟩⟩

theorem later_eq (n : Nat) : (here n).later (rest n) = .ok (later n, (rest n).drop 2) := by
  have hitems : loop (bodyItem (here n).head.argNames) (here n).body (rest n) =
      .ok ((here n).body.finish, (rest n).drop 1) := iterate_done rfl
  have hmembers : loop member (here n).type ((rest n).drop 1) =
      .ok ((here n).type, (rest n).drop 2) := iterate_done rfl
  have hdeclarations : loop declaration (here n).assembly ((rest n).drop 2) =
      .ok (⟨"Lib", []⟩, (rest n).drop 2) := iterate_done rfl
  calc (here n).later (rest n)
      = _ := run_bind hitems
    _ = _ := run_bind hmembers
    _ = _ := run_bind hdeclarations

def localsText : List Char := ".locals init (".toList

def lastText : List Char := "int32 last)\nIL_0000: ldloc.s ".toList

def post : List Char := "\n\x7d\n\x7d\n".toList

/-- The text of the listing, with the operand left open. -/
def text (n : Nat) (operand : List Char) : String :=
  String.ofList (OneMethod.text ++ '\n' :: (localsText ++ '\n' ::
    (rowText n ++ (lastText ++ (operand ++ post)))))

theorem lexemes_text (n : Nat) (operand : List Char) :
    ∃ count, lexemes count 1 (text n operand).toList =
      some (front n, 8 + n, operand ++ post) := by
  have hlocals : ∀ cs, lexemes 7 5 ([] ++ '\n' :: (localsText ++ '\n' :: cs)) =
      some (localsTokens, 7, cs) := fun cs => rfl
  have hlast : ∀ cs, lexemes 10 (7 + n) (lastText ++ cs) =
      some (lastTokens (7 + n), 7 + n + 1, cs) := fun cs => rfl
  have hrows := lexemes_add (lexemes_rows n 7 (lastText ++ (operand ++ post))) (hlast _)
  have hbody := lexemes_add (hlocals _) hrows
  have hall := lexemes_add (lexemes_before OneMethod.lexemes_text _) hbody
  refine ⟨21 + (7 + (n * 3 + 10)), ?_⟩
  rw [text, String.toList_ofList, hall, Nat.add_right_comm]
  rfl

/-- The first number that does not fit into sixteen bits. -/
def number : Literal := .decimal false ⟨"65536".toList, by decide, List.all_eq_true.1 (by decide)⟩

theorem stands :
    number.StandsIn (text 65536 number.chars) (front 65536) (8 + 65536) (rest 65536) := by
  rcases lexemes_text 65536 number.chars with ⟨count, hlexed⟩
  exact ⟨count, post, hlexed, by decide, by decide +kernel⟩

theorem scan_named : scan (text 65536 "last".toList) =
    .ok (front 65536 ++ ⟨.ident "last", 8 + 65536⟩ :: rest 65536) := by
  have hbehind : scanFrom (8 + 65536) ("last".toList ++ post) =
      .ok (⟨.ident "last", 8 + 65536⟩ :: rest 65536) := by decide +kernel
  rcases lexemes_text 65536 "last".toList with ⟨count, hlexed⟩
  rw [scan, scanFrom_of_lexemes hlexed, hbehind]
  rfl

/-- The last variable has a number that cannot be written. By its name it is read as the first. -/
theorem last_read_as_first :
    ∃ items, OperandAt (front 65536) ⟨.ident "last", 8 + 65536⟩ (rest 65536) (here 65536) items 0
        .ldlocS ∧
      FirstAt (declaredNames (here 65536).head items .variableSlot) "last" 65536 ∧
      number.value = 65536 ∧
      parse (text 65536 "last".toList) =
        .ok ((here 65536).enclose (later 65536) ⟨0, .ldlocS, .loc 0⟩) ∧
      ∃ e, parse (text 65536 number.chars) = .error e := by
  rcases operandAt 65536 ⟨.ident "last", 8 + 65536⟩ (rest 65536) with ⟨items, hplace⟩
  have hfirst : FirstAt (declaredNames (here 65536).head items .variableSlot) "last" 65536 := by
    rcases hplace with ⟨-, -, -, -, -, -, reached⟩
    exact firstAt reached
  have hvalue : number.value = (65536 : Nat) := by decide +kernel
  rcases parse_slot_by_name hplace scan_named stands hvalue rfl hfirst with ⟨hread, -, hrefused⟩
  refine ⟨items, hplace, hfirst, hvalue, ?_, hrefused (Nat.le_refl _)⟩
  rw [hread, later_eq]
  rfl

end Crowded

/-! ## Numbers before local variables -/

/-- In any assembly, the instruction loads or stores the slot and does nothing else. -/
def Accesses (i : Instruction) (slot : Slot) : Prop :=
  ∀ a headerSize,
    select a headerSize i = .ok [.load slot] ∨ select a headerSize i = .ok [.store slot]

theorem Accesses.unique {i : Instruction} {slot slot' : Slot} (h : Accesses i slot)
    (h' : Accesses i slot') : slot = slot' := by
  rcases h ⟨"", []⟩ 0 with hload | hstore
  · rcases h' ⟨"", []⟩ 0 with hload' | hstore'
    · cases hload.symm.trans hload'
      rfl
    · cases hload.symm.trans hstore'
  · rcases h' ⟨"", []⟩ 0 with hload' | hstore'
    · cases hstore.symm.trans hload'
    · cases hstore.symm.trans hstore'
      rfl

/-- The opcodes that have the number of a local variable in their name. -/
def shortForms : List (Opcode × UInt16) :=
  [(.ldloc0, 0), (.ldloc1, 1), (.ldloc2, 2), (.ldloc3, 3),
    (.stloc0, 0), (.stloc1, 1), (.stloc2, 2), (.stloc3, 3)]

theorem accesses_shortForm {short : Opcode} {k : UInt16} (h : (short, k) ∈ shortForms)
    (offset : UInt32) (o : Operand) : Accesses ⟨offset, short, o⟩ (.loc k) := by
  have haction : short.action = .load (.loc k) ∨ short.action = .store (.loc k) := by
    simp only [shortForms, List.mem_cons, Prod.mk.injEq, List.not_mem_nil, or_false] at h
    rcases h with ⟨rfl, rfl⟩ | ⟨rfl, rfl⟩ | ⟨rfl, rfl⟩ | ⟨rfl, rfl⟩ | ⟨rfl, rfl⟩ | ⟨rfl, rfl⟩ |
      ⟨rfl, rfl⟩ | ⟨rfl, rfl⟩ <;> decide
  intro a headerSize
  unfold select
  rcases haction with haction | haction
  · rw [haction]
    exact .inl rfl
  · rw [haction]
    exact .inr rfl

theorem accesses_local {opcode : Opcode}
    (h : opcode.action = .loadLocal ∨ opcode.action = .storeLocal) (offset : UInt32) (k : UInt16) :
    Accesses ⟨offset, opcode, .loc k⟩ (.loc k) := by
  intro a headerSize
  unfold select
  rcases h with haction | haction
  · rw [haction]
    exact .inl rfl
  · rw [haction]
    exact .inr rfl

/-- A load or store of a local variable and a short form have the variable in common exactly if they
have the number. -/
theorem accesses_same_iff {opcode short : Opcode} {k : UInt16} {j : Nat}
    (haction : opcode.action = .loadLocal ∨ opcode.action = .storeLocal)
    (hshort : (short, k) ∈ shortForms) (hj : j < 0x10000) (offset offset' : UInt32) (o : Operand) :
    (∃ slot, Accesses ⟨offset, opcode, .loc j.toUInt16⟩ slot ∧ Accesses ⟨offset', short, o⟩ slot) ↔
      k.toNat = j := by
  have hlocal := accesses_local haction offset j.toUInt16
  have hform := accesses_shortForm hshort offset' o
  constructor
  · rintro ⟨slot, hslot, hslot'⟩
    cases (hlocal.unique hslot).trans (hform.unique hslot').symm
    exact toNat_toUInt16 hj
  · rintro rfl
    rw [Nat.toUInt16_eq, UInt16.ofNat_toNat] at hlocal ⊢
    exact ⟨.loc k, hlocal, hform⟩

/-- Every row has a number of sixteen bits, and no two rows have the same one. -/
structure Numbered (rows : List LocalRow) : Prop where
  fits : ∀ row ∈ rows, ∃ n : Int64, row.number = some n ∧ 0 ≤ n.toInt ∧ n.toInt < 0x10000
  distinct : (rows.map LocalRow.number).Nodup

/-- There are no more rows than there are numbers for them. -/
theorem Numbered.length_le {rows : List LocalRow} (h : Numbered rows) :
    rows.length ≤ 0x10000 := by
  -- no number is written twice, so there are as many numbers as rows
  have hsubset : rows.map LocalRow.number ⊆
      (List.range 0x10000).map fun i : Nat => some (Int64.ofInt i) := by
    intro number hnumber
    rcases List.mem_map.1 hnumber with ⟨row, hrow, rfl⟩
    rcases h.fits row hrow with ⟨n, hn, hlow, hhigh⟩
    refine List.mem_map.2 ⟨n.toInt.toNat, List.mem_range.2 (by omega), ?_⟩
    rw [hn, Int.toNat_of_nonneg hlow, Int64.ofInt_toInt]
  have hlength := (List.subperm_of_subset h.distinct hsubset).length_le
  rwa [List.length_map, List.length_map, List.length_range] at hlength

section Numbered

variable {front rest : List Located} {line : Nat} {here : Setting}
  {items : List (List Located)} {offset : UInt32} {opcode : Opcode} {name : String}

/-- The first row of a name is its first declaration. -/
theorem firstAt_of_row {j : Nat} {row : LocalRow}
    (hrow : (items.flatMap rowsAt)[j]? = some row) (hname : row.name = some name)
    (hfirst : ∀ k < j, ∀ other, (items.flatMap rowsAt)[k]? = some other → other.name ≠ some name) :
    FirstAt (declaredNames here.head items .variableSlot) name j := by
  unfold declaredNames
  refine ⟨by rw [List.getElem?_map, hrow, Option.map_some, hname], fun k hk => ?_⟩
  rw [List.getElem?_map]
  intro hmap
  rcases Option.map_eq_some_iff.1 hmap with ⟨other, hother, heq⟩
  exact hfirst k hk other hother heq

/-- The instruction can be seen in the assembly. -/
theorem enclose_inj {later : Later} {i i' : Instruction}
    (h : here.enclose later i = here.enclose later i') : i = i' := by
  simpa [Setting.enclose, Setting.complete, MethodHead.method] using h

/-- If what stands behind can be read, listings that give different numbers are read differently. -/
theorem enclosed_index_inj {j k : Nat} (hj : j < 0x10000) (hk : k < 0x10000)
    (hok : ((here.later rest).map fun later =>
      here.enclose later.1 ⟨offset, opcode, .loc j.toUInt16⟩).isOk = true)
    (heq : ((here.later rest).map fun later =>
        here.enclose later.1 ⟨offset, opcode, .loc k.toUInt16⟩) =
      (here.later rest).map fun later =>
        here.enclose later.1 ⟨offset, opcode, .loc j.toUInt16⟩) : k = j := by
  cases hlater : here.later rest with
  | error e =>
      rw [hlater] at hok
      cases hok
  | ok later =>
      rw [hlater] at heq
      have hsame := enclose_inj (Except.ok.inj heq)
      have hindex : k.toUInt16 = j.toUInt16 := by simpa using hsame
      rw [← toNat_toUInt16 hj, ← toNat_toUInt16 hk, hindex]

/-- The number of a row is honoured exactly if it is the position of the row. Local variables with
numbers of their own have positions of sixteen bits, and the name of a variable stands for that
position: the same instruction is read for the position as a number, but for the number that is
written in the row only if it is the position. A short form accesses the same variable exactly if its
number is the position. -/
theorem parse_declared_local {byName : String} {j : Nat} {row : LocalRow}
    (hplace : OperandAt front ⟨.ident name, line⟩ rest here items offset opcode)
    (hname : scan byName = .ok (front ++ ⟨.ident name, line⟩ :: rest))
    (hkind : opcode.operandKind = .loc)
    (hrow : (items.flatMap rowsAt)[j]? = some row) (hrowName : row.name = some name)
    (hfirst : ∀ k < j, ∀ other, (items.flatMap rowsAt)[k]? = some other →
      other.name ≠ some name) :
    (Numbered (items.flatMap rowsAt) → j < 0x10000) ∧
      (j < 0x10000 →
        (parse byName = (here.later rest).map fun later =>
            here.enclose later.1 ⟨offset, opcode, .loc j.toUInt16⟩) ∧
          (∀ lit byNumber, Literal.StandsIn lit byNumber front line rest → lit.value = j →
            parse byNumber = parse byName) ∧
          (∀ n lit byNumber, row.number = some n → 0 ≤ n.toInt ∧ n.toInt < 0x10000 →
            Literal.StandsIn lit byNumber front line rest → lit.value = n.toInt →
            (parse byName).isOk = true → (parse byNumber = parse byName ↔ n.toInt = j)) ∧
          ∀ short k, (short, k) ∈ shortForms →
            opcode.action = .loadLocal ∨ opcode.action = .storeLocal → ∀ offset' o,
              ((∃ slot, Accesses ⟨offset, opcode, .loc j.toUInt16⟩ slot ∧
                Accesses ⟨offset', short, o⟩ slot) ↔ k.toNat = j)) := by
  have hslots : opcode.operandKind = operandKindOf .variableSlot := hkind
  have hread := parse_of_name hplace hname hslots (firstAt_of_row hrow hrowName hfirst)
  have hposition : ∀ lit byNumber, Literal.StandsIn lit byNumber front line rest →
      lit.value = j → j < 0x10000 → parse byNumber = parse byName := by
    intro lit byNumber hlit hvalue hj
    rw [hread, parse_of_number hlit hplace hslots (by omega), hvalue]
    rfl
  refine ⟨fun hrows => ?_, fun hj => ⟨hread, ?_, ?_, ?_⟩⟩
  · exact Nat.lt_of_lt_of_le (List.getElem?_eq_some_iff.1 hrow).1 hrows.length_le
  · exact fun lit byNumber hlit hvalue => hposition lit byNumber hlit hvalue hj
  · intro n lit byNumber _ hrange hlit hvalue hok
    refine ⟨fun heq => ?_, fun heq => hposition lit byNumber hlit (hvalue.trans heq) hj⟩
    rw [parse_of_number hlit hplace hslots (by omega), hvalue, hread] at heq
    have hnat := enclosed_index_inj hj (by omega) (hread ▸ hok) heq
    omega
  · intro short k hshort haction offset' o
    exact accesses_same_iff haction hshort hj offset offset' o

end Numbered

namespace Swapped

/-! ### Local variables that are listed against their numbers

The name `a` and the short forms of its number `1` mean different variables, so the method returns a
variable that it never stored into. -/

def bodyText : List Char :=
  ".locals init ([1] int32 a, [0] int32 b)\nIL_0000: ldc.i4.5\nIL_0001: stloc.s ".toList

def post : List Char := "\nIL_0003: ldloc.1\nIL_0004: ret\n\x7d\n\x7d\n".toList

/-- A method that stores into one of two local variables and returns the one with the number `1`. -/
def text (operand : List Char) : String :=
  String.ofList (OneMethod.text ++ '\n' :: (bodyText ++ (operand ++ post)))

def bodyTokens : List Located :=
  [⟨.ident ".locals", 6⟩, ⟨.ident "init", 6⟩, ⟨.punct '(', 6⟩, ⟨.punct '[', 6⟩, ⟨.int 1, 6⟩,
    ⟨.punct ']', 6⟩, ⟨.ident "int32", 6⟩, ⟨.ident "a", 6⟩, ⟨.punct ',', 6⟩, ⟨.punct '[', 6⟩,
    ⟨.int 0, 6⟩, ⟨.punct ']', 6⟩, ⟨.ident "int32", 6⟩, ⟨.ident "b", 6⟩, ⟨.punct ')', 6⟩,
    ⟨.ident "IL_0000", 7⟩, ⟨.punct ':', 7⟩, ⟨.ident "ldc.i4.5", 7⟩,
    ⟨.ident "IL_0001", 8⟩, ⟨.punct ':', 8⟩, ⟨.ident "stloc.s", 8⟩]

def front : List Located := OneMethod.tokens ++ bodyTokens

def rest : List Located :=
  [⟨.ident "IL_0003", 9⟩, ⟨.punct ':', 9⟩, ⟨.ident "ldloc.1", 9⟩, ⟨.ident "IL_0004", 10⟩,
    ⟨.punct ':', 10⟩, ⟨.ident "ret", 10⟩, ⟨.punct '\x7d', 11⟩, ⟨.punct '\x7d', 12⟩,
    ⟨.endOfInput, 13⟩]

/-- The body behind its first `n` tokens, with the name for the operand. -/
def behind (n : Nat) : List Located := bodyTokens.drop n ++ ⟨.ident "a", 8⟩ :: rest

def locals : List (TypeSig × Option String) := [(.int32, some "a"), (.int32, some "b")]

def here : Setting := OneMethod.setting { locals, instructions := [⟨0, .ldcI4_5, .empty⟩] }

def items : List (List Located) := [behind 0, behind 15]

theorem operandAt : OperandAt front ⟨.ident "a", 8⟩ rest here items 1 .stlocS := by
  have directive : bodyItem [] {} (behind 0) = .ok (.more { locals }, behind 15) := by
    decide +kernel
  have constant : bodyItem [] { locals } (behind 15) = .ok (.more here.body, behind 18) := by
    decide +kernel
  have itemized : Rounds (bodyItem []) {} (behind 0) items here.body (behind 18) :=
    .more directive (by decide) (.more constant (by decide) (.refl _ _))
  exact .intro (List.take_append_drop 30 front).symm rfl (by decide +kernel) rfl rfl
    (by decide +kernel) (OneMethod.comesTo itemized)

theorem rows_eq : items.flatMap rowsAt =
    [⟨some 1, .int32, some "a"⟩, ⟨some 0, .int32, some "b"⟩] := by
  decide +kernel

def zero : Literal := .decimal false ⟨"0".toList, by decide, List.all_eq_true.1 (by decide)⟩

def one : Literal := .decimal false ⟨"1".toList, by decide, List.all_eq_true.1 (by decide)⟩

theorem lexemes_text (operand : List Char) :
    lexemes 55 1 (text operand).toList = some (front, 8, operand ++ post) := by
  have hbody : ∀ cs, lexemes 34 5 ([] ++ '\n' :: (bodyText ++ cs)) = some (bodyTokens, 8, cs) :=
    fun cs => rfl
  rw [text, String.toList_ofList]
  exact lexemes_add (lexemes_before OneMethod.lexemes_text _) (hbody _)

theorem scan_named : scan (text "a".toList) = .ok (front ++ ⟨.ident "a", 8⟩ :: rest) := by
  have hbehind : scanFrom 8 ("a".toList ++ post) = .ok (⟨.ident "a", 8⟩ :: rest) := by
    decide +kernel
  rw [scan, scanFrom_of_lexemes (lexemes_text _), hbehind]
  rfl

theorem stands {lit : Literal} (h : lit.EndsBefore post) :
    lit.StandsIn (text lit.chars) front 8 rest :=
  ⟨55, post, lexemes_text _, h, by decide +kernel⟩

theorem parse_named : parse (text "a".toList) =
    (assembly (front ++ ⟨.ident "a", 8⟩ :: rest)).map Prod.fst :=
  parse_of_scan scan_named

theorem parse_one : parse (text one.chars) =
    (assembly (front ++ ⟨.int 1, 8⟩ :: rest)).map Prod.fst :=
  parse_of_scan (scan_literal (stands (by decide)) (by decide +kernel))

/-- The name is read as the number `0`, although the number `1` stands before it. -/
theorem named_by_position :
    OperandAt front ⟨.ident "a", 8⟩ rest here items 1 .stlocS ∧
      scan (text "a".toList) = .ok (front ++ ⟨.ident "a", 8⟩ :: rest) ∧
      Numbered (items.flatMap rowsAt) ∧
      (items.flatMap rowsAt)[0]? = some ⟨some 1, .int32, some "a"⟩ ∧
      parse (text zero.chars) = parse (text "a".toList) ∧
      parse (text one.chars) ≠ parse (text "a".toList) := by
  have hrow : (items.flatMap rowsAt)[0]? = some ⟨some 1, .int32, some "a"⟩ := by
    rw [rows_eq]
    rfl
  have hok : (parse (text "a".toList)).isOk = true := by
    rw [parse_named]
    decide +kernel
  have hnumbered : Numbered (items.flatMap rowsAt) := by
    rw [rows_eq]
    exact ⟨by decide, by decide⟩
  rcases parse_declared_local operandAt scan_named rfl hrow rfl nofun with ⟨hposition, hread⟩
  rcases hread (hposition hnumbered) with ⟨-, hzero, hone, -⟩
  have hstands : zero.StandsIn (text zero.chars) front 8 rest := stands (by decide)
  refine ⟨operandAt, scan_named, hnumbered, hrow, hzero zero _ hstands (by decide +kernel), ?_⟩
  intro heq
  have hvalue : one.value = (1 : Int64).toInt := by decide +kernel
  have hnumber := (hone 1 one _ rfl (by decide) (stands (by decide)) hvalue hok).1 heq
  exact absurd hnumber (by decide)

/-- The slot number that is written before the name is not the slot that the name denotes. -/
theorem number_not_honoured :
    (items.flatMap rowsAt).map (fun row => (row.number, row.name)) =
        [(some 1, some "a"), (some 0, some "b")] ∧
      (parse (text "a".toList)).isOk = true ∧
      parse (text "a".toList) ≠ parse (text one.chars) := by
  rw [rows_eq, parse_named, parse_one]
  decide +kernel

end Swapped

end CilCompiler.Listing
