import CilCompiler.Options

/-!
# Command-line arguments

Arguments are read from left to right. A value that stands apart from its option is held back and
checked when the next argument of any kind begins, so an unknown argument right behind it is
reported first.

* `Arguments` is what the command was asked to do.
* `Refusal` says why it does nothing, which includes the wish for help.
* `Arguments.parse` reads the words of a command line.
-/

namespace CilCompiler.Command

structure Arguments where
  /-- The listing. -/
  input : String
  output : Option String
  /-- The host-bridge manifest. -/
  manifest : Option String
  headerSize : UInt32
  exportPolicy : ExportPolicy
  interopMethods : List String
  validate : Bool
  verbosity : Nat
  quiet : Bool
  deriving DecidableEq

/-- Why the arguments lead to no run. -/
inductive Refusal
  | missingInput
  | unknownArgument
  /-- A value that is missing, empty or no choice of its option. -/
  | invalidValue
  /-- A number outside its range, or no number at all. -/
  | outOfRange
  /-- Something given twice, or two things that exclude each other. -/
  | conflict
  /-- A value for something that takes none. -/
  | unneededValue
  | helpAsked
  | versionAsked
  deriving DecidableEq

/-- What takes a value. -/
inductive Parameter
  | input
  | output
  | manifest
  | headerSize
  | exportPolicy
  | interop
  deriving DecidableEq

/-- What takes no value. -/
inductive Switch
  | noValidate
  | verbose
  | quiet
  | help
  | version
  deriving DecidableEq

inductive Flag
  | parameter (p : Parameter)
  | switch (s : Switch)
  deriving DecidableEq

def longFlag? : String → Option Flag
  | "output" => some (.parameter .output)
  | "bridge" => some (.parameter .manifest)
  | "header-size" => some (.parameter .headerSize)
  | "export" => some (.parameter .exportPolicy)
  | "interop" => some (.parameter .interop)
  | "no-validate" => some (.switch .noValidate)
  | "verbose" => some (.switch .verbose)
  | "quiet" => some (.switch .quiet)
  | "help" => some (.switch .help)
  | "version" => some (.switch .version)
  | _ => none

def shortFlag? : Char → Option Flag
  | 'o' => some (.parameter .output)
  | 'v' => some (.switch .verbose)
  | 'q' => some (.switch .quiet)
  | 'h' => some (.switch .help)
  | 'V' => some (.switch .version)
  | _ => none

/-! ## Values -/

def readPath (text : String) : Except Refusal String :=
  if text = "" then .error .invalidValue else .ok text

/-- A whole number in decimal digits, with a sign or without. -/
def readInteger? (text : String) : Option Int :=
  match text.toList with
  | '-' :: digits => (- Int.ofNat ·) <$> natural? digits
  | '+' :: digits => Int.ofNat <$> natural? digits
  | digits => Int.ofNat <$> natural? digits
where
  natural? (digits : List Char) : Option Nat :=
    if digits ≠ [] ∧ digits.all Char.isDigit then
      some (digits.foldl (fun n c => 10 * n + (c.toNat - '0'.toNat)) 0)
    else none

def readSize (text : String) : Except Refusal UInt32 :=
  match readInteger? text with
  | some n => if 0 ≤ n ∧ n < 0x100000000 then .ok n.toNat.toUInt32 else .error .outOfRange
  | none => .error .outOfRange

def readPolicy : String → Except Refusal ExportPolicy
  | "public" => .ok .publicOnly
  | "all" => .ok .all
  | "none" => .ok .none
  | _ => .error .invalidValue

/-! ## What has been given so far -/

structure Given where
  input : Option String := none
  output : Option String := none
  manifest : Option String := none
  headerSize : Option UInt32 := none
  exportPolicy : Option ExportPolicy := none
  interopMethods : List String := []
  noValidate : Bool := false
  verbosity : Nat := 0
  quiet : Bool := false

/-- Sets what may be given once. -/
def once {α : Type} (old : Option α) (value : Except Refusal α) : Except Refusal (Option α) :=
  match old with
  | some _ => .error .conflict
  | none => some <$> value

namespace Given

def set (g : Given) (p : Parameter) (text : String) : Except Refusal Given :=
  match p with
  | .input => return { g with input := ← once g.input (readPath text) }
  | .output => return { g with output := ← once g.output (readPath text) }
  | .manifest => return { g with manifest := ← once g.manifest (readPath text) }
  | .headerSize => return { g with headerSize := ← once g.headerSize (readSize text) }
  | .exportPolicy => return { g with exportPolicy := ← once g.exportPolicy (readPolicy text) }
  | .interop => return { g with interopMethods := g.interopMethods ++ [text] }

def turn (g : Given) : Switch → Except Refusal Given
  | .noValidate => if g.noValidate then .error .conflict else .ok { g with noValidate := true }
  | .verbose => .ok { g with verbosity := g.verbosity + 1 }
  | .quiet => if g.quiet then .error .conflict else .ok { g with quiet := true }
  | .help => .error .helpAsked
  | .version => .error .versionAsked

/-- The arguments, once all words have been read. -/
def finish (g : Given) : Except Refusal Arguments :=
  if g.quiet ∧ 0 < g.verbosity then .error .conflict
  else
    match g.input with
    | none => .error .missingInput
    | some input => .ok {
        input
        output := g.output
        manifest := g.manifest
        headerSize := g.headerSize.getD 8
        exportPolicy := g.exportPolicy.getD .publicOnly
        interopMethods := g.interopMethods
        validate := !g.noValidate
        verbosity := g.verbosity
        quiet := g.quiet }

end Given

/-! ## Reading -/

/-- An option that has begun and is not yet settled. -/
inductive Pending
  | nothing
  | awaiting (p : Parameter)
  | holding (p : Parameter) (text : String)

structure Reading where
  given : Given := {}
  pending : Pending := .nothing
  /-- Whether the input has been named. -/
  inputNamed : Bool := false
  /-- Whether the separator has been passed, behind which every word is an input. -/
  separated : Bool := false

/-- The looks that a word can have. -/
inductive Look
  | separator
  | long (name : String) (value : Option String)
  | short (letters : List Char)
  | plain

def look (word : String) : Look :=
  match word.toList with
  | ['-', '-'] => .separator
  | '-' :: '-' :: cs =>
    let name := String.ofList (cs.takeWhile (· ≠ '='))
    match cs.dropWhile (· ≠ '=') with
    | _ :: value => .long name (some (String.ofList value))
    | [] => .long name none
  | '-' :: c :: cs => .short (c :: cs)
  | _ => .plain

namespace Reading

/-- Settles the option that is pending. -/
def settle (r : Reading) : Except Refusal Reading :=
  match r.pending with
  | .nothing => .ok r
  | .awaiting _ => .error .invalidValue
  | .holding p text => return { r with given := ← r.given.set p text, pending := .nothing }

/-- Begins an option whose value comes in the next word. -/
def await (r : Reading) (p : Parameter) : Except Refusal Reading :=
  return { ← r.settle with pending := .awaiting p }

/-- An option with its value in the same word. -/
def give (r : Reading) (p : Parameter) (text : String) : Except Refusal Reading := do
  let r ← r.settle
  return { r with given := ← r.given.set p text }

def turn (r : Reading) (s : Switch) : Except Refusal Reading := do
  let r ← r.settle
  return { r with given := ← r.given.turn s }

/-- A word that is the input. -/
def name (r : Reading) (word : String) : Except Refusal Reading :=
  if r.inputNamed then .error .unknownArgument
  else return { ← r.settle with pending := .holding .input word, inputNamed := true }

def long (r : Reading) (flag : String) (value : Option String) : Except Refusal Reading :=
  match longFlag? flag, value with
  | none, _ => .error .unknownArgument
  | some (.parameter p), none => r.await p
  | some (.parameter p), some text => r.give p text
  | some (.switch s), none => r.turn s
  | some (.switch _), some _ => .error .unneededValue

/-- Letters behind one dash. A letter that takes a value takes the rest of the word, an equals sign
aside, or else the next word. -/
def short (r : Reading) : List Char → Except Refusal Reading
  | [] => .ok r
  | c :: cs =>
    match shortFlag? c with
    | none => .error .unknownArgument
    | some (.switch s) => do (← r.turn s).short cs
    | some (.parameter p) =>
      match cs with
      | [] => r.await p
      | '=' :: value => r.give p (String.ofList value)
      | value => r.give p (String.ofList value)

def read (r : Reading) (word : String) : Except Refusal Reading :=
  if r.separated then r.name word
  else
    match look word with
    | .separator => .ok { r with separated := true }
    | .long flag value => r.long flag value
    | .short letters => r.short letters
    | .plain =>
      match r.pending with
      | .awaiting p => .ok { r with pending := .holding p word }
      | _ => r.name word

end Reading

/-- Reads the words of a command line. -/
def Arguments.parse (words : List String) : Except Refusal Arguments := do
  let r ← words.foldlM Reading.read {}
  (← r.settle).given.finish

end CilCompiler.Command
