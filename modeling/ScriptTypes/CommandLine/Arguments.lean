import ScriptTypes.Path

/-!
# Arguments of the command line

A command line consists of options, the name of a command, and the command's own arguments, among
which the same options may stand. Options given to the command win over those in front of it.
-/

namespace ScriptTypes.CommandLine

/-- What to do with a script. -/
inductive Command where
  /-- Show all scopes with their symbols, and the generated types too if asked for. -/
  | symbols (file : Path) (generated : Bool)
  /-- Show the types at an offset. -/
  | typesAt (file : Path) (offset : Nat)
  deriving DecidableEq, Repr

structure Options where
  config : Option Path := none
  indexes : List Path := []
  deriving DecidableEq, Repr

/-- What a command line asks for. -/
inductive Request where
  | run (options : Options) (command : Command)
  | help
  | version
  deriving DecidableEq, Repr

/-- Why a command line is refused. -/
inductive UsageError where
  | unknownArgument (text : String)
  | unknownCommand (text : String)
  | missingCommand
  | missingArgument (name : String)
  | missingValue (option : String)
  | unneededValue (option : String)
  | repeated (option : String)
  | invalidValue (text : String)
  deriving DecidableEq, Repr

def UsageError.message : UsageError → String
  | .unknownArgument text => "unexpected argument '" ++ text ++ "' found"
  | .unknownCommand text => "unrecognized subcommand '" ++ text ++ "'"
  | .missingCommand => "a subcommand is required"
  | .missingArgument name => "the argument <" ++ name ++ "> was not provided"
  | .missingValue option => "a value is required for '" ++ option ++ "'"
  | .unneededValue option => "no value is expected for '" ++ option ++ "'"
  | .repeated option => "the argument '" ++ option ++ "' cannot be used multiple times"
  | .invalidValue text => "invalid value '" ++ text ++ "'"

/-! ### Kinds of arguments -/

/-- An argument by its form. -/
inductive Argument where
  /-- Two dashes alone, after which all arguments are plain. -/
  | escape
  /-- Two dashes and a name, with what follows an equals sign. -/
  | long (name : String) (attached : Option String)
  /-- A dash and letters. -/
  | short (letters : List Char)
  | plain (text : String)
  deriving DecidableEq, Repr

def Argument.ofString (text : String) : Argument :=
  match text.toList with
  | ['-', '-'] => .escape
  | '-' :: '-' :: cs =>
    match cs.span (· != '=') with
    | (name, _ :: value) => .long (String.ofList name) (some (String.ofList value))
    | (name, []) => .long (String.ofList name) none
  | '-' :: c :: cs => .short (c :: cs)
  | _ => .plain text

/-! ### Values -/

/-- A path, which is not empty. -/
def path (name text : String) : Except UsageError Path :=
  if text.isEmpty then .error (.missingValue name) else .ok text

/-- A number with an optional sign, as far as it is between zero and `2 ^ 32 - 1`. -/
def offset? (text : String) : Option Nat :=
  let value (cs : List Char) : Option Nat :=
    if !cs.isEmpty && cs.all Char.isDigit then
      some (cs.foldl (fun n c => n * 10 + (c.toNat - '0'.toNat)) 0)
    else none
  let n := match text.toList with
    | '+' :: cs => value cs
    | '-' :: cs => (value cs).filter (· == 0)
    | cs => value cs
  n.filter (· < Nat.pow 2 32)

/-! ### Options -/

/-- The text of an option's value, and what is left: attached to it, or the next argument if that
is plain. -/
def optionText? : (attached : Option String) → (next : List String) → Option (String × List String)
  | some text, next => some (text, next)
  | none, [] => none
  | none, text :: rest => if Argument.ofString text = .plain text then some (text, rest) else none

theorem length_le_of_optionText? {attached : Option String} {next rest : List String}
    {text : String} (h : optionText? attached next = some (text, rest)) :
    rest.length ≤ next.length := by
  unfold optionText? at h
  split at h
  · simp_all
  · simp at h
  · simp only [Option.ite_none_right_eq_some, Option.some.injEq, Prod.mk.injEq] at h
    simp [h.2.2]

def Options.setConfig (o : Options) (text : String) : Except UsageError Options := do
  let p ← path "--config" text
  if o.config.isSome then throw (.repeated "--config")
  return { o with config := some p }

def Options.addIndex (o : Options) (text : String) : Except UsageError Options := do
  return { o with indexes := o.indexes ++ [← path "--index" text] }

/-- Options of a command, completed by those in front of it. -/
def Options.orElse (inner outer : Options) : Options where
  config := inner.config.or outer.config
  indexes := if inner.indexes.isEmpty then outer.indexes else inner.indexes

/-! ### Commands -/

/-- The names of commands. -/
inductive CommandName where
  | symbols
  | typesAt
  deriving DecidableEq, Repr

def CommandName.ofString? : String → Option CommandName
  | "symbols" => some .symbols
  | "at" => some .typesAt
  | _ => none

/-- What was read of a command's arguments. -/
structure Progress where
  options : Options := {}
  generated : Bool := false
  file : Option Path := none
  offset : Option Nat := none

/-- Take a plain argument. -/
def Progress.plain (p : Progress) (name : CommandName) (text : String) :
    Except UsageError Progress :=
  match name, p.file, p.offset with
  | _, none, _ => do return { p with file := some (← path "FILE" text) }
  | .typesAt, some _, none =>
    match offset? text with
    | some offset => .ok { p with offset := some offset }
    | none => .error (.invalidValue text)
  | _, _, _ => .error (.unknownArgument text)

/-- The command that the arguments make up. -/
def Progress.command (p : Progress) : CommandName → Except UsageError Command
  | .symbols =>
    match p.file with
    | some file => .ok (.symbols file p.generated)
    | none => .error (.missingArgument "FILE")
  | .typesAt =>
    match p.file, p.offset with
    | some file, some offset => .ok (.typesAt file offset)
    | none, _ => .error (.missingArgument "FILE")
    | _, none => .error (.missingArgument "OFFSET")

/-- The end of a command line. -/
def Progress.finish (p : Progress) (name : CommandName) (outer : Options) :
    Except UsageError Request := do
  return .run (p.options.orElse outer) (← p.command name)

/-- Read the arguments of a command, with the options in front of it. -/
def commandArguments (name : CommandName) (outer : Options) (p : Progress) :
    List String → Except UsageError Request
  | [] => p.finish name outer
  | text :: rest =>
    match Argument.ofString text with
    | .plain _ => do commandArguments name outer (← p.plain name text) rest
    | .escape => do (← rest.foldlM (·.plain name ·) p).finish name outer
    | .long "config" attached =>
      match _h : optionText? attached rest with
      | some (value, rest') => do
        commandArguments name outer { p with options := ← p.options.setConfig value } rest'
      | none => .error (.missingValue "--config")
    | .long "index" attached =>
      match _h : optionText? attached rest with
      | some (value, rest') => do
        commandArguments name outer { p with options := ← p.options.addIndex value } rest'
      | none => .error (.missingValue "--index")
    | .long "help" none => .ok .help
    | .long "help" (some _) => .error (.unneededValue "--help")
    | .long "generated" attached =>
      if name ≠ .symbols then .error (.unknownArgument text)
      else if attached.isSome then .error (.unneededValue "--generated")
      else if p.generated then .error (.repeated "--generated")
      else commandArguments name outer { p with generated := true } rest
    | .short ('h' :: _) => .ok .help
    | _ => .error (.unknownArgument text)
termination_by args => args.length
decreasing_by
  · exact Nat.lt_succ_self _
  · exact Nat.lt_succ_of_le (length_le_of_optionText? _h)
  · exact Nat.lt_succ_of_le (length_le_of_optionText? _h)
  · exact Nat.lt_succ_self _

/-- Read a command line with the options read so far. -/
def arguments (o : Options) : List String → Except UsageError Request
  | [] => .error .missingCommand
  | text :: rest =>
    match Argument.ofString text with
    | .plain _ =>
      match CommandName.ofString? text with
      | some name => commandArguments name o {} rest
      | none => if text = "help" then .ok .help else .error (.unknownCommand text)
    | .escape => .error .missingCommand
    | .long "config" attached =>
      match _h : optionText? attached rest with
      | some (value, rest') => do arguments (← o.setConfig value) rest'
      | none => .error (.missingValue "--config")
    | .long "index" attached =>
      match _h : optionText? attached rest with
      | some (value, rest') => do arguments (← o.addIndex value) rest'
      | none => .error (.missingValue "--index")
    | .long "help" none => .ok .help
    | .long "version" none => .ok .version
    | .short ('h' :: _) => .ok .help
    | .short ('V' :: _) => .ok .version
    | _ => .error (.unknownArgument text)
termination_by args => args.length
decreasing_by all_goals exact Nat.lt_succ_of_le (length_le_of_optionText? _h)

/-- What a command line asks for. -/
def parse (args : List String) : Except UsageError Request := arguments {} args

end ScriptTypes.CommandLine
