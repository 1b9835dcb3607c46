/-!
# Command line arguments

A `CommandSpec` says which arguments a command takes: positional ones, and options with two dashes.
`CommandSpec.read` takes a list of arguments apart, from the first to the last, and stops at the
first that is wrong or that asks for help. Behind two dashes alone everything is positional. The
value of an option stands behind an equals sign or is the next argument; that one starts with a dash
only if it is nothing but a dash.
-/

namespace ContractBuild

/-! ## What a command takes -/

/-- What the value of an option has to be. -/
inductive ValueKind where
  | text
  /-- A number below a limit. A plus sign may stand before it, and a minus sign before zero if
  `signed`. -/
  | number (limit : Nat) (signed : Bool)
  /-- One of some words. -/
  | word (words : List String)
  deriving Repr, DecidableEq

/-- How often an option may be given, and with what. -/
inductive OptionKind where
  /-- Once, without a value. -/
  | switch
  /-- Once, with a value. -/
  | single (value : ValueKind)
  /-- Any number of times, with a value each. -/
  | repeated (value : ValueKind)
  deriving Repr, DecidableEq

/-- An option of a command. -/
structure OptionSpec where
  name : String
  kind : OptionKind
  deriving Repr, DecidableEq

/-- The arguments of a command. -/
structure CommandSpec where
  name : String
  /-- The names of the positional arguments, all of which have to be given. -/
  positionals : List String := []
  options : List OptionSpec := []
  deriving Repr, DecidableEq

/-! ## What was given -/

/-- Why arguments are refused. -/
inductive UsageError where
  | missingCommand
  | unknownCommand (name : String)
  | unexpected (argument : String)
  | missingValue (option : String)
  | surplusValue (option value : String)
  | invalidValue (option value : String)
  | givenTwice (option : String)
  | missingArgument (name : String)
  deriving Repr, DecidableEq

/-- The wording of a refusal. -/
def UsageError.message : UsageError → String
  | missingCommand => "a subcommand is required but one was not provided"
  | unknownCommand name => s!"unrecognized subcommand '{name}'"
  | unexpected argument => s!"unexpected argument '{argument}' found"
  | missingValue option => s!"a value is required for '--{option}' but none was supplied"
  | surplusValue option value => s!"unexpected value '{value}' for '--{option}' found"
  | invalidValue option value => s!"invalid value '{value}' for '--{option}'"
  | givenTwice option => s!"the argument '--{option}' cannot be used multiple times"
  | missingArgument name => s!"the required argument <{name}> was not provided"

/-- Why no command is carried out. -/
inductive Halt where
  | refused (e : UsageError)
  /-- Help was asked for, perhaps with one command. -/
  | help (command : Option String)
  | version
  deriving Repr, DecidableEq

/-- The arguments that were given. -/
structure Given where
  positionals : List String := []
  /-- Options with their values, in order; that of a switch is empty. -/
  options : List (String × String) := []
  deriving Repr, DecidableEq

namespace Given

/-- Whether an option was given. -/
def has (g : Given) (name : String) : Bool := g.options.any (·.1 == name)

/-- All values of an option. -/
def values (g : Given) (name : String) : List String :=
  (g.options.filter (·.1 == name)).map (·.2)

/-- The value of an option. -/
def value? (g : Given) (name : String) : Option String := (g.values name).head?

end Given

/-! ## Values -/

/-- The value of decimal digits, at least one. -/
def digitsValue? (cs : List Char) : Option Nat :=
  if cs.isEmpty || !cs.all Char.isDigit then none
  else some (cs.foldl (fun n c => n * 10 + (c.toNat - '0'.toNat)) 0)

/-- A number below a limit, with a sign or without. -/
def signedBelow? (limit : Nat) (signed : Bool) (s : String) : Option Nat :=
  match s.toList with
  | '-' :: cs => if signed then (digitsValue? cs).filter (· == 0) else none
  | '+' :: cs => (digitsValue? cs).filter (· < limit)
  | cs => (digitsValue? cs).filter (· < limit)

/-- Whether a text is a value of a kind. -/
def ValueKind.admits : ValueKind → String → Bool
  | text, _ => true
  | number limit signed, s => (signedBelow? limit signed s).isSome
  | word words, s => words.contains s

/-- The kind of value that an option takes. -/
def OptionKind.value? : OptionKind → Option ValueKind
  | switch => none
  | single v | repeated v => some v

/-! ## Reading -/

/-- The name behind two dashes, and the value behind an equals sign. -/
def longOption? (arg : String) : Option (String × Option String) :=
  match arg.toList with
  | '-' :: '-' :: c :: cs =>
    let name := (c :: cs).takeWhile (· != '=')
    match (c :: cs).drop name.length with
    | [] => some (String.ofList name, none)
    | _ :: value => some (String.ofList name, some (String.ofList value))
  | _ => none

/-- The first letter behind a single dash. -/
def shortOption? (arg : String) : Option Char :=
  match arg.toList with
  | '-' :: c :: _ => if c == '-' then none else some c
  | _ => none

/-- Whether an argument can be the value of the option before it. -/
def isPlain (arg : String) : Bool := arg == "-" || !arg.startsWith "-"

namespace CommandSpec

/-- Adds a positional argument. -/
def addPositional (spec : CommandSpec) (g : Given) (arg : String) : Except Halt Given :=
  if g.positionals.length < spec.positionals.length then
    .ok { g with positionals := g.positionals ++ [arg] }
  else .error (.refused (.unexpected arg))

/-- Adds an option with its value. -/
def addOption (g : Given) (o : OptionSpec) (value : String) : Except Halt Given :=
  let added : Given := { g with options := g.options ++ [(o.name, value)] }
  match o.kind with
  | .repeated kind =>
    if kind.admits value then .ok added else .error (.refused (.invalidValue o.name value))
  | .single kind =>
    if !kind.admits value then .error (.refused (.invalidValue o.name value))
    else if g.has o.name then .error (.refused (.givenTwice o.name))
    else .ok added
  | .switch => if g.has o.name then .error (.refused (.givenTwice o.name)) else .ok added

/-- Reads arguments behind those that were given before. -/
def readFrom (spec : CommandSpec) (g : Given) : List String → Except Halt Given
  | [] => .ok g
  | arg :: rest =>
    if arg == "--" then rest.foldlM spec.addPositional g
    else
      match longOption? arg with
      | some (name, attached) =>
        match spec.options.find? (·.name == name), attached with
        | none, none =>
          .error (if name == "help" then .help (some spec.name) else .refused (.unexpected arg))
        | none, some value =>
          .error (.refused (if name == "help" then .surplusValue name value else .unexpected arg))
        | some o, some value =>
          if o.kind.value?.isNone then .error (.refused (.surplusValue name value))
          else do spec.readFrom (← addOption g o value) rest
        | some o, none =>
          if o.kind.value?.isNone then do spec.readFrom (← addOption g o "") rest
          else
            match rest with
            | [] => .error (.refused (.missingValue name))
            | value :: rest =>
              if isPlain value then do spec.readFrom (← addOption g o value) rest
              else .error (.refused (.missingValue name))
      | none =>
        match shortOption? arg with
        | some 'h' => .error (.help (some spec.name))
        | some _ => .error (.refused (.unexpected arg))
        | none => do spec.readFrom (← spec.addPositional g arg) rest

/-- Reads the arguments of a command. -/
def read (spec : CommandSpec) (args : List String) : Except Halt Given := do
  let g ← spec.readFrom {} args
  match spec.positionals[g.positionals.length]? with
  | some name => .error (.refused (.missingArgument name))
  | none => return g

/-- How a command is called. -/
def usage (spec : CommandSpec) (program : String) : String :=
  let options := if spec.options.isEmpty then [] else ["[OPTIONS]"]
  " ".intercalate ([program, spec.name] ++ options ++ spec.positionals.map fun p => s!"<{p}>")

end CommandSpec

end ContractBuild
