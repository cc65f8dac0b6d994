import Sequencer.Text.Basic

/-!
# Command lines

Options are long (`--name value`, `--name=value`) or short (`-n value`, `-nvalue`, `-n=value`),
and each may be given once. What starts with a dash is never taken for the value of the option
before it, and after two dashes alone nothing is an option. All else are operands in their order,
or the name of a subcommand, which takes the rest of the line.
-/

namespace Sequencer

inductive OptionKind where
  | value (accepts : Text → Bool)
  | flag
  | help
  | version

structure CommandOption where
  name : String
  letter : Option Char := none
  kind : OptionKind

/-- What a command line may hold. -/
structure CommandLine where
  options : List CommandOption
  operandLimit : Nat
  acceptsOperand : Text → Bool := fun _ ↦ true
  subcommands : List String := []

/-- Why a command line does not lead to a run. -/
inductive Halt where
  | usage
  | help
  | version
deriving DecidableEq, Repr

structure Arguments where
  /-- Options by their names, with their values; flags have an empty one. -/
  options : List (String × Text) := []
  operands : List Text := []
  subcommand : Option (String × List Text) := none
deriving DecidableEq, Repr

namespace Arguments

def value? (arguments : Arguments) (name : String) : Option Text := arguments.options.lookup name

def has (arguments : Arguments) (name : String) : Bool := (arguments.value? name).isSome

def add (arguments : Arguments) (name : String) (value : Text) : Except Halt Arguments :=
  if arguments.has name then .error .usage
  else .ok { arguments with options := arguments.options ++ [(name, value)] }

end Arguments

namespace CommandLine

def addOperand (line : CommandLine) (arguments : Arguments) (operand : Text) :
    Except Halt Arguments :=
  if arguments.operands.length < line.operandLimit && line.acceptsOperand operand then
    .ok { arguments with operands := arguments.operands ++ [operand] }
  else .error .usage

def looksLikeOption : Text → Bool
  | '-' :: _ :: _ => true
  | _ => false

/-- An argument that starts with a dash: the option it names and the value attached to it. A short
call for help needs no look at what is attached. -/
def splitOption (line : CommandLine) : Text → Option (CommandOption × Option Text)
  | '-' :: '-' :: long =>
    let (name, value) := match Text.splitFirst '=' long with
      | some (name, value) => (name, some value)
      | none => (long, none)
    (line.options.find? (·.name.toList = name)).map (·, value)
  | '-' :: letter :: attached =>
    (line.options.find? (·.letter = some letter)).map fun option ↦
      match option.kind, attached with
      | .help, _ | .version, _ | _, [] => (option, none)
      | _, '=' :: value => (option, some value)
      | _, value => (option, some value)
  | _ => none

/-- Read arguments from left to right. -/
def parseInto (line : CommandLine) : Arguments → List Text → Except Halt Arguments
  | arguments, [] => .ok arguments
  | arguments, argument :: rest =>
    if argument = ['-', '-'] then rest.foldlM line.addOperand arguments
    else if looksLikeOption argument then
      match line.splitOption argument with
      | none => .error .usage
      | some (option, attached) =>
        match option.kind, attached with
        | .help, none => .error .help
        | .version, none => .error .version
        | .flag, none => do parseInto line (← arguments.add option.name []) rest
        | .value accepts, some value => do
          if !accepts value then throw .usage
          parseInto line (← arguments.add option.name value) rest
        | .value accepts, none =>
          match rest with
          | [] => .error .usage
          | value :: rest => do
            if looksLikeOption value || !accepts value then throw .usage
            parseInto line (← arguments.add option.name value) rest
        | _, some _ => .error .usage
    else match line.subcommands.find? (·.toList = argument) with
      | some name => .ok { arguments with subcommand := some (name, rest) }
      | none => do parseInto line (← line.addOperand arguments argument) rest

def parse (line : CommandLine) (arguments : List Text) : Except Halt Arguments :=
  line.parseInto {} arguments

end CommandLine

namespace CommandOption

def help : CommandOption := { name := "help", letter := some 'h', kind := .help }

def version : CommandOption := { name := "version", letter := some 'V', kind := .version }

/-- An option whose value is any text. -/
def text (name : String) : CommandOption := { name, kind := .value fun _ ↦ true }

/-- An option whose value is a path, so not empty. -/
def path (name : String) : CommandOption := { name, kind := .value fun t ↦ !t.isEmpty }

def flag (name : String) : CommandOption := { name, kind := .flag }

/-- An option whose value has to be readable. -/
def readable {α : Type} (name : String) (read? : Text → Option α) : CommandOption :=
  { name, kind := .value fun t ↦ (read? t).isSome }

end CommandOption

end Sequencer
