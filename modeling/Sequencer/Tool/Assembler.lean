import Sequencer.Image.Writer
import Sequencer.Json.Program
import Sequencer.Settings.Reader
import Sequencer.Tool.Plan
import Sequencer.Verification

/-!
# The assembler tool

    SRCFILE [-o FILE] [--bin FILE] [--parfile FILE] [--json FILE] [--config FILE]
      [--branch-alignment N] [--warn-limit N] [--no-fill] [--verify]

The program is written to each file that is asked for, or printed as a text image if there is none.
-/

namespace Sequencer.AssemblerTool

/-- An alignment may be written with a sign, also a minus before zero. -/
def alignment? : Text → Option UInt16
  | ['-'] => none
  | '-' :: digits =>
    match Numeral.readDigits 10 UInt64.size 0 digits with
    | .ok 0 => some 0
    | _ => none
  | digits => (Numeral.read 10 UInt16.size digits).toOption.map UInt16.ofNat

def count? (t : Text) : Option Nat := (Numeral.read 10 UInt64.size t).toOption

def commandLine : CommandLine where
  options := [{ CommandOption.path "output" with letter := some 'o' }, .path "bin", .path "parfile",
    .path "json", .path "config", .readable "branch-alignment" alignment?,
    .readable "warn-limit" count?, .flag "no-fill", .flag "verify", .help, .version]
  operandLimit := 1
  acceptsOperand t := !t.isEmpty

structure Request where
  source : Text
  textImage : Option Text := none
  binaryImage : Option Text := none
  parameterFile : Option Text := none
  json : Option Text := none
  settings : Option Text := none
  branchAlignment : Option UInt16 := none
  warningLimit : Option Nat := none
  fill : Bool := true
  verify : Bool := false
deriving DecidableEq, Repr

def Request.ofArguments (arguments : List Text) : Except Halt Request := do
  let parsed ← commandLine.parse arguments
  match parsed.operands with
  | [source] =>
    return {
      source
      textImage := parsed.value? "output"
      binaryImage := parsed.value? "bin"
      parameterFile := parsed.value? "parfile"
      json := parsed.value? "json"
      settings := parsed.value? "config"
      branchAlignment := (parsed.value? "branch-alignment").bind alignment?
      warningLimit := (parsed.value? "warn-limit").bind count?
      fill := !parsed.has "no-fill"
      verify := parsed.has "verify" }
  | _ => throw .usage

inductive SettingsFault where
  | unreadable (path : Text) (fault : FileFault)
  | unusable (path : Text) (fault : JsonFault)
deriving DecidableEq, Repr

def SettingsFault.failure : SettingsFault → ToolFailure
  | unreadable path fault =>
    { message := s!"reading {String.ofList path}", cause? := some fault.message }
  | unusable path fault =>
    { message := s!"parsing {String.ofList path}", cause? := some fault.message }

namespace Request

/-- The settings of the file that is named, if any, under those given on the command line. -/
def loadSettings (request : Request) (host : Host) : Except SettingsFault Settings := do
  let settings ← match request.settings with
    | none => pure {}
    | some path =>
      let text ← (host.readText path).mapError (.unreadable path)
      (Settings.ofJson text).mapError (.unusable path)
  return { settings with
    branchAlignment := request.branchAlignment.getD settings.branchAlignment
    warningLimit := request.warningLimit <|> settings.warningLimit }

def checkFields (program : Program) : Except ToolFailure Unit :=
  match (program.verify program.report).2 with
  | .error failure => .error { message := failure.message }
  | .ok [] => .ok ()
  | .ok mismatches =>
    .error { message := s!"{mismatches.length} fields did not survive disassembly" }

/-- What to write for a program. -/
def outputs (request : Request) (fill : Option Word) (program : Program) : Plan :=
  let files := [
    request.textImage.map fun path ↦
      { path, bytes := .ofText (program.textImage fill), action? := some "creating" },
    request.binaryImage.map fun path ↦
      { path, bytes := program.binaryImage fill, action? := some "writing" },
    request.parameterFile.map fun path ↦
      { path, bytes := .ofText program.parameterFile, action? := some "creating" },
    request.json.map fun path ↦
      { path, bytes := .ofText program.toJson.render, action? := some "creating" }].filterMap id
  { files, printed := if files.isEmpty then program.textImage fill else [] }

def plan (request : Request) (host : Host) : Except ToolFailure Plan := do
  let settings ← (request.loadSettings host).mapError SettingsFault.failure
  let program ← (assembleFile settings host request.source).2.mapError fun failure ↦
    { message := failure.message }
  if request.verify then checkFields program
  return request.outputs (if request.fill then some settings.fillWord else none) program

end Request

def plan (host : Host) (arguments : List Text) : Except Halt (Except ToolFailure Plan) := do
  return (← Request.ofArguments arguments).plan host

end Sequencer.AssemblerTool
