import Sequencer.Image.File
import Sequencer.Json.Program
import Sequencer.Tool.Plan

/-!
# The disassembler tool

    [--skip N] IMAGE info
    [--skip N] IMAGE range [START] [END] [--show-bits] [--format text|json] [--out FILE]
    help [SUBCOMMAND]

An image is summed up, or its words from one address up to another are listed.
-/

namespace Sequencer.DisassemblerTool

inductive ListingFormat where
  | text
  | json
deriving DecidableEq, Repr

def ListingFormat.ofName? (name : Text) : Option ListingFormat :=
  if name = "text".toList then some text
  else if name = "json".toList then some json
  else none

def skip? (t : Text) : Option Nat := (Numeral.read 10 UInt64.size t).toOption

def commandLine : CommandLine where
  options := [.readable "skip" skip?, .help, .version]
  operandLimit := 1
  subcommands := ["info", "range", "help"]

def infoLine : CommandLine where
  options := [.help]
  operandLimit := 0

def rangeLine : CommandLine where
  options := [.flag "show-bits", .readable "format" ListingFormat.ofName?, .text "out", .help]
  operandLimit := 2

structure Range where
  start : Text
  stop : Option Text
  showBits : Bool
  format : ListingFormat
  output : Option Text
deriving DecidableEq, Repr

def Range.ofArguments (arguments : Arguments) : Range where
  start := arguments.operands.head?.getD ['0']
  stop := arguments.operands.drop 1 |>.head?
  showBits := arguments.has "show-bits"
  format := ((arguments.value? "format").bind ListingFormat.ofName?).getD .text
  output := arguments.value? "out"

inductive Task where
  | info
  | range (range : Range)
deriving DecidableEq, Repr

/-- Help may be asked for on one subcommand, and on no more, as none has subcommands of its own. -/
def helpOn : List Text → Halt
  | [] => .help
  | [name] => if commandLine.subcommands.any (·.toList = name) then .help else .usage
  | _ => .usage

def Task.ofArguments (name : String) (arguments : List Text) : Except Halt Task := do
  match name with
  | "info" => let _ ← infoLine.parse arguments; return .info
  | "range" => return .range (.ofArguments (← rangeLine.parse arguments))
  | _ => throw (helpOn arguments)

structure Request where
  skip : Nat := 0
  image : Text
  task : Task
deriving DecidableEq, Repr

def Request.ofArguments (arguments : List Text) : Except Halt Request := do
  let parsed ← commandLine.parse arguments
  match parsed.subcommand with
  | none => throw .usage
  | some (name, rest) =>
    let task ← Task.ofArguments name rest
    match parsed.operands with
    | [image] => return { skip := ((parsed.value? "skip").bind skip?).getD 0, image, task }
    | _ => throw .usage

/-- Text in a column of eight characters. -/
def column (t : Text) : Text := t ++ List.replicate (8 - t.length) ' '

def infoRow (first second : Text) : Text := column first ++ [' '] ++ column second ++ ['\n']

def info (image : Image) : Text :=
  infoRow "words".toList "bytes".toList ++
    infoRow (Numeral.decimal image.length) (Numeral.decimal (2 * image.length))

def Range.render (range : Range) (listed : List ListedWord) : Text :=
  match range.format with
  | .text => listed.flatMap (ListedWord.render range.showBits)
  | .json => (Json.list (listed.map ListedWord.toJson)).render ++ ['\n']

def readAddress (t : Text) : Except ToolFailure Nat :=
  (Address.read t).mapError fun fault ↦ { message := fault.message }

def Range.plan (range : Range) (image : Image) : Except ToolFailure Plan := do
  let start ← readAddress range.start
  let stop ← match range.stop with
    | some stop => readAddress stop
    | none => pure image.length
  if stop < start then throw { message := "end must be >= start" }
  let listed ← (image.listing start stop).mapError fun fault ↦ { message := fault.message }
  let text := range.render listed
  match range.output with
  | some path => return { files := [{ path, bytes := .ofText text }] }
  | none => return { printed := text }

def Request.plan (request : Request) (read : Text → Except FileFault Bytes) :
    Except ToolFailure Plan := do
  let image ← (Image.load read request.skip request.image).mapError fun fault ↦
    { message := fault.message, cause? := fault.cause? }
  match request.task with
  | .info => return { printed := info image }
  | .range range => range.plan image

def plan (read : Text → Except FileFault Bytes) (arguments : List Text) :
    Except Halt (Except ToolFailure Plan) := do
  return (← Request.ofArguments arguments).plan read

end Sequencer.DisassemblerTool
