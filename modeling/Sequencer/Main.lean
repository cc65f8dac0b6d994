import Sequencer.Tool.Assembler
import Sequencer.Tool.Disassembler

/-!
# The command line

    assemble ARGUMENTS...
    disassemble ARGUMENTS...

Files and variables are fetched first, as far as a run can ask for them. The run itself is a
function of what has been fetched, and its plan is then carried out.
-/

namespace Sequencer.Shell

/-- The fault of an error code, which some calls give with a minus sign. -/
def faultOfCode (code : UInt32) (details : String) : FileFault :=
  match min code.toNat (UInt32.size - code.toNat) with
  | 2 => .notFound
  | 20 => .notDirectory
  | 21 => .isDirectory
  | 36 => .nameTooLong
  | code => .other s!"{details} (os error {code})"

def faultOfError : IO.Error → FileFault
  | .noFileOrDirectory _ code details | .inappropriateType _ code details
  | .invalidArgument _ code details | .permissionDenied _ code details
  | .resourceExhausted _ code details | .otherError code details => faultOfCode code details
  | error => .other (toString error)

/-- Run an action on a path, with its error as a fault. -/
def attempt {α : Type} (path : Text) (action : String → IO α) : IO (Except FileFault α) := do
  match FileSystem.checkPath path with
  | .error fault => return .error fault
  | .ok () =>
    match ← (action (String.ofList path)).toBaseIO with
    | .ok result => return .ok result
    | .error error => return .error (faultOfError error)

def readFile (path : Text) : IO (Except FileFault Bytes) :=
  attempt path fun name ↦ return (← IO.FS.readBinFile name).toList

def writeFile (path : Text) (bytes : Bytes) : IO (Except FileFault Unit) :=
  attempt path fun name ↦ IO.FS.writeBinFile name ⟨bytes.toArray⟩

/-- Files and variables as they were when they were asked for first. -/
structure Snapshot where
  files : List (Text × Except FileFault Bytes) := []
  environment : List (Text × Option Text) := []

namespace Snapshot

def host (snapshot : Snapshot) : Host where
  read path := (snapshot.files.lookup path).getD (.error .notFound)
  lookup name := (snapshot.environment.lookup name).join

def addFile (snapshot : Snapshot) (path : Text) : IO Snapshot := do
  if (snapshot.files.lookup path).isSome then return snapshot
  return { snapshot with files := (path, ← readFile path) :: snapshot.files }

def addVariable (snapshot : Snapshot) (name : Text) : IO Snapshot := do
  if (snapshot.environment.lookup name).isSome then return snapshot
  let value ← IO.getEnv (String.ofList name)
  return { snapshot with environment := (name, value.map String.toList) :: snapshot.environment }

/-- The include directives of a file. -/
def directives (snapshot : Snapshot) (path : Text) : List (Inclusion.FileLine × Text) :=
  match snapshot.host.readText path with
  | .ok text =>
    (Inclusion.fileLines path text).filterMap fun entry ↦ entry.target?.map (entry, ·)
  | .error _ => []

/-- Fetch files and all that they include, down to a depth. -/
def addIncluded : (depth : Nat) → Snapshot → List Text → IO Snapshot
  | _, snapshot, [] => return snapshot
  | 0, snapshot, _ => return snapshot
  | depth + 1, snapshot, paths => do
    let snapshot ← paths.foldlM addFile snapshot
    let found := paths.flatMap snapshot.directives
    let names := found.flatMap fun (_, target) ↦ Variables.names target
    let snapshot ← names.foldlM addVariable snapshot
    let included := found.map fun (entry, target) ↦
      Inclusion.includedPath snapshot.host entry target
    let unknown := included.eraseDups.filter fun path ↦ (snapshot.files.lookup path).isNone
    snapshot.addIncluded depth unknown

end Snapshot

def display (outcome : Outcome) : IO UInt32 := do
  IO.print (String.ofList outcome.printed)
  IO.eprint outcome.errors
  return outcome.exitCode.toUInt32

/-- Write the files of a plan, up to the first that fails. -/
def writeAll : List FileOutput → IO (Except ToolFailure Unit)
  | [] => return .ok ()
  | output :: rest => do
    match ← writeFile output.path output.bytes with
    | .ok () => writeAll rest
    | .error fault => return .error (output.failure fault)

def carryOut (planned : Except Halt (Except ToolFailure Plan)) : IO UInt32 := do
  match planned with
  | .error halt => display (.halted halt)
  | .ok (.error failure) => display (.failed failure)
  | .ok (.ok plan) =>
    match ← writeAll plan.files with
    | .error failure => display (.failed failure)
    | .ok () => display { exitCode := 0, printed := plan.printed }

def assembleWith (arguments : List Text) : IO UInt32 := do
  match AssemblerTool.Request.ofArguments arguments with
  | .error halt => carryOut (.error halt)
  | .ok request =>
    let snapshot ← request.settings.toList.foldlM Snapshot.addFile {}
    match request.loadSettings snapshot.host with
    | .error fault => carryOut (.ok (.error fault.failure))
    | .ok settings =>
      let snapshot ← snapshot.addIncluded (settings.includeLimit + 1) [request.source]
      carryOut (.ok (request.plan snapshot.host))

def disassembleWith (arguments : List Text) : IO UInt32 := do
  match DisassemblerTool.Request.ofArguments arguments with
  | .error halt => carryOut (.error halt)
  | .ok request =>
    let snapshot ← Snapshot.addFile {} request.image
    carryOut (.ok (request.plan snapshot.host.read))

end Sequencer.Shell

open Sequencer.Shell in
def main (arguments : List String) : IO UInt32 := do
  match arguments with
  | "assemble" :: rest => assembleWith (rest.map String.toList)
  | "disassemble" :: rest => disassembleWith (rest.map String.toList)
  | _ =>
    IO.eprintln "usage: (assemble | disassemble) ARGUMENTS..."
    return 2
