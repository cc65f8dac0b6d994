import Sequencer.Files.Basic
import Sequencer.Tool.Arguments

/-!
# Runs of a tool

A tool reads its input and plans what it will write. Carrying out the plan stops at the first file
that cannot be written.
-/

namespace Sequencer

structure ToolFailure where
  message : String
  cause? : Option String := none
deriving DecidableEq, Repr

namespace ToolFailure

/-- The message and its cause in one line. -/
def summary (failure : ToolFailure) : String :=
  match failure.cause? with
  | some cause => s!"{failure.message}: {cause}"
  | none => failure.message

def render (failure : ToolFailure) : String :=
  match failure.cause? with
  | some cause => s!"Error: {failure.message}\n\nCaused by:\n    {cause}\n"
  | none => s!"Error: {failure.message}\n"

end ToolFailure

/-- A file to be written, and what to call that if it fails. -/
structure FileOutput where
  path : Text
  bytes : Bytes
  action? : Option String := none
deriving DecidableEq, Repr

def FileOutput.failure (output : FileOutput) (fault : FileFault) : ToolFailure :=
  match output.action? with
  | some action =>
    { message := s!"{action} {String.ofList output.path}", cause? := some fault.message }
  | none => { message := fault.message }

/-- Files to be written one after another, and the text to be printed after them. -/
structure Plan where
  files : List FileOutput := []
  printed : Text := []
deriving DecidableEq, Repr

structure Outcome where
  exitCode : UInt8
  printed : Text := []
  errors : String := ""
deriving DecidableEq, Repr

namespace Outcome

def failed (failure : ToolFailure) : Outcome := { exitCode := 1, errors := failure.render }

/-- Asking for help is no mistake. -/
def halted : Halt → Outcome
  | .usage => { exitCode := 2 }
  | .help | .version => { exitCode := 0 }

end Outcome

namespace FileSystem

def writeAll : FileSystem → List FileOutput → FileSystem × Except ToolFailure Unit
  | fs, [] => (fs, .ok ())
  | fs, output :: rest =>
    match fs.write output.path output.bytes with
    | .ok fs => fs.writeAll rest
    | .error fault => (fs, .error (output.failure fault))

def carryOut (fs : FileSystem) (planned : Except Halt (Except ToolFailure Plan)) :
    FileSystem × Outcome :=
  match planned with
  | .error halt => (fs, .halted halt)
  | .ok (.error failure) => (fs, .failed failure)
  | .ok (.ok plan) =>
    match fs.writeAll plan.files with
    | (fs, .error failure) => (fs, .failed failure)
    | (fs, .ok ()) => (fs, { exitCode := 0, printed := plan.printed })

end FileSystem

end Sequencer
