import Sequencer.Text.Numeral

/-!
# Reports

A run records diagnostics in the order in which they arise and counts them by severity. A fatal
diagnostic ends the run at once, a warning ends it when the warning limit is met, and errors end it
at the check that closes a pass.
-/

namespace Sequencer

inductive Stage where
  | inclusion
  | parser
  | validator
  | linker
  | disassembler
deriving DecidableEq, Repr

namespace Stage

def all : List Stage := [inclusion, parser, validator, linker, disassembler]

def name : Stage → String
  | inclusion => "Include"
  | parser => "Parser"
  | validator => "Validator"
  | linker => "Linker"
  | disassembler => "Disassembler"

end Stage

inductive Severity where
  | info
  | warning
  | error
  | fatal
deriving DecidableEq, Repr

namespace Severity

/-- The severity as it is named in a dump of a program. -/
def name : Severity → String
  | info => "Info"
  | warning => "Warning"
  | error => "Error"
  | fatal => "Fatal"

def title : Severity → String
  | fatal => "Fatal Error"
  | severity => severity.name

end Severity

def atLine : Option Nat → String
  | some line => s!" at line {line}"
  | none => ""

structure Diagnostic where
  severity : Severity
  stage : Stage
  line : Option Nat
  message : String
deriving DecidableEq, Repr

def Diagnostic.render (d : Diagnostic) : String :=
  s!"{d.stage.name} {d.severity.title}{atLine d.line} : {d.message}"

/-- Why a run gives no program. -/
inductive Failure where
  | fatal (stage : Stage) (line : Option Nat) (message : String)
  | aborted (stage : Stage) (errors : Nat)
  | warningLimit (warnings : Nat)
  | unknownWord (index : Nat) (word : UInt16)
  | internal (message : String)
  | badAlignment (alignment : UInt16)
deriving DecidableEq, Repr

def Failure.message : Failure → String
  | fatal stage line message => s!"{stage.name} fatal error{atLine line}: {message}"
  | aborted stage errors => s!"{stage.name} halted with {errors} error(s)"
  | warningLimit warnings => s!"warning limit reached ({warnings} warning(s))"
  | unknownWord index word =>
    let shown := String.ofList (Numeral.markedBinary 15 word.toNat)
    s!"unrecognized machine word {shown} at index {index}"
  | internal message => s!"internal error: {message}"
  | badAlignment alignment =>
    "invalid configuration: branch_target_alignment must be a non-zero even number, found " ++
      s!"{alignment.toNat}"

structure Tally where
  infos : Nat := 0
  warnings : Nat := 0
  errors : Nat := 0
deriving DecidableEq, Repr

structure Report where
  diagnostics : List Diagnostic := []
  tally : Tally := {}
  warningLimit : Option Nat := none
deriving DecidableEq, Repr

namespace Report

def start (warningLimit : Option Nat) : Report := { warningLimit }

def record (report : Report) (severity : Severity) (stage : Stage) (line : Option Nat)
    (message : String) : Report :=
  { report with diagnostics := report.diagnostics ++ [{ severity, stage, line, message }] }

def info (report : Report) (stage : Stage) (line : Option Nat) (message : String) : Report :=
  { report.record .info stage line message with
    tally := { report.tally with infos := report.tally.infos + 1 } }

def error (report : Report) (stage : Stage) (line : Option Nat) (message : String) : Report :=
  { report.record .error stage line message with
    tally := { report.tally with errors := report.tally.errors + 1 } }

def warningLimitMet (report : Report) : Bool :=
  report.warningLimit.any (· ≤ report.tally.warnings)

/-- A warning fails the run when it meets the limit; a limit of zero is met by the first. -/
def warn (report : Report) (stage : Stage) (line : Option Nat) (message : String) :
    Report × Except Failure Unit :=
  let report :=
    { report.record .warning stage line message with
      tally := { report.tally with warnings := report.tally.warnings + 1 } }
  (report,
    if report.warningLimitMet then .error (.warningLimit report.tally.warnings) else .ok ())

/-- A fatal diagnostic is recorded but not counted. -/
def fatal (report : Report) (stage : Stage) (line : Option Nat) (message : String) :
    Report × Failure :=
  (report.record .fatal stage line message, .fatal stage line message)

/-- The check that closes a pass. -/
def check (report : Report) (stage : Stage) : Except Failure Unit :=
  if report.tally.errors = 0 then .ok () else .error (.aborted stage report.tally.errors)

def errors (report : Report) : List Diagnostic :=
  report.diagnostics.filter fun d ↦ d.severity = .error

end Report

end Sequencer
