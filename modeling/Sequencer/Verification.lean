import Sequencer.Assembly
import Sequencer.Machine.Decoded

/-!
# Disassembly and verification

Words are decoded one by one, and the first that decodes to nothing ends the run. Verification
decodes a program's own words and compares each with the command it came from.
-/

namespace Sequencer

/-- The first word that decodes to nothing, with its place. -/
def firstUndecodable? (words : List Word) : Option (Word × Nat) :=
  words.zipIdx.find? fun (word, _) ↦ (decode word).isNone

def disassemble (words : List Word) (report : Report) : Report × Except Failure (List Decoded) :=
  match firstUndecodable? words with
  | none => (report, .ok (words.filterMap decode))
  | some (word, index) =>
    let shown := String.ofList (Numeral.markedHex 4 word.toNat)
    ((report.fatal .disassembler none s!"unrecognized machine code {shown} at index {index}").1,
      .error (.unknownWord index word))

inductive ComparedField where
  | opcode
  | flags
  | register
  | target
  | value
deriving DecidableEq, Repr

def ComparedField.name : ComparedField → String
  | opcode => "opcode"
  | flags => "flags"
  | register => "regsel"
  | target => "target"
  | value => "value"

/-- A field in which a command and its word differ. -/
structure Mismatch where
  index : Nat
  line : Nat
  field : ComparedField
  expected : UInt16
  found : UInt16
deriving DecidableEq, Repr

def Mismatch.message (mismatch : Mismatch) : String :=
  s!"{mismatch.field.name} mismatch: expected {mismatch.expected.toNat}, " ++
    s!"decoded {mismatch.found.toNat}"

namespace Command

def compareField (command : Command) (field : ComparedField) (expected found : UInt16) :
    List Mismatch :=
  if expected = found then []
  else [{ index := command.index, line := command.line, field, expected, found }]

/-- The address a branch should go to; the highest address stands for one that is not known. -/
def expectedTarget (symbols : Symbols) (command : Command) : UInt16 :=
  ((command.target?.bind symbols.get?).bind Symbol.address).getD 65535

/-- Compare a command with a decoded word. A different operation hides all other fields, and a
command without an operation is not compared. -/
def compareWith (symbols : Symbols) (command : Command) (decoded : Decoded) : List Mismatch :=
  match command.op? with
  | none => []
  | some op =>
    if op ≠ decoded.op then
      command.compareField .opcode (UInt16.ofNat op.number) (UInt16.ofNat decoded.op.number)
    else
      let layout := FlagSet.ofLetters op.format.flags
      command.compareField .flags (command.flags.inter layout).bits decoded.flagSet.bits ++
        command.compareField .register command.registerIndex decoded.register ++
        match decoded.target? with
        | some found => command.compareField .target (command.expectedTarget symbols) found
        | none => command.compareField .value (command.constant?.getD 0) decoded.value

end Command

/-- Where the commands of a program differ from decoded words, in the order of the commands. -/
def Program.mismatches (program : Program) (decoded : List Decoded) : List Mismatch :=
  (program.commands.zip decoded).flatMap fun pair ↦ pair.1.compareWith program.symbols pair.2

/-- Compare every command of a program with its word, recording each mismatch as an error. -/
def Program.verify (program : Program) (report : Report) :
    Report × Except Failure (List Mismatch) :=
  match disassemble program.codes report with
  | (report, .error failure) => (report, .error failure)
  | (report, .ok decoded) =>
    let mismatches := program.mismatches decoded
    (mismatches.foldl
      (fun report mismatch ↦ report.error .disassembler (some mismatch.line) mismatch.message)
      report, .ok mismatches)

end Sequencer
