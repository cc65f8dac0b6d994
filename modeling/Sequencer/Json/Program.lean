import Sequencer.Assembly
import Sequencer.Image.Listing
import Sequencer.Json.Basic

/-!
# Programs and listings in JSON
-/

namespace Sequencer

def Operand.toJson : Operand → Json
  | register kind index =>
    .record [("Register", .record [("class", .ofString kind.name),
      ("index", .ofOption (fun i ↦ .ofNat i.toNat) index)])]
  | address name => .record [("Address", .text name)]
  | constant value => .record [("Constant", .ofNat value.toNat)]

def Command.toJson (command : Command) : Json :=
  .record [
    ("flags", .text command.flags.names),
    ("opcode", .ofString command.opcode.name),
    ("raw_operands", .list (command.rawOperands.map .text)),
    ("operands", .list (command.operands.map Operand.toJson)),
    ("index", .ofNat command.index),
    ("line", .ofNat command.line),
    ("alignment", .ofNat command.alignment.toNat),
    ("address", .ofNat command.address.toNat),
    ("code", .ofNat command.code.toNat)]

def Symbol.toJson (name : Text) (symbol : Symbol) : Json :=
  .record [
    ("name", .text name),
    ("command_index", .ofNat symbol.commandIndex),
    ("line", .ofNat symbol.line),
    ("alignment", .ofNat symbol.alignment.toNat),
    ("address", .ofOption (fun a ↦ .ofNat a.toNat) symbol.address)]

def Diagnostic.toJson (diagnostic : Diagnostic) : Json :=
  .record [
    ("severity", .ofString diagnostic.severity.name),
    ("stage", .ofString diagnostic.stage.name),
    ("line", .ofOption .ofNat diagnostic.line),
    ("message", .ofString diagnostic.message)]

def Tally.toJson (tally : Tally) : Json :=
  .record [
    ("infos", .ofNat tally.infos),
    ("warnings", .ofNat tally.warnings),
    ("errors", .ofNat tally.errors)]

/-- A table as an object, in the order of its names. -/
def Table.toJson {α : Type} (encode : Text → α → Json) (table : Table α) : Json :=
  .object (table.entries.map fun (name, value) ↦ (name, encode name value))

def Program.toJson (program : Program) : Json :=
  .record [
    ("commands", .list (program.commands.map Command.toJson)),
    ("symbols", .record [("entries", program.symbols.toJson Symbol.toJson)]),
    ("constants", .record [("values", program.constants.values.toJson fun _ ↦ .number)]),
    ("diagnostics", .list (program.report.diagnostics.map Diagnostic.toJson)),
    ("counts", program.report.tally.toJson)]

def Decoded.toJson (decoded : Decoded) : Json :=
  .record [
    ("op", .ofString decoded.op.name),
    ("regsel", .ofNat decoded.register.toNat),
    ("flags", .ofNat decoded.flags.toNat),
    ("padding", .ofNat decoded.padding.toNat),
    ("value", .ofNat decoded.value.toNat),
    ("raw", .ofNat decoded.raw.toNat)]

def ListedWord.toJson (listed : ListedWord) : Json :=
  .record [
    ("addr", .ofNat listed.address),
    ("word", .ofNat listed.word.toNat),
    ("text", .text listed.decoded.render),
    ("decoded", listed.decoded.toJson)]

end Sequencer
