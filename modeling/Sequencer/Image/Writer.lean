import Sequencer.Assembly

/-!
# Writing images

An image lists the words of a program in the order of their addresses. The skipped words between
them are either left out or filled with one and the same word.
-/

namespace Sequencer

structure PlacedWord where
  address : Nat
  code : Word
  label : String
deriving DecidableEq, Repr

namespace PlacedWord

def ofCommand (command : Command) : PlacedWord :=
  { address := command.address.toNat, code := command.code, label := command.opcode.mnemonic }

/-- The skipped words from `next` up to `address`. -/
def gap (fill : Option Word) (next address : Nat) : List PlacedWord :=
  match fill with
  | none => []
  | some code =>
    (List.range' next (address - next)).map fun address ↦ { address, code, label := "fill" }

/-- One line of a text image. -/
def render (word : PlacedWord) : Text :=
  Numeral.binary 15 word.code.toNat ++ " // 0x".toList ++
    (Numeral.hex 4 word.address).map Char.toUpper ++ "h ".toList ++ word.label.toList ++ ['\n']

def bytes (word : PlacedWord) : List UInt8 := [(word.code >>> 8).toUInt8, word.code.toUInt8]

end PlacedWord

namespace Program

def image (program : Program) : List PlacedWord := program.commands.map .ofCommand

def placedFrom (fill : Option Word) : Nat → List PlacedWord → List PlacedWord
  | _, [] => []
  | next, word :: rest =>
    PlacedWord.gap fill next word.address ++
      word :: placedFrom fill (min (word.address + 1) maxAddress) rest

def placedWords (program : Program) (fill : Option Word) : List PlacedWord :=
  placedFrom fill 0 program.image

/-- The text image: a word in each line, with its address and mnemonic as a comment. -/
def textImage (program : Program) (fill : Option Word) : Text :=
  (program.placedWords fill).flatMap PlacedWord.render

/-- The binary image: each word as two bytes, the higher first. -/
def binaryImage (program : Program) (fill : Option Word) : List UInt8 :=
  (program.placedWords fill).flatMap PlacedWord.bytes

def parameterHeader : Text :=
  "// Verilog parameter table include file for symbols (purpose: verification)\n".toList

def parameterLine (entry : Text × Symbol) : Text :=
  match entry.2.address with
  | none => []
  | some address =>
    let name := match entry.1 with
      | '@' :: name => name
      | name => name
    "parameter addr_".toList ++ name ++ "_c = ".toList ++ Numeral.decimal address.toNat ++
      ";\n".toList

/-- A parameter for each symbol with an address, in source order. -/
def parameterFile (program : Program) : Text :=
  parameterHeader ++ program.symbols.byLine.flatMap parameterLine

end Program

end Sequencer
