import Sequencer.Main
import Sequencer.Proofs.Bits
import Sequencer.Proofs.CodeTree
import Sequencer.Proofs.Flag
import Sequencer.Proofs.WordCodec
import Sequencer.Proofs.Layout
import Sequencer.Proofs.Linking
import Sequencer.Proofs.Acceptance
import Sequencer.Proofs.Assembly
import Sequencer.Proofs.RoundTrip
import Sequencer.Proofs.Validation
import Sequencer.Proofs.Text
import Sequencer.Proofs.ImageCodec
import Sequencer.Proofs.Targets
import Sequencer.Proofs.MemoryImage
import Sequencer.Proofs.Source
import Sequencer.Proofs.Literals
import Sequencer.Proofs.Reassembly
import Sequencer.Proofs.LinkOutcome
import Sequencer.Proofs.Except
import Sequencer.Proofs.PrefixCode
import Sequencer.Proofs.Halting
import Sequencer.Proofs.RunOutcome
import Sequencer.Proofs.Lexing
import Sequencer.Proofs.Grammar
import Sequencer.Proofs.Evaluation
import Sequencer.Proofs.Reading
import Sequencer.Proofs.ProgramLayout
import Sequencer.Proofs.Growth
import Sequencer.Proofs.Continuation
import Sequencer.Proofs.Unfolding
import Sequencer.Proofs.Splicing
import Sequencer.Proofs.Respacing
import Sequencer.Proofs.LeastLayout
import Sequencer.Proofs.Verdict
import Sequencer.Proofs.Binding
import Sequencer.Proofs.Precedents
import Sequencer.Proofs.Hoisting
import Sequencer.Proofs.Gathering
import Sequencer.Proofs.Definitions
import Sequencer.Proofs.OperandText
import Sequencer.Proofs.Disassembly
import Sequencer.Proofs.AlteredWords
import Sequencer.Proofs.Warnings
import Sequencer.Proofs.Parentheses
import Sequencer.Proofs.IndexForms
import Sequencer.Proofs.LetterCase
import Sequencer.Proofs.Expansion
import Sequencer.Proofs.ParameterFile
import Sequencer.Proofs.NormalForm
