import Sequencer.Flag
import Sequencer.Source.Line

/-!
# Statements

    [@label:] [FLAG ...] [OPCODE [operand [,] operand]]   # comment
    [@label:] $name = expression                          # comment

A line is taken apart before anything in it is given a meaning.
-/

namespace Sequencer

inductive Body where
  | definition (name expression : Text)
  | instruction (flags : FlagSet) (rest : List Text)
deriving DecidableEq, Repr

structure Statement where
  label : Option Text
  body : Body
deriving DecidableEq, Repr

namespace Statement

/-- A label with its at sign, and what follows the colon. -/
def splitLabel (code : Text) : Option (Text × Text) :=
  match code with
  | '@' :: _ =>
    match Text.splitFirst ':' code with
    | some (label, rest) =>
      if Text.isName label.tail then some (label, Text.trim rest) else none
    | none => none
  | _ => none

/-- The name and the expression of a constant definition. -/
def splitDefinition (code : Text) : Option (Text × Text) :=
  match code with
  | '$' :: rest =>
    match Text.splitFirst '=' rest with
    | some (name, expression) =>
      if Text.isName (Text.trimEnd name) then some (Text.trimEnd name, Text.trim expression)
      else none
    | none => none
  | _ => none

/-- The flags that lead a list of tokens, and the tokens after them. -/
def splitFlags : List Text → FlagSet × List Text
  | [] => (.empty, [])
  | token :: rest =>
    match FlagSet.ofToken? token with
    | some flag =>
      let (flags, rest) := splitFlags rest
      (flag.union flags, rest)
    | none => (.empty, token :: rest)

def bodyOf (code : Text) : Body :=
  match splitDefinition code with
  | some (name, expression) => .definition name expression
  | none =>
    let (flags, rest) := splitFlags (Source.tokens (Source.normalize code))
    .instruction flags rest

def ofText (line : Text) : Statement :=
  let code := Source.code line
  match splitLabel code with
  | some (label, rest) => ⟨some label, bodyOf rest⟩
  | none => ⟨none, bodyOf code⟩

end Statement

end Sequencer
