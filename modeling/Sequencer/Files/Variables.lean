import Sequencer.Text.Basic

/-!
# Environment variables in text

A dollar sign refers to a variable: by a name in braces, or by the longest word that follows. A
reference to a variable that is set gives way to its value, once and for all; any other is kept as
it stands.
-/

namespace Sequencer

/-- The environment of a process: entries of a name, an equals sign and a value. -/
abbrev Environment := List Text

/-- The value of a name is what follows it and an equals sign in the first entry that has them. -/
def Environment.get? (environment : Environment) (name : Text) : Option Text :=
  environment.findSome? (name ++ ['=']).isPrefixOf?

namespace Variables

/-- The name that a text refers to right after a dollar sign, and how many characters that takes. An
unclosed brace refers to nothing. -/
def reference : Text → Text × Nat
  | '\x7b' :: braced =>
    match Text.splitFirst '\x7d' braced with
    | some (name, _) => (name, name.length + 2)
    | none => ([], 0)
  | after =>
    let name := after.takeWhile Text.isWord
    (name, name.length)

def value? (lookup : Text → Option Text) (name : Text) : Option Text :=
  if name = [] then none else lookup name

/-- Expand what follows the next `skip` characters. -/
def expandAfter (lookup : Text → Option Text) : (skip : Nat) → Text → Text
  | _, [] => []
  | skip + 1, _ :: rest => expandAfter lookup skip rest
  | 0, '$' :: rest =>
    let (name, length) := reference rest
    match value? lookup name with
    | some value => value ++ expandAfter lookup length rest
    | none => '$' :: rest.take length ++ expandAfter lookup length rest
  | 0, c :: rest => c :: expandAfter lookup 0 rest

def expand (lookup : Text → Option Text) (text : Text) : Text := expandAfter lookup 0 text

/-- The names that a text may refer to. -/
def names : Text → List Text
  | [] => []
  | '$' :: rest => (reference rest).1 :: names rest
  | _ :: rest => names rest

end Variables

end Sequencer
