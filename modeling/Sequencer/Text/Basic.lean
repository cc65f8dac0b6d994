/-!
# Text

Text is held as a list of characters, so that every reader is recursion on the text it reads.
Letters, digits and letter case are those of ASCII; every other character is only ever compared.
-/

namespace Sequencer

abbrev Text := List Char

namespace Text

/-- The characters of a name: letters, digits and the underscore. -/
def isWord (c : Char) : Bool := c.isAlphanum || c == '_'

def isName (t : Text) : Bool := !t.isEmpty && t.all isWord

def upper (t : Text) : Text := t.map Char.toUpper

def lower (t : Text) : Text := t.map Char.toLower

/-- What stands before and after the first `mark`. -/
def splitFirst (mark : Char) : Text → Option (Text × Text)
  | [] => none
  | c :: rest =>
    if c == mark then some ([], rest)
    else (splitFirst mark rest).map fun (before, after) ↦ (c :: before, after)

/-- What stands before and after the first `pair` of neighbouring characters. -/
def splitFirstPair (pair : Char × Char) : Text → Option (Text × Text)
  | c :: d :: rest =>
    if (c, d) == pair then some ([], rest)
    else (splitFirstPair pair (d :: rest)).map fun (before, after) ↦ (c :: before, after)
  | _ => none

def splitAll (mark : Char) : Text → List Text
  | [] => [[]]
  | c :: rest =>
    if c == mark then [] :: splitAll mark rest
    else match splitAll mark rest with
      | piece :: more => (c :: piece) :: more
      | [] => [[c]]

def join (separator : Text) : List Text → Text
  | [] => []
  | [t] => t
  | t :: more => t ++ separator ++ join separator more

/-- Lines end at a line feed, and a carriage return right before it belongs to the line's end. A
final line feed opens no further line. -/
def lines : Text → List Text
  | [] => []
  | '\n' :: rest => [] :: lines rest
  | '\r' :: '\n' :: rest => [] :: lines rest
  | c :: rest =>
    match lines rest with
    | line :: more => (c :: line) :: more
    | [] => [[c]]

/-- Runs of a text: a character of `skip` belongs to no run and ends one, and two neighbours stay in
one run when `joins` holds of them. -/
def runs (skip : Char → Bool) (joins : Char → Char → Bool) : Text → List Text
  | [] => []
  | c :: rest =>
    if skip c then runs skip joins rest
    else match rest.head?, runs skip joins rest with
      | some d, run :: more =>
        if !skip d && joins c d then (c :: run) :: more else [c] :: run :: more
      | _, more => [c] :: more

/-- Bytes the text takes in UTF-8. -/
def byteLength : Text → Nat
  | [] => 0
  | c :: rest => c.utf8Size + byteLength rest

end Text

end Sequencer
