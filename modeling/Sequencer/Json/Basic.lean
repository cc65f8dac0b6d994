import Sequencer.Text.Numeral

/-!
# JSON values

Values and their indented form: a line for each member, two blanks for each level.
-/

namespace Sequencer

inductive Json where
  | null
  | number (value : Int)
  | text (value : Text)
  | list (items : List Json)
  | object (members : List (Text × Json))

namespace Json

def ofNat (n : Nat) : Json := .number n

def ofString (s : String) : Json := .text s.toList

def ofOption {α : Type} (encode : α → Json) : Option α → Json
  | some a => encode a
  | none => .null

/-- An object whose names are given as literals. -/
def record (members : List (String × Json)) : Json :=
  .object (members.map fun (name, value) ↦ (name.toList, value))

/-- A character inside quotes. Only quotes, backslashes and control characters are escaped. -/
def escaped (c : Char) : Text :=
  match c with
  | '"' => ['\\', '"']
  | '\\' => ['\\', '\\']
  | '\n' => ['\\', 'n']
  | '\r' => ['\\', 'r']
  | '\t' => ['\\', 't']
  | '\x08' => ['\\', 'b']
  | '\x0c' => ['\\', 'f']
  | c => if c.toNat < 0x20 then '\\' :: 'u' :: Numeral.hex 4 c.toNat else [c]

def quoted (t : Text) : Text := '"' :: t.flatMap escaped ++ ['"']

def integer : Int → Text
  | .ofNat n => Numeral.decimal n
  | .negSucc n => '-' :: Numeral.decimal (n + 1)

def newLine (level : Nat) : Text := '\n' :: List.replicate (2 * level) ' '

/-- Rendered members between brackets, each on a line of its own. -/
def bracketed (opening closing : Char) (level : Nat) : List Text → Text
  | [] => [opening, closing]
  | members =>
    let lines := members.map (newLine (level + 1) ++ ·)
    opening :: Text.join [','] lines ++ newLine level ++ [closing]

mutual

def renderAt (level : Nat) : Json → Text
  | .null => "null".toList
  | .number value => integer value
  | .text value => quoted value
  | .list items => bracketed '[' ']' level (renderItems (level + 1) items)
  | .object members => bracketed '\x7b' '\x7d' level (renderMembers (level + 1) members)

def renderItems (level : Nat) : List Json → List Text
  | [] => []
  | item :: rest => renderAt level item :: renderItems level rest

def renderMembers (level : Nat) : List (Text × Json) → List Text
  | [] => []
  | (name, value) :: rest =>
    (quoted name ++ [':', ' '] ++ renderAt level value) :: renderMembers level rest

end

def render (json : Json) : Text := json.renderAt 0

end Json

end Sequencer
