import Sequencer.Text.Basic

/-!
# Paths

A path is a text with slashes between its pieces. Empty pieces and single dots say nothing, except
for a dot at the front; two dots are a piece like any other, as only the file system knows where
they lead.
-/

namespace Sequencer.Path

def isAbsolute (path : Text) : Bool := path.head? = some '/'

/-- The root or the leading dot of a path. -/
def lead : Text → Text
  | '/' :: _ => ['/']
  | ['.'] => ['.']
  | '.' :: '/' :: _ => ['.']
  | _ => []

def saysNothing (piece : Text) : Bool := piece = [] || piece = ['.']

/-- The pieces after the lead that count, the last one first, and before it all others as they
stand. -/
def lastPieces (path : Text) : List Text :=
  (Text.splitAll '/' (path.drop (lead path).length)).reverse.dropWhile saysNothing

/-- The directory part of a path; neither the root nor the empty path has one. -/
def parent? (path : Text) : Option Text :=
  match lastPieces path with
  | _ :: before => some (lead path ++ Text.join ['/'] (before.dropWhile saysNothing).reverse)
  | [] => if lead path = ['.'] then some [] else none

def join (directory path : Text) : Text :=
  if isAbsolute path then path
  else match directory.getLast? with
    | none | some '/' => directory ++ path
    | some _ => directory ++ '/' :: path

/-- A path written in the file at `file`: relative paths start from that file's directory. -/
def resolve (file path : Text) : Text :=
  if isAbsolute path then path
  else match parent? file with
    | some directory => join directory path
    | none => path

/-- What follows the last dot of the last piece, unless that dot leads the piece. -/
def extension? (path : Text) : Option Text :=
  match lastPieces path with
  | piece :: _ =>
    if piece = ['.', '.'] then none
    else match (Text.splitAll '.' piece).reverse with
      | [_] => none
      | [_, []] => none
      | last :: _ => some last
      | [] => none
  | [] => none

end Sequencer.Path
