import Sequencer.Files.Path

/-!
# Files

A small file system: files, and the directories that lead to them. The names of the working
directory and of those above it are not known, so a way down to it again is not found.
-/

namespace Sequencer

inductive FileFault where
  | notFound
  | notDirectory
  | isDirectory
  | nameTooLong
  | zeroInName
  | notText
  | other (message : String)
deriving DecidableEq, Repr

def FileFault.message : FileFault → String
  | notFound => "No such file or directory (os error 2)"
  | notDirectory => "Not a directory (os error 20)"
  | isDirectory => "Is a directory (os error 21)"
  | nameTooLong => "File name too long (os error 36)"
  | zeroInName => "file name contained an unexpected NUL byte"
  | notText => "stream did not contain valid UTF-8"
  | other message => message

abbrev Bytes := List UInt8

def Bytes.toText (bytes : Bytes) : Except FileFault Text :=
  match String.fromUTF8? ⟨bytes.toArray⟩ with
  | some text => .ok text.toList
  | none => .error .notText

def Bytes.ofText (text : Text) : Bytes := (String.ofList text).toUTF8.toList

/-- Where a path starts: some levels above the working directory, or at the root. -/
inductive Base where
  | above (levels : Nat)
  | root
deriving DecidableEq, Repr

/-- A place in the file system: a base, and the names that lead on from it. -/
structure Place where
  base : Base := .above 0
  names : List Text := []
deriving DecidableEq, Repr

namespace Place

def child (place : Place) (name : Text) : Place :=
  { place with names := place.names ++ [name] }

/-- One level up. Nothing is above the root. -/
def parent (place : Place) : Place :=
  match place.base, place.names with
  | .above levels, [] => { base := .above (levels + 1) }
  | .root, [] => place
  | _, names => { place with names := names.dropLast }

def contains (place other : Place) : Bool :=
  place.base = other.base && place.names.isPrefixOf other.names

end Place

/-- Files by their places. Directories are the bases and what leads to a file. -/
structure FileSystem where
  files : List (Place × Bytes) := []

namespace FileSystem

inductive Node where
  | file (bytes : Bytes)
  | directory
deriving DecidableEq, Repr

def node? (fs : FileSystem) (place : Place) : Option Node :=
  match fs.files.lookup place with
  | some bytes => some (.file bytes)
  | none =>
    if place.names = [] ∨ fs.files.any (place.contains ·.1) then some .directory else none

/-- Names between the slashes of a path. -/
def names (path : Text) : List Text := (Text.splitAll '/' path).filter (· ≠ [])

def start (path : Text) : Place := if Path.isAbsolute path then { base := .root } else {}

def maxNameLength : Nat := 255

def maxPathLength : Nat := 4095

/-- From a directory to what it holds under a name. -/
def enter (fs : FileSystem) (place : Place) (name : Text) : Except FileFault Place :=
  if name = ['.'] then .ok place
  else if name = ['.', '.'] then .ok place.parent
  else if maxNameLength < Text.byteLength name then .error .nameTooLong
  else match fs.node? (place.child name) with
    | some _ => .ok (place.child name)
    | none => .error .notFound

def walk (fs : FileSystem) : Place → List Text → Except FileFault Place
  | place, [] => .ok place
  | place, name :: rest =>
    match fs.node? place with
    | some .directory => do walk fs (← fs.enter place name) rest
    | _ => .error .notDirectory

def checkPath (path : Text) : Except FileFault Unit :=
  if path.contains '\x00' then .error .zeroInName
  else if path = [] then .error .notFound
  else if maxPathLength < Text.byteLength path then .error .nameTooLong
  else .ok ()

def endsInSlash (path : Text) : Bool := path.getLast? = some '/'

/-- A slash at the end asks for a directory. -/
def read (fs : FileSystem) (path : Text) : Except FileFault Bytes := do
  checkPath path
  let final := if endsInSlash path then [['.']] else []
  match fs.node? (← fs.walk (start path) (names path ++ final)) with
  | some (.file bytes) => return bytes
  | some .directory => throw .isDirectory
  | none => throw .notFound

/-- Create or replace a file in a directory that exists. -/
def write (fs : FileSystem) (path : Text) (bytes : Bytes) : Except FileFault FileSystem := do
  checkPath path
  match (names path).reverse with
  | [] => throw .isDirectory
  | name :: above =>
    let directory ← fs.walk (start path) (above.reverse ++ [['.']])
    if endsInSlash path ∨ name = ['.'] ∨ name = ['.', '.'] then throw .isDirectory
    if maxNameLength < Text.byteLength name then throw .nameTooLong
    let place := directory.child name
    match fs.node? place with
    | some .directory => throw .isDirectory
    | _ => return { files := (place, bytes) :: fs.files.filter (·.1 ≠ place) }

end FileSystem

end Sequencer
