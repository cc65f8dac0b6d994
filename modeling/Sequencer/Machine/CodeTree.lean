import Sequencer.Machine.Format

/-!
# Code trees

The codes of a table of formats form a binary tree with an operation at the end of each code. A tree
exists for just those tables whose formats are word-sized and whose codes are bit strings, none of
them empty and none the beginning of another.
-/

namespace Sequencer

/-- Why a table of formats has no code tree. -/
inductive FormatFault where
  | width (mnemonic : String) (bits : Nat)
  | overlap (code : Text) (mnemonic : String)
  | notBits (code : Text) (mnemonic : String)
deriving DecidableEq, Repr

def FormatFault.message : FormatFault → String
  | width mnemonic bits =>
    s!"{mnemonic} descriptor is {bits} bits wide, expected {wordBits}"
  | overlap code mnemonic =>
    s!"prefix {String.ofList code} of {mnemonic} overlaps another opcode prefix"
  | notBits code mnemonic =>
    s!"prefix {String.ofList code} of {mnemonic} is not a bit string"

inductive CodeTree where
  | empty
  | leaf (op : MachineOp)
  | node (zero one : CodeTree)
deriving DecidableEq, Repr

namespace CodeTree

inductive CodeFault where
  | overlap
  | notBits
deriving DecidableEq, Repr

def zero : CodeTree → CodeTree
  | node zero _ => zero
  | _ => empty

def one : CodeTree → CodeTree
  | node _ one => one
  | _ => empty

/-- Put an operation at the end of a code. No code may pass through an operation or end within the
tree. -/
def insert (op : MachineOp) : CodeTree → Text → Except CodeFault CodeTree
  | leaf _, _ => .error .overlap
  | empty, [] => .ok (leaf op)
  | node _ _, [] => .error .overlap
  | tree, c :: rest =>
    if c = '0' then do return node (← insert op tree.zero rest) tree.one
    else if c = '1' then do return node tree.zero (← insert op tree.one rest)
    else .error .notBits

/-- The empty code overlaps every other. -/
def insertCode (op : MachineOp) (tree : CodeTree) : Text → Except CodeFault CodeTree
  | [] => .error .overlap
  | code => tree.insert op code

def insertFormat (tree : CodeTree) (format : Format) : Except FormatFault CodeTree :=
  if format.width ≠ wordBits then .error (.width format.mnemonic format.width)
  else match insertCode format.op tree format.code with
    | .ok tree => .ok tree
    | .error .overlap => .error (.overlap format.code format.mnemonic)
    | .error .notBits => .error (.notBits format.code format.mnemonic)

def ofFormats (formats : List Format) : Except FormatFault CodeTree :=
  formats.foldlM insertFormat empty

/-- Follow bits to the first operation on their way; the bits after its code are left over. -/
def walk : CodeTree → List Bool → Option (MachineOp × List Bool)
  | leaf op, bits => some (op, bits)
  | node zero one, bit :: bits => (if bit then one else zero).walk bits
  | _, _ => none

def standard : CodeTree := (ofFormats Format.standard).toOption.getD empty

end CodeTree

end Sequencer
