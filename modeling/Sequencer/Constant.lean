import Sequencer.Expression.Value
import Sequencer.Table

/-!
# Constants

Constants are named without regard to letter case and keep the value they were given first. Every
source starts from one constant, the longest pause of a single instruction.
-/

namespace Sequencer

/-- Values under upper-case names. -/
structure Constants where
  values : Table Int

namespace Constants

def initial : Constants where
  values := { entries := [("MAX_NOOP".toList, 255)] }

def value? (constants : Constants) (name : Text) : Option Int :=
  constants.values.get? (Text.upper name)

/-- A name that has a value already keeps it, and that value is the fault. -/
def define (constants : Constants) (name : Text) (value : Int) : Except Int Constants :=
  (constants.values.define (Text.upper name) value).map Constants.mk

def evaluate (constants : Constants) (source : Text) : Except ExpressionFault Int :=
  Expression.evaluate constants.value? source

end Constants

end Sequencer
