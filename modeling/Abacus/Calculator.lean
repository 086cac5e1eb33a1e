import Abacus.Group
import Abacus.Token.Scan

namespace Abacus

structure Calculator where
  -- How many groups may be open at once.
  maxDepth : Nat := 256
  deriving DecidableEq, Repr

namespace Calculator

def evaluate (c : Calculator) (source : String) : Except (Spanned Fault) Float :=
  match tokenize source.toList with
  | .ok tokens => Abacus.evaluate c.maxDepth tokens
  | .error e => .error e

-- As `evaluate`, where it does not matter which part of the text is at fault.
def calculate (c : Calculator) (source : String) : Except Fault Float :=
  (c.evaluate source).mapError (·.value)

end Calculator

end Abacus
