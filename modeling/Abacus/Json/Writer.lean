import Abacus.Json.Number
import Abacus.Json.Text

namespace Abacus.Json

def natText (n : Nat) : String :=
  String.ofList (Number.ofNat n).text

-- JSON has no numbers for infinities and undefined results.
def doubleText (x : Float) : String :=
  if x.isFinite then String.ofList (Number.ofDouble x).text else "null"

def arrayText (items : List String) : String :=
  "[" ++ ",".intercalate items ++ "]"

def objectText (members : List (String × String)) : String :=
  "\x7b" ++ ",".intercalate (members.map fun m => quote m.1 ++ ":" ++ m.2) ++ "\x7d"

end Abacus.Json
