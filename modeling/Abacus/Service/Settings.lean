import Abacus.Calculator
import Abacus.Net.Reading
import Abacus.Service.Failure
import Abacus.Unicode.WhiteSpace

namespace Abacus.Service

structure Settings where
  address : Net.Endpoint := .v4 ⟨0, 0, 0, 0⟩ 8080
  maxBodyBytes : Nat := 64 * 1024
  calculator : Calculator := {}
  deriving DecidableEq, Repr

namespace Settings

-- The value of one setting, or its default if it is unset.
def read {α : Type} (lookup : Setting → Option String) (s : Setting)
    (ofText? : List Char → Option α) (default : α) : Except Failure α :=
  match lookup s with
  | none => .ok default
  | some value =>
    match ofText? (Unicode.trim value.toList) with
    | some x => .ok x
    | none => .error (.setting s value)

-- Of several values that can not be read the first one, in this order, is reported.
def load (lookup : Setting → Option String) : Except Failure Settings := do
  let default : Settings := {}
  let address ← read lookup .address Net.Endpoint.ofText? default.address
  let maxBodyBytes ← read lookup .maxBodyBytes Numeral.word? default.maxBodyBytes
  let maxDepth ← read lookup .maxDepth Numeral.word? default.calculator.maxDepth
  return ⟨address, maxBodyBytes, ⟨maxDepth⟩⟩

-- The settings in an environment whose values are bytes. A value that is not UTF-8 counts as
-- unset.
def ofEnvironment (lookup : Setting → Option (List UInt8)) : Except Failure Settings :=
  load fun s => (lookup s).bind fun bytes => String.fromUTF8? ⟨bytes.toArray⟩

end Settings

end Abacus.Service
