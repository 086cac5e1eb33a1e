import Abacus.Wire

namespace Abacus.Service

-- The record that a client sends.
structure Query where
  expression : Option String
  deriving DecidableEq, Repr

namespace Query

-- A missing expression is an empty one.
def source (q : Query) : String :=
  q.expression.getD ""

def ofJson? (j : Json) : Option Query := do
  match ← j.fields? ["expression"] with
  | [none] => some ⟨none⟩
  | [some .null] => some ⟨none⟩
  | [some e] => e.text?.map fun s => ⟨some s⟩
  | _ => none

def ofBytes? (body : List UInt8) : Option Query :=
  (Json.ofBytes? body).bind ofJson?

end Query

inductive Reply where
  | result (x : Float)
  | error (message : String)
  deriving DecidableEq

instance : Wire Reply where
  text
    | .result x => Json.objectText [("result", Json.doubleText x)]
    | .error message => Json.objectText [("error", Json.quote message)]
  ofJson? j := do
    match ← j.alternative? with
    | ("result", some x) => x.double?.map .result
    | ("error", some s) => s.text?.map .error
    | _ => none

-- Why there is no value, if not because of the expression.
inductive Rejection where
  | invalidRequest
  | tooLarge
  | internal
  deriving DecidableEq, Repr

namespace Rejection

def message : Rejection → String
  | invalidRequest => "invalid json request"
  | tooLarge => "request body too large"
  | internal => "internal server error"

def status : Rejection → Nat
  | invalidRequest => 400
  | tooLarge => 413
  | internal => 500

end Rejection

structure Answer where
  status : Nat
  reply : Reply
  deriving DecidableEq

namespace Answer

def reject (r : Rejection) : Answer :=
  ⟨r.status, .error r.message⟩

-- The answer to a body that could not be taken in, for a reason that the status tells.
def ofUnreadable (status : Nat) : Answer :=
  reject (if status = 413 then .tooLarge else .invalidRequest)

def ofOutcome : Except (Spanned Fault) Float → Answer
  | .ok x => if x.isFinite then ⟨200, .result x⟩ else reject .internal
  | .error e => ⟨422, .error e.value.message⟩

def text (a : Answer) : String :=
  Wire.text a.reply

end Answer

-- The answer to a request body.
def respond (c : Calculator) (body : List UInt8) : Answer :=
  match Query.ofBytes? body with
  | some q => .ofOutcome (c.evaluate q.source)
  | none => .reject .invalidRequest

end Abacus.Service
