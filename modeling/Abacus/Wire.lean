import Abacus.Calculator
import Abacus.Json.Value
import Abacus.Json.Writer

namespace Abacus

-- The JSON form of a type. What is read may also be spelled in other ways than it is written.
class Wire (α : Type) where
  text : α → String
  ofJson? : Json → Option α

namespace Wire

variable {α : Type} [Wire α]

-- The value that a JSON text of these bytes stands for.
def ofBytes? (bytes : List UInt8) : Option α :=
  (Json.ofBytes? bytes).bind ofJson?

def ofText? (s : String) : Option α :=
  ofBytes? s.toUTF8.data.toList

instance : Wire Nat where
  text := Json.natText
  ofJson? := Json.nat?

instance : Wire (List α) where
  text items := Json.arrayText (items.map text)
  ofJson? j := j.items?.bind (·.mapM ofJson?)

instance : Wire Span where
  text s := Json.objectText [("start", text s.start), ("end", text s.stop)]
  ofJson? j := do
    let [some start, some stop] ← j.fields? ["start", "end"] | none
    some ⟨← ofJson? start, ← ofJson? stop⟩

instance : Wire (Spanned α) where
  text x := Json.objectText [("value", text x.value), ("span", text x.span)]
  ofJson? j := do
    let [some value, some span] ← j.fields? ["value", "span"] | none
    some ⟨← ofJson? value, ← ofJson? span⟩

instance : Wire Calculator where
  text c := Json.objectText [("max_depth", text c.maxDepth)]
  ofJson? j := do
    match ← j.fields? ["max_depth"] with
    | [none] => some {}
    | [some depth] => some ⟨← ofJson? depth⟩
    | _ => none

-- Whether an alternative stands without content.
def isBare (content : Option Json) : Bool :=
  content.all Json.isNull

instance : Wire Fault where
  text f := Json.quote f.name
  ofJson? j := do
    let (name, content) ← j.alternative?
    if isBare content then Fault.ofName? name else none

-- The word for a token without a value.
def bareName? : Token → Option String
  | .operator .plus => some "Plus"
  | .operator .minus => some "Minus"
  | .operator .times => some "Star"
  | .operator .divide => some "SlashForward"
  | .opening => some "ParenLeft"
  | .closing => some "ParenRight"
  | .number _ => none

def bareTokens : List Token :=
  [.operator .plus, .operator .minus, .operator .times, .operator .divide, .opening, .closing]

def bareOfName? (name : String) : Option Token :=
  bareTokens.find? (bareName? · = some name)

theorem bareOfName?_bareName? {t : Token} {name : String} (h : bareName? t = some name) :
    bareOfName? name = some t := by
  unfold bareName? at h
  split at h <;> cases h <;> rfl

instance : Wire Token where
  text
    | .number x => Json.objectText [("Number", Json.doubleText x)]
    | t => Json.quote ((bareName? t).getD "")
  ofJson? j := do
    let (name, content) ← j.alternative?
    match name, content with
    | "Number", some x => x.double?.map .number
    | name, content => if isBare content then bareOfName? name else none

end Wire

end Abacus
