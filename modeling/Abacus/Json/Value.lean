import Abacus.Json.Lexeme

namespace Abacus

-- Strings are kept as marks and numbers as they are written: whether they mean anything is asked
-- only of those that matter.
inductive Json where
  | null
  | bool (b : Bool)
  | number (n : Json.Number)
  | text (marks : List Json.Mark)
  | array (items : List Json)
  | object (members : List (List Json.Mark × Json))

namespace Json

-- An array or object that is still open. What it holds so far has its newest entry first.
inductive Frame where
  | array (items : List Json)
  -- An object that waits for the value of `key`.
  | object (members : List (List Mark × Json)) (key : List Mark)

-- What may come next.
inductive Phase where
  | value
  -- A value, or the end of the array that has just been opened.
  | item
  -- A key; also the end of the object if it has just been opened.
  | key (members : List (List Mark × Json)) (first : Bool)
  | colon (members : List (List Mark × Json)) (key : List Mark)
  -- A value is complete.
  | done (j : Json)

-- Takes one lexeme at a time. The open arrays and objects are on a stack, so values may nest to any
-- depth.
structure Reader where
  stack : List Frame := []
  phase : Phase := .value

namespace Reader

-- Reads the first lexeme of a value.
def begin? (stack : List Frame) : Lexeme → Option Reader
  | .null => some ⟨stack, .done .null⟩
  | .bool b => some ⟨stack, .done (.bool b)⟩
  | .number n => some ⟨stack, .done (.number n)⟩
  | .text marks => some ⟨stack, .done (.text marks)⟩
  | .openArray => some ⟨.array [] :: stack, .item⟩
  | .openObject => some ⟨stack, .key [] true⟩
  | _ => none

-- Reads what follows a complete value.
def resume? (j : Json) : List Frame → Lexeme → Option Reader
  | .array items :: stack, .comma => some ⟨.array (j :: items) :: stack, .value⟩
  | .array items :: stack, .closeArray => some ⟨stack, .done (.array (j :: items).reverse)⟩
  | .object members key :: stack, .comma => some ⟨stack, .key ((key, j) :: members) false⟩
  | .object members key :: stack, .closeObject =>
    some ⟨stack, .done (.object ((key, j) :: members).reverse)⟩
  | _, _ => none

def step? (r : Reader) (x : Lexeme) : Option Reader :=
  match r.phase, x with
  | .value, x => begin? r.stack x
  -- On top of the stack is the array that has just been opened.
  | .item, .closeArray => some ⟨r.stack.tail, .done (.array [])⟩
  | .item, x => begin? r.stack x
  | .key members _, .text marks => some ⟨r.stack, .colon members marks⟩
  | .key _ true, .closeObject => some ⟨r.stack, .done (.object [])⟩
  | .colon members key, .colon => some ⟨.object members key :: r.stack, .value⟩
  | .done j, x => resume? j r.stack x
  | _, _ => none

def run? (r : Reader) (lexemes : List Lexeme) : Option Reader :=
  lexemes.foldlM step? r

def finish? (r : Reader) : Option Json :=
  match r.stack, r.phase with
  | [], .done j => some j
  | _, _ => none

end Reader

-- The value that the lexemes are, none of them left over.
def ofLexemes? (lexemes : List Lexeme) : Option Json :=
  (Reader.run? {} lexemes).bind Reader.finish?

-- The value that a text of these bytes is.
def ofBytes? (text : List UInt8) : Option Json :=
  (lexemes? text).bind ofLexemes?

def text? : Json → Option String
  | text marks => Mark.text? marks
  | _ => none

def nat? : Json → Option Nat
  | number n => n.toNat?
  | _ => none

def double? : Json → Option Float
  | number n => n.toDouble?
  | _ => none

def isNull : Json → Bool
  | null => true
  | _ => false

def items? : Json → Option (List Json)
  | array items => some items
  | _ => none

-- The value of the only member of that name; no answer if there are several.
def member? (members : List (String × Json)) (name : String) : Option (Option Json) :=
  match members.filter (·.1 = name) with
  | [] => some none
  | [(_, j)] => some (some j)
  | _ => none

-- The fields of a record, each one there or missing. A record is an object, of which members with
-- other names do not matter, or a list of the first few fields in order.
def fields? (names : List String) : Json → Option (List (Option Json))
  | array items =>
    if items.length ≤ names.length then
      some (items.map some ++ List.replicate (names.length - items.length) none)
    else
      none
  | object members => do
    let members ← members.mapM fun (key, j) => (Mark.text? key).map (·, j)
    names.mapM (member? members)
  | _ => none

-- The name of an alternative and its content, if it has one: a string, or an object with a single
-- member.
def alternative? : Json → Option (String × Option Json)
  | text marks => (Mark.text? marks).map (·, none)
  | object [(key, j)] => (Mark.text? key).map (·, some j)
  | _ => none

end Json

end Abacus
