namespace Abacus

inductive Fault where
  -- There is nothing to evaluate, or a bracketed group has no value.
  | invalidExpression
  -- The divisor of `/` compares equal to zero.
  | divisionByZero
  -- A bracket has no partner.
  | unpairedBracket
  -- An operator has no operand where it needs one.
  | missingOperand
  -- A numeric run is no decimal literal, or its value is beyond the range of numbers.
  | unreadableNumber
  -- A character that no expression holds.
  | foreignCharacter
  -- Brackets nest deeper than the limit.
  | nestedTooDeeply
  deriving DecidableEq, Repr

namespace Fault

def message : Fault → String
  | invalidExpression => "invalid expression"
  | divisionByZero => "division by zero"
  | unpairedBracket => "incorrect count of brackets"
  | missingOperand => "multiple operands in a row"
  | unreadableNumber => "failure to convert to float64"
  | foreignCharacter => "undefined operand"
  | nestedTooDeeply => "expression nested too deeply"

-- The word for the fault on the wire.
def name : Fault → String
  | invalidExpression => "InvalidExpression"
  | divisionByZero => "DivisionByZero"
  | unpairedBracket => "IncorrectBracketSequence"
  | missingOperand => "MultipleOperands"
  | unreadableNumber => "ConvertingToFloat64"
  | foreignCharacter => "UndefinedOperand"
  | nestedTooDeeply => "NestingTooDeep"

def all : List Fault :=
  [invalidExpression, divisionByZero, unpairedBracket, missingOperand, unreadableNumber,
    foreignCharacter, nestedTooDeeply]

def ofName? (s : String) : Option Fault :=
  all.find? (·.name = s)

theorem ofName?_name (f : Fault) : ofName? f.name = some f := by
  cases f <;> decide

end Fault

end Abacus
