/-!
# Operators
-/

namespace ReactiveLang

/-- Mirrors quill-types/ast:43-57. -/
inductive BinaryOperator where
  | add
  | subtract
  | multiply
  | divide
  | remainder
  | less
  | greater
  | lessOrEqual
  | greaterOrEqual
  | equal
  | notEqual
  | and
  | or
  deriving DecidableEq, Inhabited

namespace BinaryOperator

def symbol : BinaryOperator → String
  | add => "+"
  | subtract => "-"
  | multiply => "×"
  | divide => "÷"
  | remainder => "%"
  | less => "<"
  | greater => ">"
  | lessOrEqual => "≤"
  | greaterOrEqual => "≥"
  | equal => "="
  | notEqual => "≠"
  | and => "&"
  | or => "|"

/-- Defined on every kind of value. -/
def isEquality : BinaryOperator → Bool
  | equal | notEqual => true
  | _ => false

def isComparison : BinaryOperator → Bool
  | less | greater | lessOrEqual | greaterOrEqual => true
  | _ => false

end BinaryOperator

/-- The sign of a measurement, and the other boolean. Mirrors quill-types/ast:93-96. -/
inductive UnaryOperator where
  | negate
  | not
  deriving DecidableEq, Inhabited

def UnaryOperator.symbol : UnaryOperator → String
  | negate => "-"
  | not => "~"

end ReactiveLang
