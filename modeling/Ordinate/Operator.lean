/-!
# Binary operators

* `Operator` : the five binary operators, with their symbols;
* `Operator.ofSymbol?` : the operator written by a text.
-/

namespace Ordinate

inductive Operator where
  | add
  | subtract
  | multiply
  | divide
  | power
deriving DecidableEq

namespace Operator

def char : Operator → Char
  | add => '+'
  | subtract => '-'
  | multiply => '*'
  | divide => '/'
  | power => '^'

def symbol (op : Operator) : String :=
  String.singleton op.char

def all : List Operator :=
  [add, subtract, multiply, divide, power]

def ofSymbol? (text : String) : Option Operator :=
  all.find? fun op => op.symbol = text

def title : Operator → String
  | add => "Add"
  | subtract => "Subtract"
  | multiply => "Multiply"
  | divide => "Divide"
  | power => "Power"

theorem mem_all (op : Operator) : op ∈ all := by
  cases op <;> decide

theorem char_injective {op op' : Operator} (h : op.char = op'.char) : op = op' := by
  revert h; cases op <;> cases op' <;> decide

theorem ofSymbol?_symbol (op : Operator) : ofSymbol? op.symbol = some op := by
  cases op <;> decide

end Operator

end Ordinate
