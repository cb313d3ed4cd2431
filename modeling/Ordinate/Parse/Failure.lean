/-!
# Parse failures

* `Parse.Limits` : the sizes of text which are accepted;
* `Parse.Reason` : why a text is not an expression, and its wording;
* `Parse.Failure` : a text which is not an expression, with the reason.
-/

namespace Ordinate.Parse

structure Limits where
  /-- The greatest number of characters, blank ones not counted. -/
  length : Nat := 4096
  /-- The greatest number of groups and logarithms around one another. -/
  depth : Nat := 256

inductive Reason where
  /-- No rule of the grammar fits some part of the text. -/
  | noRule
  | unbalanced
  | tooLong (limit : Nat)
  | tooDeep (limit : Nat)
deriving DecidableEq

namespace Reason

def limit? : Reason → Option Nat
  | tooLong limit | tooDeep limit => some limit
  | noRule | unbalanced => none

def message : Reason → String
  | noRule => "no expression matches"
  | unbalanced => "unbalanced parentheses"
  | tooLong limit => "input is longer than " ++ limit.repr ++ " characters"
  | tooDeep limit => "expression nests deeper than " ++ limit.repr ++ " levels"

end Reason

structure Failure where
  text : String
  reason : Reason
deriving DecidableEq

def Failure.message (f : Failure) : String :=
  "cannot parse expression `" ++ f.text ++ "`: " ++ f.reason.message

end Ordinate.Parse
