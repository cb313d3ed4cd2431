import Ordinate.Journal
import Ordinate.Operator
import Ordinate.Parse.Failure

/-!
# Events of a parse

* `Parse.Event` : what is worth a note while a text is parsed;
* `Parse.Event.entry` : the journal entry of an event.
-/

namespace Ordinate.Parse

inductive Event where
  /-- An operator with nothing on one of its sides. -/
  | missingOperand (op : Operator) (text : String)
  /-- A text which starts with a parenthesis that is not closed by the text's last character. -/
  | notOneGroup (text : String)
  /-- A leaf which is neither a number nor the variable. -/
  | keptLeaf (text : String)
  /-- An operand of no known form. -/
  | strangeOperand (text : String)
  /-- The end of a parse, with the number of nodes. -/
  | parsed (text : String) (size : Nat)
  /-- The end of a parse which failed. -/
  | failed (text : String) (reason : Reason)
deriving DecidableEq

def Event.entry : Event → Journal.Entry
  | missingOperand op text =>
    ⟨.trace, "operator `" ++ op.symbol ++ "` in `" ++ text ++ "` is missing an operand"⟩
  | notOneGroup text => ⟨.trace, "`" ++ text ++ "` is not a single parenthesised group"⟩
  | keptLeaf text => ⟨.trace, "keeping unrecognised leaf `" ++ text ++ "`"⟩
  | strangeOperand text => ⟨.trace, "`" ++ text ++ "` matches no rule"⟩
  | parsed text size => ⟨.debug, "parsed `" ++ text ++ "` into " ++ size.repr ++ " nodes"⟩
  | failed text reason => ⟨.debug, "failed to parse `" ++ text ++ "`: " ++ reason.message⟩

end Ordinate.Parse
