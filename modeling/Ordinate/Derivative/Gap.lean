import Ordinate.Journal
import Ordinate.Label

/-!
# Gaps in a derivative

* `Gap` : a branch for which there is no rule, and which counts as zero;
* `Gap.describe`, `Gap.entry` : its text and its journal entry;
* `GapRecord`, `GapRecord.note` : the gaps met by all differentiations so far, with their journal.
-/

namespace Ordinate

/-- A branch for which there is no rule. -/
inductive Gap where
  /-- A power in which neither the base nor the exponent has a fixed value. -/
  | varyingPower
  /-- A leaf without a meaning. -/
  | unknownLeaf (text : String)
  /-- A node which has not as many operands as its label asks for. -/
  | wrongArity (label : Label)
deriving DecidableEq

namespace Gap

def describe : Gap → String
  | varyingPower => "NonConstantPower"
  | unknownLeaf text => "UnknownLabel(" ++ Text.quoted text ++ ")"
  | wrongArity label => "MalformedArity(" ++ label.describe ++ ")"

def entry (g : Gap) : Journal.Entry :=
  ⟨.debug, "no differentiation rule for " ++ g.describe ++ ", using 0"⟩

end Gap

/-- The gaps met by all differentiations so far and the journal of these, in the order in which they
were met. -/
structure GapRecord where
  gaps : Array Gap := #[]
  journal : Array Journal.Entry := #[]

namespace GapRecord

def note (r : GapRecord) (g : Gap) : GapRecord where
  gaps := r.gaps.push g
  journal := r.journal.push g.entry

/-- The journal entries which `r` has and `before` had not. -/
def entriesSince (r before : GapRecord) : List Journal.Entry :=
  r.journal.toList.drop before.journal.size

end GapRecord

end Ordinate
