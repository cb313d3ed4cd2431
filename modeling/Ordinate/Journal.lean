/-!
# Journal entries

* `Journal.Level` : how much an entry matters;
* `Journal.Entry` : one message and its level.
-/

namespace Ordinate.Journal

inductive Level where
  | trace
  | debug
  | warn
deriving DecidableEq

def Level.name : Level → String
  | trace => "TRACE"
  | debug => "DEBUG"
  | warn => "WARN"

structure Entry where
  level : Level
  message : String
deriving DecidableEq

end Ordinate.Journal
