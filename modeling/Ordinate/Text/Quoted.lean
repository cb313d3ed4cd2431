import Ordinate.Text.Visible

/-!
# Quoted text

* `quoted` : a text between double quotes, in which a quote, a backslash and every character that
  cannot be shown as itself is escaped;
* `escape` : how one character is written inside the quotes.
-/

namespace Ordinate.Text

/-- The character `c` as it stands inside quotes: `\"`, `\\`, `\0`, `\t`, `\r`, `\n`, itself if it
is visible, and otherwise its code point in hexadecimal. -/
def escape (c : Char) : List Char :=
  if c = '"' ∨ c = '\\' then ['\\', c]
  else if c = '\x00' then ['\\', '0']
  else if c = '\t' then ['\\', 't']
  else if c = '\r' then ['\\', 'r']
  else if c = '\n' then ['\\', 'n']
  else if isVisible c then [c]
  else '\\' :: 'u' :: '\x7b' :: (Nat.toDigits 16 c.toNat ++ ['\x7d'])

def quoted (s : String) : String :=
  String.ofList ('"' :: (s.toList.flatMap escape ++ ['"']))

end Ordinate.Text
