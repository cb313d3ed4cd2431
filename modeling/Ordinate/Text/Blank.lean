import Ordinate.Text.CharClass

/-!
# Blank characters

* `isBlank` : the twenty-five characters with the Unicode property White_Space;
* `stripBlank` : a text without its blank characters, wherever they stand;
* `isBlankText` : whether a text has nothing but blank characters.
-/

namespace Ordinate.Text

/-- The characters with the Unicode property White_Space. -/
def blank : CharClass where
  intervals := [
    (0x9, 0xD), (0x20, 0x20), (0x85, 0x85), (0xA0, 0xA0), (0x1680, 0x1680), (0x2000, 0x200A),
    (0x2028, 0x2029), (0x202F, 0x202F), (0x205F, 0x205F), (0x3000, 0x3000)]

def isBlank (c : Char) : Bool :=
  blank.contains c

/-- The text `s` without its blank characters. -/
def stripBlank (s : List Char) : List Char :=
  s.filter fun c => !isBlank c

def isBlankText (s : List Char) : Bool :=
  s.all isBlank

theorem isBlank_eq_false_of_mem_stripBlank {s : List Char} {c : Char} (h : c ∈ stripBlank s) :
    isBlank c = false := by
  simpa using (List.mem_filter.1 h).2

theorem stripBlank_eq_self {s : List Char} (h : ∀ c ∈ s, isBlank c = false) : stripBlank s = s :=
  List.filter_eq_self.2 fun c hc => by simp [h c hc]

end Ordinate.Text
