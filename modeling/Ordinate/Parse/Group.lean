/-!
# Parentheses

* `Parse.balanced` : whether every parenthesis of a text is closed, and none before it is opened;
* `Parse.groupInside?` : the inside of a text which is one group;
* `Parse.logArgument?` : the inside of a text which is one logarithm;
* `Parse.text_of_groupInside?` : a group is its inside between two parentheses.
-/

namespace Ordinate.Parse

/-- Whether the text closes `depth` parentheses that are open before it and all its own. -/
def balanced (depth : Nat) : List Char → Bool
  | [] => depth = 0
  | c :: rest =>
    if c = '(' then balanced (depth + 1) rest
    else if c = ')' then depth ≠ 0 && balanced (depth - 1) rest
    else balanced depth rest

/-- The text before the parenthesis that closes the outermost of `depth` open ones, which has to be
the last character; `inside` has been passed already, and is given backwards. -/
def closeGroup (depth : Nat) (inside : List Char) : List Char → Option (List Char)
  | [] => none
  | c :: rest =>
    if c = '(' then closeGroup (depth + 1) (c :: inside) rest
    else if c = ')' then
      if depth ≤ 1 then if rest = [] then some inside.reverse else none
      else closeGroup (depth - 1) (c :: inside) rest
    else closeGroup depth (c :: inside) rest

/-- The inside of a text which is one group: its first parenthesis is closed by its last
character. -/
def groupInside? : List Char → Option (List Char)
  | '(' :: rest => closeGroup 1 [] rest
  | _ => none

/-- The inside of a text which is `log` and one group. -/
def logArgument? : List Char → Option (List Char)
  | 'l' :: 'o' :: 'g' :: group => groupInside? group
  | _ => none

/-! ## A group is its inside between parentheses -/

theorem text_of_closeGroup {depth : Nat} {inside text inner : List Char}
    (h : closeGroup depth inside text = some inner) : inner ++ [')'] = inside.reverse ++ text := by
  induction text generalizing depth inside with
  | nil => simp [closeGroup] at h
  | cons c rest ih =>
    rw [closeGroup] at h
    split at h
    · simpa using ih h
    split at h
    · next hc =>
      split at h
      · split at h
        · next hr =>
          cases h
          rw [hc, hr]
        · cases h
      · simpa using ih h
    · simpa using ih h

theorem text_of_groupInside? {text inner : List Char} (h : groupInside? text = some inner) :
    text = '(' :: (inner ++ [')']) := by
  unfold groupInside? at h
  split at h
  · rw [text_of_closeGroup h]; rfl
  · cases h

theorem text_of_logArgument? {text inner : List Char} (h : logArgument? text = some inner) :
    text = 'l' :: 'o' :: 'g' :: '(' :: (inner ++ [')']) := by
  unfold logArgument? at h
  split at h
  · rw [text_of_groupInside? h]
  · cases h

theorem length_lt_of_groupInside? {text inner : List Char} (h : groupInside? text = some inner) :
    inner.length < text.length := by
  rw [text_of_groupInside? h, List.length_cons, List.length_append]
  omega

theorem length_lt_of_logArgument? {text inner : List Char} (h : logArgument? text = some inner) :
    inner.length < text.length := by
  rw [text_of_logArgument? h]
  simp only [List.length_cons, List.length_append]
  omega

end Ordinate.Parse
