/-!
# Blanks and words

A line of program text is a sequence of words separated by blanks.  Blank means white space of any
script, not only the blanks of ASCII.
-/

namespace Tac.Text

/-- White space: the control blanks from tab to carriage return, the plain and the no-break space,
the next-line control, and the wide, thin and line-separating blanks. -/
def isBlank (c : Char) : Bool :=
  let n := c.toNat
  (9 ≤ n && n ≤ 13) || n == 0x20 || n == 0x85 || n == 0xA0 || n == 0x1680 ||
    (0x2000 ≤ n && n ≤ 0x200A) || n == 0x2028 || n == 0x2029 || n == 0x202F || n == 0x205F ||
    n == 0x3000

/-- Reads characters into words: `cur` holds the word being read, last character first. -/
def wordsFrom (cur : List Char) : List Char → List (List Char)
  | [] => if cur.isEmpty then [] else [cur.reverse]
  | c :: cs =>
    if isBlank c then
      if cur.isEmpty then wordsFrom [] cs else cur.reverse :: wordsFrom [] cs
    else wordsFrom (c :: cur) cs

/-- The maximal runs of characters that are not blank, in order. -/
def words (cs : List Char) : List String :=
  (wordsFrom [] cs).map String.ofList

/-- Reads characters into lines: `cur` holds the line being read, last character first. -/
def linesFrom (cur : List Char) : List Char → List (List Char)
  | [] => [cur.reverse]
  | '\n' :: cs => cur.reverse :: linesFrom [] cs
  | c :: cs => linesFrom (c :: cur) cs

/-- The lines of a text.  A newline separates lines, so a text has one line more than newlines. -/
def lines (cs : List Char) : List (List Char) := linesFrom [] cs

/-- Splits a line at its first double slash: the code before it and, if there is one, the comment
after it. -/
def splitComment : List Char → List Char × Option (List Char)
  | '/' :: '/' :: cs => ([], some cs)
  | c :: cs =>
    let (code, comment) := splitComment cs
    (c :: code, comment)
  | [] => ([], none)

/-- Drops a leading marker when it is there. -/
def stripStart (marker : List Char) (cs : List Char) : List Char :=
  if marker.isPrefixOf cs then cs.drop marker.length else cs

end Tac.Text
