/-!
# Cutting text

White space, and the ways in which lines of source text are cut into parts: at white space into
words, at every occurrence of a character, and at the first one only. All of them work on the
characters of the text, and `Text.trim` takes the white space off both of its ends.
-/

namespace RangeGuard

namespace Text

/-! ## White space -/

/-- The character has the Unicode property White_Space. -/
def isBlank (c : Char) : Bool :=
  let n := c.toNat
  (0x9 ≤ n && n ≤ 0xd) || n == 0x20 || n == 0x85 || n == 0xa0 || n == 0x1680 ||
    (0x2000 ≤ n && n ≤ 0x200a) || n == 0x2028 || n == 0x2029 || n == 0x202f || n == 0x205f ||
    n == 0x3000

/-- Drops the trailing characters that satisfy a test. -/
def dropEndWhile (p : Char → Bool) (cs : List Char) : List Char :=
  (cs.reverse.dropWhile p).reverse

/-- Drops the white space around a text. -/
def trim (s : String) : String :=
  String.ofList (dropEndWhile isBlank (s.toList.dropWhile isBlank))

/-! ## Cutting at characters -/

/-- The pieces between the characters that satisfy a test. There is always one piece more than there
are such characters. -/
def pieces (p : Char → Bool) : List Char → List (List Char)
  | [] => [[]]
  | c :: cs =>
    if p c then [] :: pieces p cs
    else match pieces p cs with
      -- there is always a piece, so this case does not arise
      | [] => [[c]]
      | piece :: rest => (c :: piece) :: rest

/-- The pieces of a text between the occurrences of a character. -/
def splitAll (sep : Char) (s : String) : List String :=
  (pieces (· = sep) s.toList).map String.ofList

/-- The words of a text: its nonempty pieces between white space. -/
def words (s : String) : List String :=
  ((pieces isBlank s.toList).filter fun piece => !piece.isEmpty).map String.ofList

/-- The lines of a text. A line break ends a line, so nothing follows the last one. -/
def lines (s : String) : List String :=
  let all := splitAll '\n' s
  -- a line break at the end is followed by no further line
  if all.getLast? = some "" then all.dropLast else all

/-- The characters before and after the first occurrence of a character. -/
def cutAt (sep : Char) : List Char → Option (List Char × List Char)
  | [] => none
  | c :: cs =>
    if c = sep then some ([], cs)
    else (cutAt sep cs).map fun parts => (c :: parts.1, parts.2)

/-- The parts of a text before and after the first occurrence of a character. -/
def splitOnce (sep : Char) (s : String) : Option (String × String) :=
  (cutAt sep s.toList).map fun parts => (String.ofList parts.1, String.ofList parts.2)

/-! ## Ends of a text -/

/-- The text ends with a character. -/
def endsWith (s : String) (c : Char) : Bool := decide (s.toList.getLast? = some c)

/-- The text without its last character, if that is the given one. -/
def dropSuffix? (s : String) (c : Char) : Option String :=
  if endsWith s c then some (String.ofList s.toList.dropLast) else none

/-- The rest of a list after a given beginning. -/
def dropStart? : List Char → List Char → Option (List Char)
  | [], cs => some cs
  | _ :: _, [] => none
  | a :: start, c :: cs => if a = c then dropStart? start cs else none

/-- The rest of a text after a given beginning. -/
def after? (start s : String) : Option String :=
  (dropStart? start.toList s.toList).map String.ofList

end Text

end RangeGuard
