/-!
# The characters of a YAML document

The classes of characters that reading and writing share. Five characters end a line; reading takes
three of them for one and the same break.
-/

namespace QirProfile.Yaml

/-! ## 1. Blanks and breaks -/

/-- Characters that end a line. -/
def isBreak (c : Char) : Bool :=
  ['\n', '\r', '\x85', '\u2028', '\u2029'].contains c

/-- Characters that part words on a line. -/
def isBlank (c : Char) : Bool := c == ' ' || c == '\t'

/-- Blanks and ends of lines. -/
def isBlankOrBreak (c : Char) : Bool :=
  isBlank c || isBreak c || c == '\x00'

/-- Whether the next character is a blank, a break or the end. -/
def blankAhead (cs : List Char) : Bool := cs.head?.all isBlankOrBreak

/-- A text with one form for the ends of lines. The separators of lines and of paragraphs keep their
    own. -/
def unifyBreaks : List Char → List Char
  | '\r' :: '\n' :: rest => '\n' :: unifyBreaks rest
  | '\r' :: rest => '\n' :: unifyBreaks rest
  | '\x85' :: rest => '\n' :: unifyBreaks rest
  | c :: rest => c :: unifyBreaks rest
  | [] => []

/-! ## 2. Characters with a meaning -/

/-- Characters that mean something at the start of a word. -/
def isIndicator (c : Char) : Bool :=
  ['#', ',', '[', ']', '\x7b', '\x7d', '&', '*', '!', '|', '>', '\'', '"', '%', '@',
    '\x60'].contains c

/-- Characters that have a meaning inside brackets. -/
def isBracket (c : Char) : Bool := [',', '[', ']', '\x7b', '\x7d'].contains c

/-- Characters of the names of anchors, handles and directives. -/
def isNameLetter (c : Char) : Bool := c.isAlphanum || c == '_' || c == '-'

/-- Whether a mark between documents stands at the head of a line. -/
def isMark : List Char → Bool
  | '-' :: '-' :: '-' :: rest | '.' :: '.' :: '.' :: rest => blankAhead rest
  | _ => false

/-! ## 3. Characters that may stand in a document -/

/-- Characters that a document shows as they are. -/
def isPrintable (c : Char) : Bool :=
  let n := c.toNat
  n == 0x0A || (0x20 ≤ n && n ≤ 0x7E) || (0xA0 ≤ n && n != 0xFEFF && n != 0xFFFE && n != 0xFFFF)

/-- Characters that may be read: those that show, tabs, ends of lines and the mark of the byte
    order. -/
def isReadable (c : Char) : Bool :=
  isPrintable c || ['\t', '\r', '\x85', '\uFEFF'].contains c

end QirProfile.Yaml
