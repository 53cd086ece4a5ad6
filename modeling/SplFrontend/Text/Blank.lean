/-!
# Blank characters

The characters that separate tokens of source text are the twenty-five characters of the Unicode
property `White_Space`. Headers and option files know four of them.
-/

namespace SplFrontend.Text

/-- Code points of the property `White_Space`, in ascending order. -/
def blankCodes : List Nat :=
  [0x9, 0xA, 0xB, 0xC, 0xD, 0x20, 0x85, 0xA0, 0x1680, 0x2000, 0x2001, 0x2002, 0x2003, 0x2004,
    0x2005, 0x2006, 0x2007, 0x2008, 0x2009, 0x200A, 0x2028, 0x2029, 0x202F, 0x205F, 0x3000]

/-- Does the character separate tokens without being one? -/
def isBlank (c : Char) : Bool := blankCodes.contains c.toNat

/-- The blanks of headers and option files: space, tab, line feed, carriage return. -/
def isPlainBlank (c : Char) : Bool := c == ' ' || c == '\t' || c == '\n' || c == '\r'

/-- What is left of a text after the plain blanks at its front. -/
def skipBlanks (cs : List Char) : List Char := cs.dropWhile isPlainBlank

end SplFrontend.Text
