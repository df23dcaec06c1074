/-!
White space of Unicode text, the controls that separate text as white space does, and what is left of a
text without either at its ends.
-/

set_option autoImplicit false

namespace Lox.Text

/-- The code points that are white space, as inclusive ranges. -/
def spaceRanges : List (Nat × Nat) :=
  [(0x9, 0xd), (0x20, 0x20), (0x85, 0x85), (0xa0, 0xa0), (0x1680, 0x1680), (0x2000, 0x200a),
   (0x2028, 0x2029), (0x202f, 0x202f), (0x205f, 0x205f), (0x3000, 0x3000)]

def isSpace (c : Char) : Bool :=
  spaceRanges.any fun (first, last) => first ≤ c.toNat && c.toNat ≤ last

/-- The four information separators: of files, groups, records and units. -/
def isSeparator (c : Char) : Bool := 0x1c ≤ c.toNat && c.toNat ≤ 0x1f

def isBlank (c : Char) : Bool := isSpace c || isSeparator c

/-- A text without the characters of a class at its ends. -/
def stripEnds (p : Char → Bool) (cs : List Char) : List Char :=
  ((cs.dropWhile p).reverse.dropWhile p).reverse

/-- A text without the blanks at its ends. -/
def trim (s : String) : String := .ofList (stripEnds isBlank s.toList)

end Lox.Text
