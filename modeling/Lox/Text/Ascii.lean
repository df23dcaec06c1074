/-!
The ASCII digits and letters, which words and numbers are made of.
-/

set_option autoImplicit false

namespace Lox

def isDigit (c : Char) : Bool := '0' ≤ c && c ≤ '9'

/-- The underscore counts as a letter. -/
def isLetter (c : Char) : Bool := ('a' ≤ c && c ≤ 'z') || ('A' ≤ c && c ≤ 'Z') || c = '_'

end Lox
