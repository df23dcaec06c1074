/-!
Line ends. A text read from a file ends its lines with a line feed, however they were written.
-/

set_option autoImplicit false

namespace Lox.Text

/-- Appends `cs` to what is written, last character first, with each carriage return, and each one
followed by a line feed, as one line feed. -/
def unifyOnto (written : List Char) : List Char → List Char
  | [] => written
  | '\r' :: '\n' :: cs => unifyOnto ('\n' :: written) cs
  | '\r' :: cs => unifyOnto ('\n' :: written) cs
  | c :: cs => unifyOnto (c :: written) cs

def unifyNewlines (s : String) : String := .ofList (unifyOnto [] s.toList).reverse

/-- The lines of a text, without their line feeds. A last line without one counts if it is not empty. -/
def linesOnto (done : List String) (line : List Char) : List Char → List String
  | [] => if line = [] then done else .ofList line.reverse :: done
  | '\n' :: cs => linesOnto (.ofList line.reverse :: done) [] cs
  | c :: cs => linesOnto done (c :: line) cs

def lines (s : String) : List String := (linesOnto [] [] s.toList).reverse

end Lox.Text
