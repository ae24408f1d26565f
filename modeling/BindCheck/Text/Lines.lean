/-!
# BindCheck.Text.Lines

The lines of a text as they are shown. A line feed ends a line, **a carriage return in
front of it belongs to the ending**, and a text that ends with a line feed has no empty
line behind it. A last line without a line feed is kept as it is, carriage return and all.
-/

namespace BindCheck

/-- The lines of a text, without their endings. -/
def linesOf : List Char → List (List Char)
  | [] => []
  | '\n' :: cs => [] :: linesOf cs
  | '\r' :: '\n' :: cs => [] :: linesOf cs
  | c :: cs =>
    match linesOf cs with
    | [] => [[c]]
    | l :: ls => (c :: l) :: ls

/-- The line with a number, counted from one; beyond the last line, and at zero, there is
only an empty one. -/
def lineAt (cs : List Char) : Nat → List Char
  | 0 => []
  | n + 1 => (linesOf cs).getD n []

end BindCheck
