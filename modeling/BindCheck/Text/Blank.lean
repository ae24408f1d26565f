import BindCheck.Text.CharClass

/-!
# BindCheck.Text.Blank

White space as Unicode's White_Space property has it. It holds the six blanks of
ASCII, **the vertical tab and the form feed among them**, the next-line character,
the no-break space and the spaces of typesetting; a zero-width space and a byte
order mark are not blank.
-/

namespace BindCheck

/-- White_Space beyond ASCII. -/
def wideBlanks : CharClass where
  ranges := #[
    (0x85, 0x85), (0xa0, 0xa0), (0x1680, 0x1680), (0x2000, 0x200a), (0x2028, 0x2029),
    (0x202f, 0x202f), (0x205f, 0x205f), (0x3000, 0x3000)]

/-- Whether a character is white space. -/
def isBlank (c : Char) : Bool :=
  if isAscii c then c = ' ' || (decide (9 ≤ c.toNat) && decide (c.toNat ≤ 13))
  else wideBlanks.has c

/-- The characters without the blanks at either end. -/
def trimBlanks (cs : List Char) : List Char :=
  ((cs.dropWhile isBlank).reverse.dropWhile isBlank).reverse

theorem isBlank_newline : isBlank '\n' = true := by decide

end BindCheck
