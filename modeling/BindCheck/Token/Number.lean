import BindCheck.Binary64
import BindCheck.Token.Basic
import BindCheck.Token.Error

/-!
# BindCheck.Token.Number

Number literals. The text of a number is **the longest run of the form**

    (D+ ('.' D+)? | '.' D+) X*      with  X = [eE] [+-]? D+

for an ASCII digit `D`. A dot or an exponent letter that no digit follows ends the
number, so `1..3` starts with `1` and `1e` is `1` and a name. A number without a dot
and without an exponent is an integer; one with more than one exponent, or an
integer that takes more than sixty-three bits, is written as a number and is none.
-/

namespace BindCheck

namespace Number

/-- Whether an ASCII digit stands first. -/
def digitFirst : List Char → Bool
  | [] => false
  | c :: _ => c.isDigit

/-- Whether a number starts here: with a digit, or with a dot and a digit. -/
def startsHere : List Char → Bool
  | '.' :: r => digitFirst r
  | cs => digitFirst cs

/-- Whether a letter announces an exponent. -/
def isExponentLetter (c : Char) : Bool := c = 'e' || c = 'E'

/-- Whether a character is a sign. -/
def isSign (c : Char) : Bool := c = '+' || c = '-'

/-- The text of the number at the head of the input. `whole` says that neither a dot
nor an exponent has been seen, so that a dot may still come. -/
def scan (whole : Bool) : List Char → List Char
  | [] => []
  | [c] => if c.isDigit then [c] else []
  | c :: d :: r =>
    if c.isDigit then c :: scan whole (d :: r)
    else if c = '.' && whole && d.isDigit then c :: scan false (d :: r)
    else if isExponentLetter c && d.isDigit then c :: scan false (d :: r)
    else if isExponentLetter c && isSign d && digitFirst r then c :: d :: scan false r
    else []

/-- The characters before the first that satisfies `p`, and those behind it. -/
def splitAt (p : Char → Bool) (cs : List Char) : List Char × List Char :=
  (cs.takeWhile (!p ·), (cs.dropWhile (!p ·)).drop 1)

/-- The value of an exponent's sign and digits. -/
def exponentOf : List Char → Int
  | '-' :: ds => -(Binary64.natOfDigits ds : Int)
  | '+' :: ds => Binary64.natOfDigits ds
  | ds => Binary64.natOfDigits ds

/-- The bits of a number's text with at most one exponent: its digits, of which the
last stands for ten to the exponent less the number of places. -/
def bitsOf (text : List Char) : UInt64 :=
  let (mantissa, exponent) := splitAt isExponentLetter text
  let (whole, places) := splitAt (· = '.') mantissa
  Binary64.ofDecimal (whole ++ places) (exponentOf exponent - places.length)

/-- The largest integer literal. -/
def maxInteger : Nat := Nat.pow 2 63 - 1

/-- The token that a number's text stands for. -/
def classify (text : List Char) : Except LexFault Token :=
  let exponents := text.countP isExponentLetter
  if exponents = 0 && !text.contains '.' then
    let n := Binary64.natOfDigits text
    if n ≤ maxInteger then .ok (.integer n) else .error (.invalidNumber (String.ofList text))
  else if exponents ≤ 1 then .ok (.float (bitsOf text))
  else .error (.invalidNumber (String.ofList text))

end Number

end BindCheck
