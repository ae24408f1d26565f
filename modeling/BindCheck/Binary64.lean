/-!
# BindCheck.Binary64

From a decimal to the nearest double, in exact arithmetic. A float literal is kept
as its sixty-four bits, so **no floating-point operation takes part in reading a
query**: the decimal is a quotient of two natural numbers, and the quotient is
rounded once.

Why one formula covers every range: with the unit `2 ^ s` of the last place and the
rounded multiple `q` of it, the bits are `(s + 1074) * 2 ^ 52 + q`. The leading one
of a normal `q` carries into the exponent field, which is the field's offset of one;
a subnormal has no such leading one and `s = -1074`, so its bits are `q`; and a
`q` that rounds up to the next power of two carries in the same way.
-/

namespace BindCheck.Binary64

/-- The bits of positive infinity. -/
def infinity : Nat := 0x7ff0000000000000

/-- `num / den` rounded to a whole number; a tie goes to the even neighbour. -/
def roundDiv (num den : Nat) : Nat :=
  let q := num / den
  let r := num % den
  if 2 * r < den then q else if den < 2 * r then q + 1 else q + q % 2

/-- Whether `2 ^ k ≤ num / den`. -/
def twoPowLe (k : Int) (num den : Nat) : Bool :=
  if 0 ≤ k then decide (den * Nat.pow 2 k.toNat ≤ num)
  else decide (den ≤ num * Nat.pow 2 (-k).toNat)

/-- The exponent of the largest power of two that is at most `num / den`. -/
def floorLog2 (num den : Nat) : Int :=
  let k : Int := (num.log2 : Int) - den.log2
  if twoPowLe k num den then k else k - 1

/-- The bits of the double nearest to `num / den`, a tie going to the even one. A
quotient beyond the largest double gives infinity. -/
def ofRatio (num den : Nat) : Nat :=
  if num = 0 then 0 else
    let s : Int := max (floorLog2 num den - 52) (-1074)
    let q :=
      if 0 ≤ s then roundDiv num (den * Nat.pow 2 s.toNat)
      else roundDiv (num * Nat.pow 2 (-s).toNat) den
    min ((s + 1074).toNat * Nat.pow 2 52 + q) infinity

/-- The number that a run of ASCII digits denotes. -/
def natOfDigits (ds : List Char) : Nat :=
  ds.foldl (fun n d => 10 * n + (d.toNat - '0'.toNat)) 0

/-- The bits of the double nearest to the decimal with the given digits, whose last
digit stands for `10 ^ exponent`. A decimal far outside the range of doubles is
settled by its number of digits alone, so that no power of an absurd exponent is
ever computed. -/
def ofDecimal (digits : List Char) (exponent : Int) : UInt64 :=
  let ds := digits.dropWhile (· = '0')
  let m := natOfDigits ds
  let bits :=
    if ds.isEmpty then 0
    else if 400 < ds.length + exponent then infinity
    else if ds.length + exponent < -400 then 0
    else if 0 ≤ exponent then ofRatio (m * Nat.pow 10 exponent.toNat) 1
    else ofRatio m (Nat.pow 10 (-exponent).toNat)
  bits.toUInt64

/-- The bits as sixteen hexadecimal digits. -/
def hex (bits : UInt64) : String :=
  let ds := Nat.toDigits 16 bits.toNat
  String.ofList (List.replicate (16 - ds.length) '0' ++ ds)

end BindCheck.Binary64
