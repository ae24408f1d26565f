/-!
# BindCheck.Text.CharClass

Classes of characters, given as ranges of code points. A class is looked at only
for characters beyond ASCII: the ASCII half of each class is a rule of its own,
which keeps the everyday case short both to run and to reason about.
-/

namespace BindCheck

/-- A class of characters: inclusive ranges of code points, in ascending order. -/
structure CharClass where
  ranges : Array (Nat × Nat)

/-- Whether a character lies in one of the ranges. -/
def CharClass.has (k : CharClass) (c : Char) : Bool :=
  k.ranges.any fun r => decide (r.1 ≤ c.toNat) && decide (c.toNat ≤ r.2)

/-- Whether a character is one of the 128 of ASCII. -/
def isAscii (c : Char) : Bool := decide (c.toNat < 128)

end BindCheck
