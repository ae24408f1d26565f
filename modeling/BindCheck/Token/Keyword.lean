/-!
# BindCheck.Token.Keyword

The reserved words of a query. **A word is a keyword whatever the case of its ASCII
letters**: `MATCH`, `match` and `Match` are one keyword. Letters beyond ASCII have no
case here, so a word with a dotless or a long letter in it is an ordinary name.
-/

namespace BindCheck

/-- A reserved word. The constructors are spelled as the words are. -/
inductive Keyword where
  -- Clauses
  | MATCH | OPTIONAL | WHERE | RETURN | WITH | UNWIND | CREATE | MERGE | ON | SET | DELETE
  | DETACH | REMOVE | CALL | YIELD | UNION
  -- Projections and their modifiers
  | AS | ALL | DISTINCT | ORDER | BY | ASC | ASCENDING | DESC | DESCENDING | SKIP | LIMIT
  -- Operators
  | AND | OR | XOR | NOT | IN | STARTS | ENDS | CONTAINS | IS
  -- Literals
  | NULL | TRUE | FALSE
  -- Conditional expressions
  | CASE | WHEN | THEN | ELSE | END
  deriving Repr, DecidableEq

namespace Keyword

/-- Every reserved word. -/
def all : List Keyword :=
  [.MATCH, .OPTIONAL, .WHERE, .RETURN, .WITH, .UNWIND, .CREATE, .MERGE, .ON, .SET, .DELETE,
   .DETACH, .REMOVE, .CALL, .YIELD, .UNION, .AS, .ALL, .DISTINCT, .ORDER, .BY, .ASC,
   .ASCENDING, .DESC, .DESCENDING, .SKIP, .LIMIT, .AND, .OR, .XOR, .NOT, .IN, .STARTS, .ENDS,
   .CONTAINS, .IS, .NULL, .TRUE, .FALSE, .CASE, .WHEN, .THEN, .ELSE, .END]

/-- The spelling in capitals. -/
def spelling : Keyword → String
  | .MATCH => "MATCH"
  | .OPTIONAL => "OPTIONAL"
  | .WHERE => "WHERE"
  | .RETURN => "RETURN"
  | .WITH => "WITH"
  | .UNWIND => "UNWIND"
  | .CREATE => "CREATE"
  | .MERGE => "MERGE"
  | .ON => "ON"
  | .SET => "SET"
  | .DELETE => "DELETE"
  | .DETACH => "DETACH"
  | .REMOVE => "REMOVE"
  | .CALL => "CALL"
  | .YIELD => "YIELD"
  | .UNION => "UNION"
  | .AS => "AS"
  | .ALL => "ALL"
  | .DISTINCT => "DISTINCT"
  | .ORDER => "ORDER"
  | .BY => "BY"
  | .ASC => "ASC"
  | .ASCENDING => "ASCENDING"
  | .DESC => "DESC"
  | .DESCENDING => "DESCENDING"
  | .SKIP => "SKIP"
  | .LIMIT => "LIMIT"
  | .AND => "AND"
  | .OR => "OR"
  | .XOR => "XOR"
  | .NOT => "NOT"
  | .IN => "IN"
  | .STARTS => "STARTS"
  | .ENDS => "ENDS"
  | .CONTAINS => "CONTAINS"
  | .IS => "IS"
  | .NULL => "NULL"
  | .TRUE => "TRUE"
  | .FALSE => "FALSE"
  | .CASE => "CASE"
  | .WHEN => "WHEN"
  | .THEN => "THEN"
  | .ELSE => "ELSE"
  | .END => "END"

/-- A word with its ASCII letters raised to capitals. -/
def capitals (word : List Char) : List Char := word.map Char.toUpper

/-- The keyword that a word spells, if it spells one. -/
def ofWord? (word : List Char) : Option Keyword :=
  all.find? fun k => k.spelling.toList == capitals word

theorem mem_all (k : Keyword) : k ∈ all := by
  cases k <;> decide

/-- Case does not matter: words with equal capitals are the same keyword, or both
are none. -/
theorem ofWord?_congr {v w : List Char} (h : capitals v = capitals w) :
    ofWord? v = ofWord? w := by
  simp [ofWord?, h]

end Keyword

end BindCheck
