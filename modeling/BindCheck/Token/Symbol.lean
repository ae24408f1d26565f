/-!
# BindCheck.Token.Symbol

Punctuation and operators, with one table of their spellings. Reading and writing both
use the table: the symbol at the head of the input is **the first row that fits**, and
the rows of two characters come before those of one.
-/

namespace BindCheck

/-- Punctuation and operators. -/
inductive Symbol where
  -- Delimiters
  | leftParen | rightParen | leftBracket | rightBracket | leftBrace | rightBrace
  | comma | dot | twoDots | colon | semicolon | bar | dollar
  -- Operators
  | equal | notEqual | less | greater | atMost | atLeast
  | plus | plusEqual | minus | star | slash | percent | caret
  deriving Repr, DecidableEq

namespace Symbol

/-- The spellings of symbols, **longest first**. Inequality alone has two. -/
def spellings : List (Symbol × List Char) :=
  [(.twoDots, ['.', '.']), (.plusEqual, ['+', '=']), (.atMost, ['<', '=']),
   (.notEqual, ['<', '>']), (.atLeast, ['>', '=']), (.notEqual, ['!', '=']),
   (.leftParen, ['(']), (.rightParen, [')']), (.leftBracket, ['[']), (.rightBracket, [']']),
   (.leftBrace, ['\x7b']), (.rightBrace, ['\x7d']), (.comma, [',']), (.dot, ['.']),
   (.colon, [':']), (.semicolon, [';']), (.bar, ['|']), (.dollar, ['$']), (.equal, ['=']),
   (.less, ['<']), (.greater, ['>']), (.plus, ['+']), (.minus, ['-']), (.star, ['*']),
   (.slash, ['/']), (.percent, ['%']), (.caret, ['^'])]

/-- The symbol at the head of the input, and its spelling. -/
def scan? (cs : List Char) : Option (Symbol × List Char) :=
  spellings.find? fun s => s.2.isPrefixOf cs

/-- How a symbol is written; of two spellings the first. -/
def spelling (s : Symbol) : List Char :=
  match spellings.find? (·.1 == s) with
  | some row => row.2
  | none => []

/-- Every symbol has a spelling, and what is read from it is the symbol. -/
theorem scan?_spelling (s : Symbol) : scan? s.spelling = some (s, s.spelling) := by
  cases s <;> decide

end Symbol

end BindCheck
