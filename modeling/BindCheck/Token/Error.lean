import BindCheck.Position

/-!
# BindCheck.Token.Error

What can be wrong with the characters of a query: a cause and a place. The wording
is in one function, `LexError.message`.
-/

namespace BindCheck

/-- Why no token could be read. -/
inductive LexFault where
  /-- No token starts with this character. -/
  | unexpectedChar (c : Char)
  /-- The text ends inside a string. -/
  | unterminatedString
  /-- The text ends inside a block comment. -/
  | unterminatedComment
  /-- The text ends inside a quoted name. -/
  | unterminatedName
  /-- A backslash is followed by a character that is no escape. -/
  | invalidEscape (c : Char)
  /-- A number has too large a value, or more than one exponent. -/
  | invalidNumber (text : String)
  deriving Repr, DecidableEq

/-- A fault and where it lies: the start of what is not closed, the backslash of an
escape, the start of a number, or the unexpected character. -/
structure LexError where
  fault : LexFault
  position : Position
  deriving Repr, DecidableEq

namespace LexFault

/-- The wording of a fault, without its place. -/
def text : LexFault → String
  | unexpectedChar c => s!"unexpected character '{c}' at "
  | unterminatedString => "unterminated string starting at "
  | unterminatedComment => "unterminated comment starting at "
  | unterminatedName => "unterminated quoted name starting at "
  | invalidEscape c => "invalid escape sequence '\\" ++ s!"{c}' at "
  | invalidNumber t => s!"invalid number literal '{t}' at "

end LexFault

/-- The wording of an error. -/
def LexError.message (e : LexError) : String := e.fault.text ++ e.position.text

end BindCheck
