import BindCheck.Text.Blank
import BindCheck.Token.Cursor

/-!
# BindCheck.Token.Trivia

What stands between tokens: white space, `//` comments up to the end of the line, and
`/* */` comments, which do not nest and may span lines. Skipping it is a machine of
three modes that takes a character or two at a time, so it is **structural in the
text**. The line feed that ends a line comment is left to be skipped as white space.
-/

namespace BindCheck

/-- What the machine stands in. -/
inductive TriviaMode where
  /-- Between comments. -/
  | outside
  /-- In a comment that the end of the line closes. -/
  | line
  /-- In a comment that opened at the given place. -/
  | block (opened : Position)
  deriving Repr, DecidableEq

/-- How skipping ends. -/
inductive Skipped where
  /-- Before the first character of a token, or at the end of the text. -/
  | to (c : Cursor)
  /-- At the end of the text, within the block comment that opened at the place. -/
  | unclosed (opened : Position) (stop : Cursor)
  deriving Repr, DecidableEq

/-- Skips trivia in a mode and from a place. -/
def skipTrivia : TriviaMode → Position → List Char → Skipped
  | .outside, p, '/' :: '/' :: r => skipTrivia .line (p.after ['/', '/']) r
  | .outside, p, '/' :: '*' :: r => skipTrivia (.block p) (p.after ['/', '*']) r
  | .outside, p, c :: r =>
    if isBlank c then skipTrivia .outside (p.step c) r else .to ⟨c :: r, p⟩
  | .line, p, c :: r =>
    if c = '\n' then skipTrivia .outside (p.step c) r else skipTrivia .line (p.step c) r
  | .block _, p, '*' :: '/' :: r => skipTrivia .outside (p.after ['*', '/']) r
  | .block o, p, c :: r => skipTrivia (.block o) (p.step c) r
  | .block o, p, [] => .unclosed o ⟨[], p⟩
  | .outside, p, [] => .to ⟨[], p⟩
  | .line, p, [] => .to ⟨[], p⟩

/-- Skips the trivia at a cursor. -/
def Cursor.skipTrivia (c : Cursor) : Skipped := BindCheck.skipTrivia .outside c.position c.rest

end BindCheck
