import BindCheck.Position

/-!
# BindCheck.Token.Cursor

How far a text has been read: the characters still to come and the place of the
first of them. A cursor moves only by `skip`, over characters that it names, so its
place is always that of what has been read.
-/

namespace BindCheck

/-- The unread characters and their place. -/
structure Cursor where
  rest : List Char
  position : Position
  deriving Repr, DecidableEq

namespace Cursor

/-- The cursor at the start of a text. -/
def ofString (s : String) : Cursor := ⟨s.toList, Position.start⟩

/-- The cursor behind the characters `taken`, with `rest` left to read. -/
def skip (c : Cursor) (taken rest : List Char) : Cursor := ⟨rest, c.position.after taken⟩

end Cursor

end BindCheck
