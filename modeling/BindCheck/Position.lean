/-!
# BindCheck.Position

A place in a source text. Lines count from one and columns from zero; a column
counts characters, and **only a line feed ends a line**, so a carriage return, a
tab or a wide character each take one column.

`Position.after` is the one rule by which positions move: every reader of the
lexer says which characters it took, and the new position is that of the end of
them. Two short laws (`after_nil`, `after_append`) are all that a proof about
positions needs.
-/

namespace BindCheck

/-- A line, counted from one, and a column in characters, counted from zero. -/
structure Position where
  line : Nat
  column : Nat
  deriving Repr, DecidableEq

namespace Position

/-- Where every text starts. -/
def start : Position := ⟨1, 0⟩

/-- The place behind one character. -/
def step (p : Position) (c : Char) : Position :=
  if c = '\n' then ⟨p.line + 1, 0⟩ else ⟨p.line, p.column + 1⟩

/-- The place behind a run of characters that begins at `p`. -/
def after (p : Position) (cs : List Char) : Position := cs.foldl step p

@[simp] theorem after_nil (p : Position) : p.after [] = p := rfl

@[simp] theorem after_cons (p : Position) (c : Char) (cs : List Char) :
    p.after (c :: cs) = (p.step c).after cs := rfl

theorem after_append (p : Position) (as bs : List Char) :
    p.after (as ++ bs) = (p.after as).after bs := by
  simp [after, List.foldl_append]

/-- The written form, `line:column`. -/
def text (p : Position) : String := s!"{p.line}:{p.column}"

end Position

end BindCheck
