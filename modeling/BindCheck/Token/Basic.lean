import BindCheck.Position
import BindCheck.Token.Keyword
import BindCheck.Token.Symbol

/-!
# BindCheck.Token.Basic

Tokens and lexemes. A token is what the grammar looks at; a lexeme adds the text
that was written and the place where it starts.

Design points:

* **An integer is a natural number and a float is its bits.** A literal has no sign
  (a sign is an operator), and bits compare exactly.
* **A quoted name keeps its quotes**, so one name has one text wherever it stands.
* The end of the text is a token too, so that every list of tokens has a last one
  to point at.
-/

namespace BindCheck

/-- What a stretch of text stands for. -/
inductive Token where
  /-- A literal of decimal digits, such as `42`. -/
  | integer (value : Nat)
  /-- A literal with a fraction or an exponent, as the bits of the nearest double. -/
  | float (bits : UInt64)
  /-- A quoted literal, with its escapes resolved. -/
  | string (value : String)
  /-- A reserved word. -/
  | keyword (k : Keyword)
  /-- A name; a quoted one keeps its quotes. -/
  | identifier (name : String)
  /-- Punctuation or an operator. -/
  | symbol (s : Symbol)
  /-- The end of the text. -/
  | eof
  deriving Repr, DecidableEq

/-- Whether a token is word-like. Two word-like tokens next to each other need a
space between them; any other two stay apart without one. -/
def Token.isWord : Token → Bool
  | .integer _ | .float _ | .string _ | .keyword _ | .identifier _ => true
  | .symbol _ | .eof => false

/-- A token, the text it was written as, and where that text starts. -/
structure Lexeme where
  token : Token
  text : String
  position : Position
  deriving Repr, DecidableEq

namespace Lexeme

/-- The end of a text, at a place. -/
def ending (p : Position) : Lexeme := ⟨.eof, "", p⟩

/-- The texts of lexemes set side by side, with **one space exactly between two
adjacent words**. `word` says whether the text so far ends in a word. -/
def joinAfter (word : Bool) : List Lexeme → List Char
  | [] => []
  | l :: ls =>
    let gap := if word && l.token.isWord then [' '] else []
    gap ++ (l.text.toList ++ joinAfter l.token.isWord ls)

/-- Adds a lexeme to a text, which may end in a word. -/
def joinStep (text : String × Bool) (l : Lexeme) : String × Bool :=
  ((if text.2 && l.token.isWord then text.1 ++ " " else text.1) ++ l.text, l.token.isWord)

/-- The normalized text of lexemes. -/
def join (ls : List Lexeme) : String := (ls.foldl joinStep ("", false)).1

theorem toList_foldl_joinStep (ls : List Lexeme) (text : String) (word : Bool) :
    (ls.foldl joinStep (text, word)).1.toList = text.toList ++ joinAfter word ls := by
  induction ls generalizing text word with
  | nil => simp [joinAfter]
  | cons l ls ih =>
    simp only [List.foldl_cons, joinStep, joinAfter]
    rw [ih]
    by_cases h : (word && l.token.isWord) = true <;> simp [h]

/-- The normalized text, character by character. -/
theorem toList_join (ls : List Lexeme) : (join ls).toList = joinAfter false ls := by
  simp [join, toList_foldl_joinStep]

end Lexeme

end BindCheck
