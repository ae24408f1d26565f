import BindCheck.Grammar.Query
import BindCheck.Token.Lexer

/-!
# BindCheck.Grammar.Parser

Parsing a text. `parse` is for a whole text; a `Session` holds the lexemes of a text
that are still ahead, and can be asked again and again, also after a failure: **a
failing request leaves the session at the token that did not fit**.
-/

namespace BindCheck

/-- Why a text is no query. -/
inductive ParseError where
  /-- The text has no tokens. -/
  | lexical (e : LexError)
  /-- Something else was expected where a lexeme was found. -/
  | unexpected (expected : Expectation) (found : Lexeme)
  deriving Repr, DecidableEq

namespace ParseError

/-- How the offending lexeme is referred to. -/
def foundText (l : Lexeme) : String :=
  if l.token = .eof then "end of input" else "'" ++ l.text ++ "'"

/-- The place of an error. -/
def position : ParseError → Position
  | lexical e => e.position
  | unexpected _ l => l.position

/-- The wording of an error. -/
def message : ParseError → String
  | lexical e => e.message
  | unexpected e l => s!"expected {e.text}, found {foundText l} at {l.position.text}"

end ParseError

/-- Parses with a named rule, to a depth of calls. A call stands behind a token that has
been taken, so a depth above the number of lexemes is never reached; and as each level
has taken one, the depth that is left also bounds the repetitions. -/
def Nonterminal.parseTo : Nat → Nonterminal → List Lexeme → Outcome
  | 0, _, ls => .failed .expression ls
  | depth + 1, n, ls => (Grammar.production n).parseWith (parseTo depth) depth ls

/-- Parses the tokens ahead with a rule of the grammar. -/
def Rule.parse (r : Rule) (ls : List Lexeme) : Outcome :=
  r.parseWith (Nonterminal.parseTo (ls.length + 1)) (ls.length + 1) ls

/-- The node of an outcome, or the error that it stands for, and what is still ahead. The
lexemes of a text end with the end of the text, which no rule takes; so there is always
a lexeme to point at. -/
def Outcome.result : Outcome → Except ParseError Tree × List Lexeme
  | .done (t :: _) _ rest => (.ok t, rest)
  | .done [] _ rest => (.error (.unexpected .expression (rest.headD (.ending .start))), rest)
  | .failed e rest => (.error (.unexpected e (rest.headD (.ending .start))), rest)

/-- A text that is being parsed: the lexemes still ahead. -/
structure Session where
  ahead : List Lexeme
  deriving Repr, DecidableEq

namespace Session

/-- Starts on a text, which has to consist of tokens. -/
def ofString (source : String) : Except ParseError Session :=
  match tokenize source with
  | .ok ls => .ok ⟨ls⟩
  | .error e => .error (.lexical e)

/-- Parses what is ahead with a rule. -/
def request (s : Session) (r : Rule) : Except ParseError Tree × Session :=
  let (answer, rest) := (r.parse s.ahead).result
  (answer, ⟨rest⟩)

/-- Parses a whole query, up to the end of the text. -/
def query (s : Session) : Except ParseError Tree × Session := s.request Grammar.cypher

/-- Parses one expression. -/
def expression (s : Session) : Except ParseError Tree × Session := s.request Grammar.expression

end Session

/-- The tree of a text. -/
def parse (source : String) : Except ParseError Tree :=
  match Session.ofString source with
  | .ok s => s.query.1
  | .error e => .error e

end BindCheck
