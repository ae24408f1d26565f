import BindCheck.Token.Basic

/-!
# BindCheck.Grammar.Terminal

What a rule of the grammar asks of the tokens ahead.

* A `Terminal` is a set of tokens, and the grammar takes tokens only by naming one.
* A `Lookahead` is a question about the first few tokens. It decides between
  alternatives and takes nothing.
* An `Expectation` is what is said to be missing when a token does not fit.

**None of the three looks at a place or at a lexeme's text**, save that the text of a
name tells `count` from other names; so neither layout nor the case of a keyword can
change what is parsed.
-/

namespace BindCheck

/-- A set of tokens. -/
inductive Terminal where
  | keyword (k : Keyword)
  | keywords (ks : List Keyword)
  | symbol (s : Symbol)
  | symbols (ss : List Symbol)
  /-- A name that is no reserved word. -/
  | identifier
  /-- The name `count`, in any case of its letters. -/
  | countWord
  /-- A name that may be a reserved word, as labels, property keys and the names of
  procedures and functions may. -/
  | name
  | integer
  /-- A number, a string, a truth value or `NULL`. -/
  | literal
  /-- What may follow the dollar of a parameter. -/
  | parameterName
  /-- Any token, the end of the text among them. -/
  | anything
  /-- The end of the text. -/
  | ending
  /-- A semicolon or the end of the text. -/
  | queryEnd
  deriving Repr, DecidableEq

namespace Terminal

/-- The name `count` in capitals. -/
def countCapitals : List Char := ['C', 'O', 'U', 'N', 'T']

/-- Whether a token is in the set. -/
def accepts : Terminal → Token → Bool
  | keyword k, .keyword k' => k == k'
  | keywords ks, .keyword k => ks.contains k
  | symbol s, .symbol s' => s == s'
  | symbols ss, .symbol s => ss.contains s
  | identifier, .identifier _ => true
  | countWord, .identifier n => Keyword.capitals n.toList == countCapitals
  | name, .identifier _ => true
  | name, .keyword _ => true
  | integer, .integer _ => true
  | literal, .integer _ => true
  | literal, .float _ => true
  | literal, .string _ => true
  | literal, .keyword k => k == .TRUE || k == .FALSE || k == .NULL
  | parameterName, .identifier _ => true
  | parameterName, .keyword _ => true
  | parameterName, .integer _ => true
  | anything, _ => true
  | ending, .eof => true
  | queryEnd, .eof => true
  | queryEnd, .symbol s => s == .semicolon
  | _, _ => false

/-- A symbol in single quotes. -/
def quoted (s : Symbol) : String := "'" ++ String.ofList s.spelling ++ "'"

/-- The words for a set of tokens in a message. -/
def text : Terminal → String
  | keyword k => k.spelling
  | keywords ks => " or ".intercalate (ks.map Keyword.spelling)
  | symbol s => quoted s
  | symbols ss => " or ".intercalate (ss.map quoted)
  | identifier => "a variable name"
  | countWord => "COUNT"
  | name => "a name"
  | integer => "an integer"
  | literal => "a literal"
  | parameterName => "a parameter name"
  | anything => "a token"
  | ending => "end of query"
  | queryEnd => "';' or end of query"

end Terminal

/-- A question about the tokens ahead. -/
inductive Lookahead where
  /-- The next tokens are in these sets, one after another. -/
  | next (ts : List Terminal)
  /-- There is a next token, and it is not in the set. -/
  | notNext (t : Terminal)
  /-- A name follows, dotted or not, with an opening parenthesis behind it. -/
  | dottedCall
  deriving Repr, DecidableEq

namespace Lookahead

/-- Whether the first tokens are in the given sets, one after another. -/
def nextIn : List Terminal → List Lexeme → Bool
  | [], _ => true
  | _ :: _, [] => false
  | t :: ts, l :: ls => t.accepts l.token && nextIn ts ls

/-- Whether what follows a name goes on, after any number of dots and names, with an
opening parenthesis. -/
def callFollows : List Lexeme → Bool
  | [] => false
  | [l] => (Terminal.symbol .leftParen).accepts l.token
  | l :: m :: ls =>
    if (Terminal.symbol .dot).accepts l.token && Terminal.name.accepts m.token then callFollows ls
    else (Terminal.symbol .leftParen).accepts l.token

/-- The answer for the tokens ahead. -/
def holds : Lookahead → List Lexeme → Bool
  | next ts, ls => nextIn ts ls
  | notNext _, [] => false
  | notNext t, l :: _ => !t.accepts l.token
  | dottedCall, [] => false
  | dottedCall, l :: ls => Terminal.identifier.accepts l.token && callFollows ls

end Lookahead

/-- What a rule expects where no token fits. -/
inductive Expectation where
  /-- One of a set of tokens. -/
  | terminal (t : Terminal)
  | expression
  /-- A clause, or a projection that ends the part of the query. -/
  | queryPart
  /-- The parenthesis that opens a node pattern. -/
  | nodeStart
  /-- The parenthesis that closes a node pattern. -/
  | nodeEnd
  deriving Repr, DecidableEq

/-- The words for an expectation. -/
def Expectation.text : Expectation → String
  | terminal t => t.text
  | expression => "an expression"
  | queryPart => "RETURN, WITH or a clause"
  | nodeStart => "'(' to start a node pattern"
  | nodeEnd => "')' to close a node pattern"

end BindCheck
