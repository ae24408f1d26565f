import BindCheck.Text.Letter
import BindCheck.Text.Numeral
import BindCheck.Token.Number
import BindCheck.Token.Quoted
import BindCheck.Token.Trivia

/-!
# BindCheck.Token.Lexer

From characters to lexemes, **one token at a time and resumable after an error**.

* `scan` reads the token at the head of a list of characters and knows nothing of
  places. It splits the list into what it took and the rest.
* `Cursor.next` skips trivia, scans, and moves the cursor over what was taken. A
  failing call moves it too: behind a bad number, onto the escaped character of a bad
  escape, to the end of an unclosed string, name or comment; an unexpected character
  is left where it is.
* `tokenize` repeats `next` up to the end of the text or the first error.
-/

namespace BindCheck

/-! ### One token -/

/-- Whether a name or a keyword may start with the character. -/
def startsWord (c : Char) : Bool := isLetter c || c = '_'

/-- Whether a name or a keyword may go on with the character. -/
def continuesWord (c : Char) : Bool := isLetter c || isNumeral c || c = '_'

/-- The token of an unquoted word. -/
def Token.ofWord (word : List Char) : Token :=
  match Keyword.ofWord? word with
  | some k => .keyword k
  | none => .identifier (String.ofList word)

/-- What stands at the head of the input. In both cases `taken` is what has been
read and `rest` what is left. -/
inductive Scan where
  | token (t : Token) (taken rest : List Char)
  /-- The fault lies behind `before`, which begins what was taken. -/
  | fault (f : LexFault) (before taken rest : List Char)
  deriving Repr, DecidableEq

/-- Reads a string whose opening quote stands in front of the input. -/
def scanString (quote : Char) (cs : List Char) : Scan :=
  match stringBody quote cs with
  | .closed value raw rest => .token (.string (String.ofList value)) (quote :: raw) rest
  | .unterminated => .fault .unterminatedString [] (quote :: cs) []
  | .badEscape c before rest =>
    .fault (.invalidEscape c) (quote :: before) (quote :: before ++ ['\\']) rest

/-- Reads a quoted name whose opening mark stands in front of the input. -/
def scanQuotedName (cs : List Char) : Scan :=
  match nameBody? cs with
  | some (body, rest) =>
    .token (.identifier (String.ofList (backquote :: body))) (backquote :: body) rest
  | none => .fault .unterminatedName [] (backquote :: cs) []

/-- Reads a number. -/
def scanNumber (cs : List Char) : Scan :=
  let taken := Number.scan true cs
  let rest := cs.drop taken.length
  match Number.classify taken with
  | .ok t => .token t taken rest
  | .error f => .fault f [] taken rest

/-- Reads the token at the head of the input, which starts with no trivia. -/
def scan : List Char → Scan
  | [] => .token .eof [] []
  | c :: r =>
    if Number.startsHere (c :: r) then scanNumber (c :: r)
    else if c = '"' || c = '\'' then scanString c r
    else if c = backquote then scanQuotedName r
    else if startsWord c then
      let word := c :: r.takeWhile continuesWord
      .token (.ofWord word) word (r.dropWhile continuesWord)
    else
      match Symbol.scan? (c :: r) with
      | some (s, taken) => .token (.symbol s) taken ((c :: r).drop taken.length)
      | none => .fault (.unexpectedChar c) [] [] (c :: r)

/-! ### Tokens in a row -/

/-- Reads the next lexeme, or says why there is none, and gives the cursor to go on
from. At the end of the text the answer is the end, again and again. -/
def Cursor.next (c : Cursor) : Except LexError Lexeme × Cursor :=
  match c.skipTrivia with
  | .unclosed opened stop => (.error ⟨.unterminatedComment, opened⟩, stop)
  | .to c =>
    match scan c.rest with
    | .token t taken rest => (.ok ⟨t, String.ofList taken, c.position⟩, c.skip taken rest)
    | .fault f before taken rest => (.error ⟨f, c.position.after before⟩, c.skip taken rest)

/-- The lexemes from a cursor up to the end of the text, which is the last of them.
Every other lexeme takes a character, so `fuel` above the number of characters left
is never used up. -/
def tokensFrom : Nat → Cursor → Except LexError (List Lexeme)
  | 0, _ => .ok []
  | fuel + 1, c =>
    match c.next with
    | (.error e, _) => .error e
    | (.ok l, c') =>
      if l.token = .eof then .ok [l]
      else
        match tokensFrom fuel c' with
        | .ok ls => .ok (l :: ls)
        | .error e => .error e

/-- The lexemes of a text. The last one is the end of the text. -/
def tokenize (source : String) : Except LexError (List Lexeme) :=
  tokensFrom (source.toList.length + 1) (Cursor.ofString source)

end BindCheck
