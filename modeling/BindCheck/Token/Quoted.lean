import BindCheck.Token.Basic

/-!
# BindCheck.Token.Quoted

Quoted text: strings in either quote, whose escapes are resolved, and names in
backquotes, which have no escapes. Both may span lines.
-/

namespace BindCheck

/-- The mark around a quoted name. -/
def backquote : Char := '\x60'

/-- The character that an escape stands for. -/
def unescape? : Char → Option Char
  | 'n' => some '\n'
  | 't' => some '\t'
  | 'r' => some '\r'
  | 'b' => some '\x08'
  | 'f' => some '\x0c'
  | '\'' => some '\''
  | '"' => some '"'
  | '\\' => some '\\'
  | _ => none

/-- What follows an opening quote. -/
inductive StringBody where
  /-- A body with this value, written as `raw` with its closing quote; `rest` follows. -/
  | closed (value raw rest : List Char)
  /-- The text ends first. -/
  | unterminated
  /-- After `before`, a backslash in front of `c`, which is no escape. The rest
  starts with that character. -/
  | badEscape (c : Char) (before rest : List Char)
  deriving Repr, DecidableEq

/-- A body with more text in front: `value` stands for what was written as `raw`. -/
def StringBody.behind (value : Char) (raw : List Char) : StringBody → StringBody
  | closed v t r => closed (value :: v) (raw ++ t) r
  | unterminated => unterminated
  | badEscape c before rest => badEscape c (raw ++ before) rest

/-- Reads the body of a string behind the opening `quote`. -/
def stringBody (quote : Char) : List Char → StringBody
  | [] => .unterminated
  | [c] => if c = quote then .closed [] [c] [] else .unterminated
  | c :: d :: r =>
    if c = quote then .closed [] [c] (d :: r)
    else if c = '\\' then
      match unescape? d with
      | some v => (stringBody quote r).behind v [c, d]
      | none => .badEscape d [] (d :: r)
    else (stringBody quote (d :: r)).behind c [c]

/-- Reads the body of a quoted name behind the opening mark: the characters up to and
with the closing one, and the rest. -/
def nameBody? : List Char → Option (List Char × List Char)
  | [] => none
  | c :: r =>
    if c = backquote then some ([c], r)
    else (nameBody? r).map fun b => (c :: b.1, b.2)

end BindCheck
