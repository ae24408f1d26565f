import BindCheck.Text.JsonString
import BindCheck.Text.Visible

/-!
# BindCheck.Log.Event

Events of a log, and the two forms of a log line. An event stands within spans, which say
what was being worked on; it is kept or dropped by its level alone, because **every event
within a span is at least as detailed as the span**.
-/

namespace BindCheck

/-- How important an event is, from the most important on. -/
inductive Level where
  | error | warn | info | debug | trace
  deriving Repr, DecidableEq

namespace Level

/-- The level's word in log lines. -/
def name : Level → String
  | error => "ERROR"
  | warn => "WARN"
  | info => "INFO"
  | debug => "DEBUG"
  | trace => "TRACE"

/-- The more detailed, the higher. -/
def detail : Level → Nat
  | error => 1
  | warn => 2
  | info => 3
  | debug => 4
  | trace => 5

end Level

/-- The most detailed level that is kept, if any is. -/
abbrev Threshold := Option Level

/-- Whether events of a level are kept. -/
def Threshold.keeps (t : Threshold) (l : Level) : Bool :=
  match t with
  | none => false
  | some most => decide (l.detail ≤ most.detail)

/-- The value of a field. -/
inductive LogValue where
  | number (n : Nat)
  | text (s : String)
  deriving Repr, DecidableEq

/-- Fields with their names, in the order in which they are written. -/
abbrev LogFields := List (String × LogValue)

/-- A piece of work that events stand within. -/
structure Span where
  name : String
  fields : LogFields
  deriving Repr, DecidableEq

/-- An event, with its spans from the outermost to the innermost. -/
structure Event where
  level : Level
  spans : List Span
  message : String
  fields : LogFields
  deriving Repr, DecidableEq

/-- The forms of a log line. -/
inductive LogForm where
  | pretty
  | json
  deriving Repr, DecidableEq

namespace LogValue

/-- A value in a line of text. -/
def plain : LogValue → String
  | number n => toString n
  | text s => s

/-- A value in JSON. -/
def json : LogValue → String
  | number n => toString n
  | text s => JsonString.ofText s

end LogValue

namespace LogFields

/-- Fields in a line of text. -/
def plain (fs : LogFields) : List String := fs.map fun f => f.1 ++ "=" ++ f.2.plain

/-- Fields as an object of JSON. -/
def json (fs : LogFields) : String :=
  "\x7b" ++ ",".intercalate (fs.map fun f => JsonString.ofText f.1 ++ ":" ++ f.2.json) ++ "\x7d"

end LogFields

namespace Span

/-- A span in a line of text: its name, and its fields in braces if it has any. -/
def plain (s : Span) : String :=
  if s.fields.isEmpty then s.name
  else s.name ++ "\x7b" ++ " ".intercalate (LogFields.plain s.fields) ++ "\x7d"

/-- A span in JSON. -/
def json (s : Span) : String := LogFields.json (s.fields ++ [("name", .text s.name)])

end Span

namespace Event

/-- An event as a line of text: the level, the spans, the message and the fields. -/
def plain (e : Event) : String :=
  let context := if e.spans.isEmpty then "" else ":".intercalate (e.spans.map Span.plain) ++ ": "
  let words := Visible.message e.message :: LogFields.plain e.fields
  e.level.name ++ " " ++ context ++ " ".intercalate words

/-- An event as an object of JSON. The innermost span comes first by itself, and then all of
them. -/
def json (e : Event) : String :=
  let fields := LogFields.json (("message", .text e.message) :: e.fields)
  let context :=
    match e.spans.getLast? with
    | none => ""
    | some s =>
      ",\"span\":" ++ s.json ++ ",\"spans\":[" ++ ",".intercalate (e.spans.map Span.json) ++ "]"
  "\x7b\"level\":" ++ JsonString.ofText e.level.name ++ ",\"fields\":" ++ fields ++ context ++
    "\x7d"

/-- An event as a log line. -/
def line (form : LogForm) (e : Event) : String :=
  match form with
  | .pretty => e.plain
  | .json => e.json

end Event

end BindCheck
