import BindCheck.Analysis
import BindCheck.Text.Blank
import BindCheck.Text.JsonString
import BindCheck.Text.Lines

/-!
# BindCheck.Report

How findings are written.

* As text, a finding takes three lines: what and where, the line of the source without the
  blanks at its ends, and a caret below the place. **The caret counts its columns from the
  start of the untrimmed line**, so it stands to the right of the name by the blanks that
  were trimmed.
* As JSON, a finding is one line, with its fields in a fixed order.
-/

namespace BindCheck

/-- How findings are written. -/
inductive Format where
  | text
  | json
  deriving Repr, DecidableEq

namespace Report

/-- A message, the line that it is about, and a caret below the column. -/
def render (source message : String) (p : Position) : String :=
  let line := String.ofList (trimBlanks (lineAt source.toList p.line))
  let caret := String.ofList (List.replicate p.column ' ' ++ ['^'])
  s!"{message} on line: {p.line}, col: {p.column}\n{line}\n{caret}"

/-- A finding as an object of JSON. -/
def jsonText (d : Diagnostic) : String :=
  "\x7b\"kind\":" ++ JsonString.ofText d.kind.name ++
    ",\"name\":" ++ JsonString.ofText d.name ++
    ",\"position\":\x7b\"line\":" ++ toString d.position.line ++
    ",\"column\":" ++ toString d.position.column ++ "\x7d\x7d"

/-- A finding under its message, with the end of its last line. -/
def write (source : String) (format : Format) (message : String) (d : Diagnostic) : String :=
  match format with
  | .text => render source message d.position ++ "\n"
  | .json => jsonText d ++ "\n"

/-- A finding. -/
def ofDiagnostic (source : String) (format : Format) (d : Diagnostic) : String :=
  write source format d.message d

/-- A construct that is not analyzed. -/
def ofUnsupported (source : String) (format : Format) (u : Unsupported) : String :=
  write source format u.message u.diagnostic

end Report

end BindCheck
