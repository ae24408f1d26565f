import BindCheck.Position

/-!
# BindCheck.Diagnostic

What a check finds. A **finding** about a name is collected and the check goes on; a
**construct that is not analyzed** ends it, and is never counted with the findings.
-/

namespace BindCheck

/-- The kinds of findings. -/
inductive DiagnosticKind where
  /-- A name is read where it is not bound. -/
  | undefinedVariable
  /-- The query uses a construct that is not analyzed. -/
  | unsupportedQuery
  deriving Repr, DecidableEq

/-- The name of a kind in reports. -/
def DiagnosticKind.name : DiagnosticKind → String
  | undefinedVariable => "UndefinedVariable"
  | unsupportedQuery => "UnsupportedQuery"

/-- A finding: its kind, the name that it is about, and where. -/
structure Diagnostic where
  kind : DiagnosticKind
  name : String
  position : Position
  deriving Repr, DecidableEq

/-- The wording of a finding, with the name between backquotes. -/
def Diagnostic.message (d : Diagnostic) : String := s!"{d.kind.name}: \x60{d.name}\x60"

/-- What is not analyzed. -/
inductive Construct where
  /-- A `WHERE`, anywhere in the query. -/
  | filter
  /-- A `MERGE`. -/
  | merge
  /-- A `UNION` of queries. -/
  | union
  /-- A tree without a query or a call at its top. -/
  | shape
  deriving Repr, DecidableEq

/-- The words for a construct. -/
def Construct.text : Construct → String
  | filter => "where"
  | merge => "merge"
  | union => "union"
  | shape => "query shape"

/-- A construct that ends the analysis, and where it stands. -/
structure Unsupported where
  construct : Construct
  position : Position
  deriving Repr, DecidableEq

namespace Unsupported

/-- The wording of the error. -/
def message (u : Unsupported) : String :=
  s!"Unsupported query - {u.construct.text} not implemented"

/-- The error as a finding, for reports in which findings are records. -/
def diagnostic (u : Unsupported) : Diagnostic := ⟨.unsupportedQuery, u.construct.text, u.position⟩

end Unsupported

end BindCheck
