import BindCheck.Grammar.Parser
import BindCheck.Report

/-!
# BindCheck.Check

The check of one source text from end to end: what is found, what is written about it, and
the status that tells others.

A check first comes to a `Verdict`, which nothing about the output can change. Then its
reports are written to a `Sink`; **if the sink fails, that is the error of the check**,
whatever the verdict was.
-/

namespace BindCheck

/-- What ends a check before or instead of findings. -/
inductive CheckError where
  /-- The source cannot be read. -/
  | unreadable (path reason : String)
  /-- The findings cannot be written. -/
  | unwritable (reason : String)
  /-- The source is no query. -/
  | unparsable (e : ParseError)
  /-- The query is not analyzed. -/
  | unsupported (u : Unsupported)
  /-- There is no source. -/
  | noInput
  deriving Repr, DecidableEq

namespace CheckError

/-- The wording of an error. -/
def message : CheckError → String
  | unreadable path reason => s!"failed to read {path}: {reason}"
  | unwritable reason => s!"failed to write diagnostics: {reason}"
  | unparsable e => s!"Parse error: {e.message}"
  | unsupported u => u.message
  | noInput => "No query provided. Use --query, --file or pipe a query to stdin."

/-- There is no file at a path. -/
def missing (path : String) : CheckError :=
  unreadable path "No such file or directory (os error 2)"

/-- What a path leads to may not be read. -/
def forbidden (path : String) : CheckError := unreadable path "Permission denied (os error 13)"

/-- A path leads to a directory. -/
def directory (path : String) : CheckError := unreadable path "Is a directory (os error 21)"

/-- What a path leads to is not text. -/
def notText (path : String) : CheckError :=
  unreadable path "stream did not contain valid UTF-8"

end CheckError

/-- The source text in the bytes that a path leads to. -/
def decodeSource (path : String) (bytes : ByteArray) : Except CheckError String :=
  match String.fromUTF8? bytes with
  | some s => .ok s
  | none => .error (.notText path)

/-! ### Verdicts -/

/-- What a check of a text comes to. -/
inductive Verdict where
  | unparsable (e : ParseError)
  | unsupported (u : Unsupported)
  | analyzed (a : Analysis)
  deriving Repr, DecidableEq

namespace Verdict

/-- The verdict on a tree. -/
def ofTree (t : Tree) : Verdict :=
  match t.analyze with
  | .ok a => .analyzed a
  | .error u => .unsupported u

/-- The verdict on a source text. -/
def ofSource (source : String) : Verdict :=
  match parse source with
  | .ok t => ofTree t
  | .error e => .unparsable e

/-- What is written about a verdict, report by report. -/
def reports (source : String) (format : Format) : Verdict → List String
  | unparsable _ => []
  | unsupported u => [Report.ofUnsupported source format u]
  | analyzed a => a.diagnostics.map (Report.ofDiagnostic source format)

/-- What is answered once all reports are written. -/
def answer : Verdict → Except CheckError (List Diagnostic)
  | unparsable e => .error (.unparsable e)
  | unsupported u => .error (.unsupported u)
  | analyzed a => .ok a.diagnostics

end Verdict

/-! ### Writing -/

/-- Where reports go: the bytes taken so far, and the bytes that there is room for, if that
is bounded. A sink that is full answers with its complaint. -/
structure Sink where
  taken : List UInt8
  room : Option Nat
  complaint : String
  deriving Repr, DecidableEq

namespace Sink

/-- A sink without a bound. -/
def unbounded : Sink := ⟨[], none, ""⟩

/-- A sink that takes so many bytes. -/
def bounded (room : Nat) (complaint : String) : Sink := ⟨[], some room, complaint⟩

/-- Writes bytes as far as there is room, and says whether there was room for all. -/
def write (s : Sink) (bytes : List UInt8) : Sink × Bool :=
  match s.room with
  | none => ({ s with taken := s.taken ++ bytes }, true)
  | some n =>
    ({ s with taken := s.taken ++ bytes.take n, room := some (n - bytes.length) },
      decide (bytes.length ≤ n))

/-- Writes texts one after another, up to the first for which there is no room. -/
def writeAll (s : Sink) : List String → Sink × Bool
  | [] => (s, true)
  | t :: ts =>
    match s.write t.toUTF8.toList with
    | (s, true) => s.writeAll ts
    | (s, false) => (s, false)

end Sink

/-! ### Checks -/

/-- Checks a source text and writes what is found to a sink. -/
def check (source : String) (format : Format) (sink : Sink) :
    Sink × Except CheckError (List Diagnostic) :=
  let verdict := Verdict.ofSource source
  match sink.writeAll (verdict.reports source format) with
  | (sink, true) => (sink, verdict.answer)
  | (sink, false) => (sink, .error (.unwritable sink.complaint))

/-- The status of every failure that is not a number of findings. -/
def hardFailure : Nat := 255

/-- The status for a number of findings, which stays below the status of a failure. -/
def statusOfCount (n : Nat) : Nat := min n (hardFailure - 1)

/-- The exit status of a check. -/
def exitStatus : Except CheckError (List Diagnostic) → Nat
  | .ok ds => statusOfCount ds.length
  | .error _ => hardFailure

end BindCheck
