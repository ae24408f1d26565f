import BindCheck.CommandLine
import BindCheck.Log.Journal

/-!
# BindCheck.Program

What the program does with its options once the source text is there: it is a function of
the two, and answers with everything to be written and with the exit status.
-/

namespace BindCheck

namespace Program

/-- The name and the version of the program. -/
def versionLine : String := "cyscope 0.1.0\n"

/-- The exit status for wrong arguments. -/
def usageStatus : Nat := 2

/-- Runs a check with options on a source text, or on the error in its place. -/
def run (o : Options) (environment : Option String) (text : Except CheckError String) :
    List Entry × Nat :=
  let format := o.format.getD .text
  let (entries, answer) :=
    match text with
    | .error e => ([], .error e)
    | .ok source => (Journal.ofCheck source format, (Verdict.ofSource source).answer)
  (Journal.keep (o.threshold environment) (entries ++ Journal.ofAnswer answer),
    exitStatus answer)

/-- The text of an entry, with the end of its line. -/
def entryText (o : Options) : Entry → String
  | .report text => text
  | .event e => e.line (o.logForm.getD .pretty) ++ "\n"

end Program

end BindCheck
