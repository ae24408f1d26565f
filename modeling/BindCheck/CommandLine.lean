import BindCheck.Check
import BindCheck.Log.Event

/-!
# BindCheck.CommandLine

The options of the program. Arguments are read from left to right, and **the first that is
wrong, or that asks for the version or for help, decides**; that a query and a file exclude
each other is looked at when all of them are read.

An option is a `Setting`, which takes a value, or a `Switch`, which takes none. A value
stands behind its setting or behind an equals sign. An argument that begins with a dash is
no value unless it is the dash alone. The letters of switches may be written together.
-/

namespace BindCheck

/-- Where the query is taken from. -/
inductive Source where
  | inline (query : String)
  | file (path : String)
  | standardInput
  deriving Repr, DecidableEq

/-- An option that takes a value. -/
inductive Setting where
  | query
  | file
  | format
  | logFormat
  deriving Repr, DecidableEq

/-- An option that takes no value. -/
inductive Switch where
  | verbose
  | quiet
  | version
  | help
  deriving Repr, DecidableEq

namespace Setting

/-- All settings. -/
def all : List Setting := [query, file, format, logFormat]

/-- The name of a setting, which two dashes precede. -/
def name : Setting → String
  | query => "query"
  | file => "file"
  | format => "format"
  | logFormat => "log-format"

end Setting

namespace Switch

/-- All switches. -/
def all : List Switch := [verbose, quiet, version, help]

/-- The name of a switch, which two dashes precede. -/
def name : Switch → String
  | verbose => "verbose"
  | quiet => "quiet"
  | version => "version"
  | help => "help"

/-- The letter of a switch, which one dash precedes. -/
def letter : Switch → Char
  | verbose => 'v'
  | quiet => 'q'
  | version => 'V'
  | help => 'h'

/-- The switch with a given letter. -/
def ofLetter? (c : Char) : Option Switch := all.find? (·.letter = c)

end Switch

/-- The options as far as they are given. -/
structure Options where
  query : Option String
  file : Option String
  format : Option Format
  logForm : Option LogForm
  /-- How often more log lines are asked for. -/
  verbose : Nat
  quiet : Bool
  deriving Repr, DecidableEq

/-- What is wrong with the arguments. -/
inductive UsageError where
  | unexpected (argument : String)
  | missingValue (s : Setting)
  | unexpectedValue (s : Switch)
  | invalidValue (s : Setting) (value : String)
  | repeated (name : String)
  | conflict
  deriving Repr, DecidableEq

/-- The wording of a wrong argument. -/
def UsageError.message : UsageError → String
  | unexpected a => s!"unexpected argument '{a}'"
  | missingValue s => s!"a value is required for '--{s.name}'"
  | unexpectedValue s => s!"no value is allowed for '--{s.name}'"
  | invalidValue s v => s!"invalid value '{v}' for '--{s.name}'"
  | repeated name => s!"the argument '--{name}' cannot be used multiple times"
  | conflict => "the argument '--query' cannot be used with '--file'"

/-- What the arguments ask for. -/
inductive Command where
  | check (o : Options)
  | version
  | help
  deriving Repr, DecidableEq

/-! ### Arguments -/

/-- What a single argument is. -/
inductive Argument where
  /-- Two dashes, behind which nothing is an option. -/
  | separator
  /-- A setting, and the value behind an equals sign. -/
  | setting (s : Setting) (value : Option String)
  /-- A switch by its name, and a value that it should not have. -/
  | switch (s : Switch) (value : Option String)
  /-- Letters of switches. -/
  | letters (cs : List Char)
  /-- Anything else. -/
  | other
  deriving Repr, DecidableEq

namespace Argument

/-- The option with a given name. -/
def ofName (name : String) (value : Option String) : Argument :=
  match Setting.all.find? (·.name = name), Switch.all.find? (·.name = name) with
  | some s, _ => setting s value
  | none, some s => switch s value
  | none, none => other

/-- Takes an argument apart. -/
def ofChars : List Char → Argument
  | ['-', '-'] => separator
  | '-' :: '-' :: cs =>
    let name := String.ofList (cs.takeWhile (· ≠ '='))
    match cs.dropWhile (· ≠ '=') with
    | [] => ofName name none
    | _ :: value => ofName name (some (String.ofList value))
  | ['-'] => other
  | '-' :: cs => letters cs
  | _ => other

/-- Whether an argument can be the value of the setting before it. -/
def isValue (argument : List Char) : Bool := argument.head? != some '-' || argument == ['-']

end Argument

/-! ### Options -/

/-- The format with a given name. -/
def Format.ofName? (s : String) : Option Format :=
  [("text", text), ("json", json)].lookup s

/-- The form of log lines with a given name. -/
def LogForm.ofName? (s : String) : Option LogForm :=
  [("pretty", pretty), ("json", json)].lookup s

/-- The threshold with a given name, in any case of its letters. -/
def Threshold.ofName? (s : String) : Option Threshold :=
  [("off", none), ("error", some Level.error), ("warn", some .warn), ("info", some .info),
   ("debug", some .debug), ("trace", some .trace)].lookup s.toLower

namespace Options

/-- Nothing is given. -/
def initial : Options := ⟨none, none, none, none, 0, false⟩

/-- Sets a setting that must not be set before. -/
def once {α : Type} (s : Setting) (old : Option α) (new : Options) : Except UsageError Options :=
  if old.isSome then .error (.repeated s.name) else .ok new

/-- Sets a setting to a value. -/
def set (o : Options) (s : Setting) (value : String) : Except UsageError Options :=
  match s with
  | .query => once s o.query { o with query := some value }
  | .file =>
    if value.isEmpty then .error (.invalidValue s value)
    else once s o.file { o with file := some value }
  | .format =>
    match Format.ofName? value with
    | some f => once s o.format { o with format := some f }
    | none => .error (.invalidValue s value)
  | .logFormat =>
    match LogForm.ofName? value with
    | some f => once s o.logForm { o with logForm := some f }
    | none => .error (.invalidValue s value)

/-- What a switch does. -/
inductive Effect where
  | goOn (o : Options)
  | stop (c : Command)
  deriving Repr, DecidableEq

/-- Turns a switch on. Only `verbose` may be turned on again, and counts. -/
def turnOn (o : Options) : Switch → Except UsageError Effect
  | .verbose => .ok (.goOn { o with verbose := o.verbose + 1 })
  | .quiet =>
    if o.quiet then .error (.repeated Switch.quiet.name)
    else .ok (.goOn { o with quiet := true })
  | .version => .ok (.stop .version)
  | .help => .ok (.stop .help)

/-- Turns switches on by their letters. -/
def turnOnAll (o : Options) : List Char → Except UsageError Effect
  | [] => .ok (.goOn o)
  | c :: cs =>
    match Switch.ofLetter? c with
    | none => .error (.unexpected (String.ofList ['-', c]))
    | some s =>
      match o.turnOn s with
      | .ok (.goOn o) => o.turnOnAll cs
      | other => other

/-- What the options come to. -/
def command (o : Options) : Except UsageError Command :=
  if o.query.isSome && o.file.isSome then .error .conflict else .ok (.check o)

/-- Reads the arguments behind those that gave `o`. -/
def read (o : Options) : List String → Except UsageError Command
  | [] => o.command
  | a :: rest =>
    match Argument.ofChars a.toList with
    | .other => .error (.unexpected a)
    | .separator =>
      match rest with
      | [] => o.command
      | b :: _ => .error (.unexpected b)
    | .letters cs =>
      match o.turnOnAll cs with
      | .error e => .error e
      | .ok (.stop c) => .ok c
      | .ok (.goOn o) => o.read rest
    | .switch s none =>
      match o.turnOn s with
      | .error e => .error e
      | .ok (.stop c) => .ok c
      | .ok (.goOn o) => o.read rest
    | .switch s (some _) => .error (.unexpectedValue s)
    | .setting s (some value) =>
      match o.set s value with
      | .error e => .error e
      | .ok o => o.read rest
    | .setting s none =>
      match rest with
      | [] => .error (.missingValue s)
      | value :: rest =>
        if Argument.isValue value.toList then
          match o.set s value with
          | .error e => .error e
          | .ok o => o.read rest
        else .error (.missingValue s)

/-- Where the query is taken from: as given, or from standard input. -/
def source (o : Options) : Source :=
  match o.query, o.file with
  | some q, _ => .inline q
  | none, some path => .file path
  | none, none => .standardInput

/-- The threshold of the log. The options come before the environment, and asking for less
before asking for more. -/
def threshold (o : Options) (environment : Option String) : Threshold :=
  if o.quiet then some .error
  else
    match o.verbose with
    | 0 => (environment.bind Threshold.ofName?).getD (some .warn)
    | 1 => some .debug
    | _ => some .trace

end Options

/-- What the arguments of the program ask for. -/
def Command.ofArguments (arguments : List String) : Except UsageError Command :=
  Options.initial.read arguments

end BindCheck
