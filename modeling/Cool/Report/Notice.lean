import Cool.Diagnostic.Basic
import Cool.Fault

/-!
# Notices

What is shown to the reader of a report, apart from the way in which it is shown: a severity, a
headline, at most one labelled stretch of a file, and remarks behind it. Files are named by number
here, in the order in which the reporter got them.

* `Label`, `Notice` : stretches of files, and notices;
* `Notice.lexical`, `Notice.grammatical`, `Fault.notice` : the faults of a source;
* `Notice.halt`, `Notice.readFailure` : the end of an analysis, and files that cannot be read;
* `Diagnostic.notice` : the defects of a program.
-/

namespace Cool

structure Label where
  /-- The number of the file. -/
  file : Nat
  start : Nat
  stop : Nat
  message : String
  deriving DecidableEq

structure Notice where
  severity : Severity
  message : String
  label? : Option Label
  notes : List String
  deriving DecidableEq

def Severity.name : Severity → String
  | .bug => "bug"
  | .error => "error"
  | .warning => "warning"
  | .note => "note"
  | .help => "help"

/-- The message of an analysis that found something. -/
def haltMessage : String :=
  "Compilation halted due to static semantic errors."

namespace Notice

/-- An error with a headline of its own and the details at a stretch of a file. -/
def fault (headline : String) (file : Nat) (detail : String) (span : Span) : Notice :=
  ⟨.error, headline, some ⟨file, span.start, span.stop, detail⟩, []⟩

def lexical : Nat → String → Span → Notice :=
  fault "Lexer error"

def grammatical : Nat → String → Span → Notice :=
  fault "Syntax error"

/-- The end of an analysis that found `count` defects. -/
def halt (count : Nat) : Notice :=
  ⟨.error, haltMessage, none, [toString count ++ " error(s) reported"]⟩

def readFailure (reason : String) : Notice :=
  ⟨.error, "IO error: " ++ reason, none, []⟩

end Notice

def Fault.notice (f : Fault) (file : Nat) : Notice :=
  match f with
  | .lexical error span => .lexical file error.message span
  | .grammatical error span => .grammatical file error.message span

/-- The notice of a diagnostic, with a label if the number of its file is known. -/
def Diagnostic.notice (d : Diagnostic) (file : Option Nat) : Notice :=
  let label? := match file, d.location? with
    | some file, some l => some ⟨file, l.span.start, l.span.stop, ""⟩
    | _, _ => none
  ⟨d.severity, d.message, label?, []⟩

end Cool
