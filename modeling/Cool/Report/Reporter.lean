import Cool.Report.Snippet

/-!
# Reporters

A reporter knows the files that notices are about and the style in which to show them: plain, one
line each, or rich, with the labelled source text. A file is found by its name; of several with one
name the one added last is meant.

* `Style`, `Reporter`, `Reporter.addFile`, `Reporter.fileId?` : styles, reporters and their files;
* `Reporter.render` : the text of a notice;
* `Reporter.renderFault`, `Reporter.renderDiagnostic` : the texts of faults and diagnostics.
-/

namespace Cool

inductive Style where
  | plain
  | rich
  deriving DecidableEq

structure SourceFile where
  name : String
  text : String
  deriving DecidableEq

structure Reporter where
  style : Style
  files : List SourceFile

namespace Reporter

def empty (style : Style) : Reporter :=
  ⟨style, []⟩

/-- Adds a file; its number is the number of files before. -/
def addFile (r : Reporter) (f : SourceFile) : Reporter :=
  { r with files := r.files ++ [f] }

/-- The number of the file with a name. -/
def fileId? (r : Reporter) (name : String) : Option Nat :=
  (r.files.zipIdx.reverse.find? fun (f, _) => f.name == name).map Prod.snd

/-- The headline of a notice. -/
def headline (n : Notice) : String :=
  n.severity.name ++ ": " ++ n.message ++ "\n"

/-- The remarks of a notice, one on each line. -/
def remarks (n : Notice) : String :=
  String.join (n.notes.map fun note => " = " ++ note ++ "\n")

/-- A notice with the source text of its label, and an empty line at the end. A label in a file that
is not known cannot be shown, nor can its notice. -/
def renderRich (r : Reporter) (n : Notice) : String :=
  match n.label? with
  | none => headline n ++ remarks n ++ "\n"
  | some label =>
    match r.files[label.file]? with
    | none => ""
    | some f => headline n ++ Snippet.ofLabel f.name f.text label ++ remarks n ++ "\n"

/-- The text of a notice, whose plain form is one line. -/
def render (r : Reporter) (n : Notice) (line : String) : String :=
  match r.style with
  | .plain => line ++ "\n"
  | .rich => r.renderRich n

/-- A fault of the file with a number. -/
def renderFault (r : Reporter) (file : Nat) (f : Fault) : String :=
  let name := (r.files[file]?.map SourceFile.name).getD ""
  r.render (f.notice file) (name ++ ":" ++ toString f.span.line ++ ": " ++ f.detail)

/-- A diagnostic, which knows its file by name. -/
def renderDiagnostic (r : Reporter) (d : Diagnostic) : String :=
  r.render (d.notice (d.file?.bind r.fileId?)) d.text

/-- The end of an analysis that found `count` defects. -/
def renderHalt (r : Reporter) (count : Nat) : String :=
  r.render (.halt count) haltMessage

end Reporter

end Cool
