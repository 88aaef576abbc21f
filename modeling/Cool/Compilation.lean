import Cool.Analysis
import Cool.Grammar.Program
import Cool.Report.Reporter
import Cool.Token.Listing
import Cool.Tree.Record

/-!
# From source files to an analysis

The files of a program are read one after the other, and their classes make up one program, which is
then analyzed. The first file with a fault ends the reading. On the way the tokens or the tree of
each file may be listed.

* `Listings`, `SourceFile.read`, `readFiles` : reading files, and what is listed on the way;
* `Compilation`, `compile` : the analysis of the files of a program.
-/

namespace Cool

/-- What is listed of each file on the way. -/
structure Listings where
  tokens : Bool
  trees : Bool

/-- A listing under a headline and above a closing line. -/
def Listings.frame (what name text : String) : String :=
  "=== Cool " ++ what ++ ": " ++ name ++ " ===\n" ++ text ++ "=== End " ++ what ++ " ===\n\n"

/-- The listing of a file's tokens if it is asked for, or the fault that prevents it. -/
def SourceFile.tokenListing (listings : Listings) (f : SourceFile) : Except Fault String :=
  if listings.tokens then (listTokens f.text).map (Listings.frame "Tokens" f.name)
  else .ok ""

/-- The listing of a file's tree if it is asked for. -/
def SourceFile.treeListing (listings : Listings) (f : SourceFile) (p : Program) : String :=
  if listings.trees then Listings.frame "AST" f.name (p.describe ++ "\n") else ""

/-- The classes of a file, or its first fault; and what is shown meanwhile. -/
def SourceFile.read (listings : Listings) (r : Reporter) (f : SourceFile) :
    Except Fault Program × String :=
  let number := (r.fileId? f.name).getD 0
  match f.tokenListing listings with
  | .error fault => (.error fault, r.renderFault number fault)
  | .ok tokens =>
    match Program.parse f.name f.text with
    | .error fault => (.error fault, tokens ++ r.renderFault number fault)
    | .ok p => (.ok p, tokens ++ f.treeListing listings p)

/-- The classes of several files, or the first fault; and what is shown meanwhile. -/
def readFiles (listings : Listings) (r : Reporter) :
    List SourceFile → Except Fault Program × String
  | [] => (.ok .empty, "")
  | f :: fs =>
    match f.read listings r with
    | (.error fault, shown) => (.error fault, shown)
    | (.ok p, shown) =>
      let (others, more) := readFiles listings r fs
      (others.map p.append, shown ++ more)

structure Compilation where
  /-- The reporter with all the files. -/
  reporter : Reporter
  /-- What was shown while the files were read. -/
  shown : String
  outcome : Except Fault Analysis

/-- Reads the files of a program and analyzes it up to a limit. -/
def compile (limit : Option Nat) (listings : Listings) (style : Style) (files : List SourceFile) :
    Compilation :=
  let reporter := files.foldl Reporter.addFile (.empty style)
  let (program, shown) := readFiles listings reporter files
  ⟨reporter, shown, program.map (Program.analyze limit)⟩

end Cool
