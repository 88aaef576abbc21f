import Cool.Command.Options
import Cool.Compilation
import Cool.Tree.Outline

/-!
# Running a command

What the command prints, and the status it ends with: zero if it did what was asked and the program
is correct, one if a file cannot be read or the program is not correct, two if the command line is
not understood.

Files are read by a function that the caller hands in, so that everything here is a function of
their contents. They are read before anything else is done, and the first that cannot be read ends
the run. The caller may also say how the string constants of the program are quoted when it is
printed.

* `ReadError` : why a file cannot be read;
* `Outcome` : output and status;
* `runCommand` : the outcome of a command line.
-/

namespace Cool

inductive ReadError where
  | notFound
  | isDirectory
  | notDirectory
  | invalidText
  | other (reason : String)

def ReadError.message : ReadError → String
  | .notFound => "No such file or directory (os error 2)"
  | .isDirectory => "Is a directory (os error 21)"
  | .notDirectory => "Not a directory (os error 20)"
  | .invalidText => "stream did not contain valid UTF-8"
  | .other reason => reason

structure Outcome where
  exit : Nat
  stdout : String
  stderr : String

/-- What `--version` prints. -/
def versionText : String :=
  "coolc 0.1.0\n"

/-- What `--help` prints. -/
def helpText : String :=
  "Semantic analyzer and type checker for Cool\n\n" ++
  "Usage: coolc [OPTIONS] <FILES>...\n\n" ++
  "Arguments:\n" ++
  "  <FILES>...  Input source files (.cl); their classes form one program\n\n" ++
  "Options:\n" ++
  "      --max-errors <N>  Stop after this many errors (0 = no limit) [default: 50]\n" ++
  "      --format <STYLE>  Diagnostic output format: plain or rich [default: plain]\n" ++
  "      --dump-tokens     Dump tokens\n" ++
  "      --dump-ast        Dump AST\n" ++
  "      --dump-types      Print the type-annotated program after a successful analysis\n" ++
  "  -v, --verbose         Increase logging verbosity\n" ++
  "  -h, --help            Print help\n" ++
  "  -V, --version         Print version\n"

def usageText : String :=
  "error: the command line is not understood\n\nFor more information, try '--help'.\n"

/-- The outcome for a program whose files are at hand. -/
def Outcome.ofFiles (quote : String → String) (o : Options) (files : List SourceFile) : Outcome :=
  let compiled := compile o.limit ⟨o.dumpTokens, o.dumpTree⟩ (o.style.getD .plain) files
  match compiled.outcome with
  | .error _ =>
    ⟨1, "", compiled.shown ++ "Compilation halted due to lex and parse errors\n"⟩
  | .ok analysis =>
    if analysis.ok then
      ⟨0, if o.dumpTypes then analysis.program.dump quote else "", compiled.shown⟩
    else
      let reports := analysis.diagnostics.map compiled.reporter.renderDiagnostic
      let halt := compiled.reporter.renderHalt analysis.diagnostics.length
      ⟨1, "", compiled.shown ++ String.join reports ++ halt⟩

/-- The outcome if a file cannot be read. -/
def Outcome.unreadable (name : String) (error : ReadError) : Outcome :=
  ⟨1, "", "error: could not read " ++ name ++ ": " ++ error.message ++ "\n"⟩

/-- The files with some names, or the first one that cannot be read. -/
def readSources {m : Type → Type} [Monad m] (read : String → m (Except ReadError String)) :
    List String → m (Except (String × ReadError) (List SourceFile))
  | [] => return .ok []
  | name :: names => do
    match ← read name with
    | .error error => return .error (name, error)
    | .ok text =>
      let others ← readSources read names
      return others.map (SourceFile.mk name text :: ·)

/-- The outcome of a command line, with files that `read` gets. -/
def runCommand {m : Type → Type} [Monad m] (read : String → m (Except ReadError String))
    (args : List String) (quote : String → String := Quoted.encode) : m Outcome :=
  match Request.ofArgs args with
  | .version => return ⟨0, versionText, ""⟩
  | .help => return ⟨0, helpText, ""⟩
  | .misuse => return ⟨2, "", usageText⟩
  | .compile o => do
    match ← readSources read o.files with
    | .error (name, error) => return .unreadable name error
    | .ok files => return .ofFiles quote o files

end Cool
