import Cool.Diagnostic.Collector
import Cool.Report.Reporter
import Cool.Token.Literal

/-!
# Command lines

A command line is read from left to right, and the first word that settles what to do settles it:
one that asks for the version or for help, or one that is a mistake. Only `-v` may be given twice.
The value of an option is the next word, or stands behind an equals sign; the next word is no value
if it begins with a hyphen. All words behind `--` are files.

* `Options` : what a command line asks for;
* `Request`, `Request.ofArgs` : what to do for a list of words.
-/

namespace Cool

structure Options where
  files : List String
  /-- The greatest number of errors that does not end the analysis; zero for no limit. -/
  maxErrors : Option Nat
  style : Option Style
  dumpTokens : Bool
  dumpTree : Bool
  dumpTypes : Bool

namespace Options

def empty : Options :=
  ⟨[], none, none, false, false, false⟩

/-- The limit on the diagnostics. -/
def limit (o : Options) : Option Nat :=
  match o.maxErrors.getD Collector.defaultLimit with
  | 0 => none
  | n => some n

/-- A file more. No file has the empty name. -/
def addFile? (o : Options) (name : String) : Option Options :=
  if name.isEmpty then none else some { o with files := o.files ++ [name] }

def addFiles? (o : Options) : List String → Option Options
  | [] => some o
  | name :: names => (o.addFile? name).bind fun o => o.addFiles? names

/-- A number below the 64th power of two in decimal digits, perhaps with a plus sign in front. -/
def count? (word : String) : Option Nat :=
  let digits := match word.toList with
    | '+' :: digits => digits
    | digits => digits
  if digits.isEmpty || !digits.all Char.isDigit then none
  else if digitsValue digits < Nat.pow 2 64 then some (digitsValue digits)
  else none

def style? (word : String) : Option Style :=
  if word = "plain" then some .plain
  else if word = "rich" then some .rich
  else none

/-! ## Options with a value -/

inductive Valued where
  | maxErrors
  | format

def Valued.ofName? (name : String) : Option Valued :=
  if name = "max-errors" then some .maxErrors
  else if name = "format" then some .format
  else none

/-- Gives an option its value, unless it has one or the word is none. -/
def setValue? (o : Options) (word : String) : Valued → Option Options
  | .maxErrors =>
    if o.maxErrors.isSome then none
    else (count? word).map fun n => { o with maxErrors := some n }
  | .format =>
    if o.style.isSome then none
    else (style? word).map fun style => { o with style := some style }

/-! ## Options without a value -/

inductive Flag where
  | dumpTokens
  | dumpTree
  | dumpTypes
  | verbose
  | version
  | help

def Flag.ofName? (name : String) : Option Flag :=
  if name = "dump-tokens" then some .dumpTokens
  else if name = "dump-ast" then some .dumpTree
  else if name = "dump-types" then some .dumpTypes
  else if name = "verbose" then some .verbose
  else if name = "version" then some .version
  else if name = "help" then some .help
  else none

def Flag.ofLetter? (letter : Char) : Option Flag :=
  if letter = 'v' then some .verbose
  else if letter = 'V' then some .version
  else if letter = 'h' then some .help
  else none

end Options

/-- What to do for a command line. -/
inductive Request where
  | compile (options : Options)
  | version
  | help
  /-- Nothing: the command line is not understood. -/
  | misuse

namespace Request

open Options

/-- Raises a flag and goes on, or settles what to do. -/
def raise (o : Options) (next : Options → Request) : Flag → Request
  | .dumpTokens => if o.dumpTokens then misuse else next { o with dumpTokens := true }
  | .dumpTree => if o.dumpTree then misuse else next { o with dumpTree := true }
  | .dumpTypes => if o.dumpTypes then misuse else next { o with dumpTypes := true }
  | .verbose => next o
  | .version => version
  | .help => help

/-- Raises the flags of some letters and goes on. -/
def raiseLetters (o : Options) (next : Options → Request) : List Char → Request
  | [] => next o
  | letter :: letters =>
    match Flag.ofLetter? letter with
    | some flag => raise o (fun o => raiseLetters o next letters) flag
    | none => misuse

/-- Goes on if there is something to go on with. -/
def proceed (next : Options → Request) : Option Options → Request
  | some o => next o
  | none => misuse

/-- The end of a command line, which needs files. -/
def finish (o : Options) : Request :=
  if o.files.isEmpty then misuse else compile o

/-- Goes through the words of a command line. -/
def read (o : Options) : List String → Request
  | [] => finish o
  | word :: words =>
    match word.toList with
    | '-' :: '-' :: [] => proceed finish (o.addFiles? words)
    | '-' :: '-' :: option =>
      let name := String.ofList (option.takeWhile (· ≠ '='))
      match option.dropWhile (· ≠ '='), Valued.ofName? name with
      | _ :: value, some valued =>
        proceed (fun o => read o words) (o.setValue? (String.ofList value) valued)
      | _ :: _, none => misuse
      | [], some valued =>
        match words with
        | [] => misuse
        | value :: words =>
          if value.toList.head? == some '-' then misuse
          else proceed (fun o => read o words) (o.setValue? value valued)
      | [], none =>
        match Flag.ofName? name with
        | some flag => raise o (fun o => read o words) flag
        | none => misuse
    | '-' :: letter :: letters => raiseLetters o (fun o => read o words) (letter :: letters)
    | _ => proceed (fun o => read o words) (o.addFile? word)

def ofArgs (args : List String) : Request :=
  read .empty args

end Request

end Cool
