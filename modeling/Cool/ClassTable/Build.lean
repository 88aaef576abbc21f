import Cool.ClassTable.Basic
import Cool.Diagnostic.Basic
import Cool.Tree.Program

/-!
# Building a class table

The table of a program is built in four steps: the declarations are accepted or refused one by one,
parents that are not in the table are found, the class and method that a program starts with are
looked up, and the cycles of inheritance are found. Each step reports its defects in declaration
order.

Cycles are found by walking along the parents from every class in turn. A walk ends at a class that
a former walk has passed, at one known from the start to be sound or not, or on its own path: then
it has found a cycle, and no later walk can find the same one. Whatever ends badly makes the whole
path of the walk unresolved.

* `ClassTable.declare`, `ClassTable.declareAll` : accepting declarations;
* `ClassTable.findUndefinedParents`, `ClassTable.findEntry`, `ClassTable.findCycles` : the other
  steps;
* `ClassTable.ofProgram` : the table of a program.
-/

namespace Cool

namespace ClassTable

/-- Adds a class that is not in the table. -/
def insert (t : ClassTable) (c : ClassInfo) : ClassTable :=
  { t with classes := t.classes ++ [c] }

/-- Makes classes unresolved. -/
def markUnresolved (t : ClassTable) (names : List String) : ClassTable :=
  { t with unresolved := t.unresolved ++ names }

/-- Names that no program can give to a class. -/
def isReserved (name : String) : Bool :=
  Names.basic.contains name || name == Names.selfType

/-- Names that no class can inherit from. -/
def isIllegalParent (name : String) : Bool :=
  Names.values.contains name || name == Names.selfType

def reportAt (file : String) (span : Span) (defect : StructuralDefect) : Diagnosed Unit :=
  .report (.located (.structural defect) file span)

/-! ## Declarations -/

/-- Accepts the declaration at a position of the program, or refuses it. -/
def declare (t : ClassTable) (index : Nat) (c : ClassDecl) : Diagnosed ClassTable := do
  let info : ClassInfo := ⟨c.name, some c.parent, c.file, c.span, .declared index⟩
  if isReserved c.name then
    reportAt c.file c.span (.basicClassRedefined c.name)
    return t
  else if t.contains c.name then
    reportAt c.file c.span (.classRedefined c.name)
    return t
  else if isIllegalParent c.parent then
    reportAt c.file c.span (.illegalParent c.name c.parent)
    return (t.insert info).markUnresolved [c.name]
  else
    return t.insert info

def declareAll (t : ClassTable) (index : Nat) : List ClassDecl → Diagnosed ClassTable
  | [] => return t
  | c :: cs => do
    let t ← t.declare index c
    declareAll t (index + 1) cs

/-! ## Undefined parents -/

/-- The parent of a class, if it ought to be in the table and is not. -/
def undefinedParent? (t : ClassTable) (c : ClassInfo) : Option String :=
  if t.unresolved.contains c.name then none
  else c.parent.filter fun parent => !t.contains parent

def findUndefinedParents (t : ClassTable) : Diagnosed ClassTable :=
  let found := t.classes.filterMap fun c => (t.undefinedParent? c).map fun parent => (c, parent)
  ⟨t.markUnresolved (found.map fun (c, _) => c.name),
    found.map fun (c, parent) =>
      .located (.structural (.undefinedParent c.name parent)) c.file c.span⟩

/-! ## The start of the program -/

/-- The declaration of the class that a program starts in, if one is accepted. -/
def mainDecl? (t : ClassTable) (p : Program) : Option ClassDecl :=
  ((t.find? Names.main).bind fun c => c.origin.index?).bind fun index => p.classes[index]?

def findEntry (t : ClassTable) (p : Program) : Diagnosed Unit :=
  match t.mainDecl? p with
  | none => .report (.general (.structural .noMainClass))
  | some c =>
    match c.methods.find? fun m => m.name == Names.entry with
    | none => reportAt c.file c.span .noEntryMethod
    | some m =>
      if m.formals.isEmpty then pure ()
      else reportAt c.file m.span .entryMethodHasFormals

/-! ## Cycles -/

/-- How a walk along the parents ends. -/
inductive Walk where
  /-- At a class about which everything is known: its chain is broken, or it is not. -/
  | settled (broken : Bool)
  /-- On its own path, of which these classes form a cycle. -/
  | cycle (members : List String)

/-- Walks on from `next` behind `path`, in at most so many steps, to a class of `done`. The result
is the whole path and how the walk ends. -/
def walk (t : ClassTable) (done : List String) :
    Nat → List String → Option String → List String × Walk
  | _, path, none => (path, .settled false)
  | 0, path, some _ => (path, .settled false)
  | n + 1, path, some name =>
    if path.contains name then (path, .cycle (path.dropWhile fun c => c != name))
    else if done.contains name || !t.contains name then
      (path, .settled (t.unresolved.contains name))
    else walk t done n (path ++ [name]) (t.parentOf? name)

/-- Reports a cycle at the class of it that is declared first. -/
def reportCycle (t : ClassTable) (members : List String) : Diagnosed Unit :=
  match t.classes.find? fun c => members.contains c.name with
  | none => pure ()
  | some c => reportAt c.file c.span (.inheritanceCycle c.name)

/-- Reports a cycle, and makes the path of a walk unresolved if it ends badly. -/
def settle (t : ClassTable) (path : List String) : Walk → Diagnosed ClassTable
  | .settled false => pure t
  | .settled true => pure (t.markUnresolved path)
  | .cycle members => do
    t.reportCycle members
    return t.markUnresolved path

/-- Walks from each of the names that no walk has passed; `done` are those passed. -/
def walkAll (t : ClassTable) (done : List String) : List String → Diagnosed ClassTable
  | [] => pure t
  | name :: names =>
    if done.contains name then walkAll t done names
    else do
      let (path, ending) := t.walk done (t.classes.length + 1) [] (some name)
      let t ← t.settle path ending
      walkAll t (done ++ path) names

def findCycles (t : ClassTable) : Diagnosed ClassTable :=
  let done := t.classes.filter fun c => c.isBasic || t.unresolved.contains c.name
  t.walkAll (done.map ClassInfo.name) (t.classes.map ClassInfo.name)

/-! ## The table of a program -/

def ofProgram (p : Program) : Diagnosed ClassTable := do
  let t ← ClassTable.basic.declareAll 0 p.classes
  let t ← t.findUndefinedParents
  t.findEntry p
  t.findCycles

end ClassTable

end Cool
