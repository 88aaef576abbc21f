import Cool.Check.Expr
import Cool.Diagnostic.Collector

/-!
# The types of features and classes

The body of every method and the initial value of every attribute is checked in the scope of its
class, and its type against the declared one. The features are checked one by one, in order, until
the collector of the diagnostics is halted; a feature that has been begun is checked to its end.

* `Attribute.check`, `Method.check`, `Feature.check` : single features;
* `ClassDecl.check` : a class, with a collector;
* `Checker` : the class, file and scope that a check of a class leaves behind;
* `Checker.checkProgram` : all accepted and resolved classes of a program.
-/

namespace Cool

/-! ## Features -/

def Attribute.check (Γ : Context) (σ : Scope) (a : Attribute) : Diagnosed Attribute :=
  match a.init with
  | none => pure a
  | some init => do
    let declared := (Γ.classes.resolveType? a.type).getD .object
    let (init, type) ← init.check Γ σ
    Γ.requireConforms a.span type declared (.attributeMismatch type a.name declared)
    return { a with init := some init }

/-- The type that a formal parameter has in the body: that of the signature, if there is one, else
the one that is written. -/
def Context.formalType (Γ : Context) (signature : Option FormalSig) (f : Formal) : Ty :=
  match signature with
  | some signature => signature.type
  | none =>
    match Γ.classes.resolveType? f.type with
    | some (.named c) => .named c
    | _ => .object

/-- The scope of a body, from that of its class with an inner frame. The first of several formal
parameters with one name counts. -/
def Context.declareFormals (Γ : Context) (σ : Scope) : List FormalSig → List Formal → Scope
  | _, [] => σ
  | signatures, f :: fs =>
    let σ :=
      if f.name = Names.self || σ.declaredLocally f.name then σ
      else σ.declare f.name (Γ.formalType signatures.head? f)
    Γ.declareFormals σ signatures.tail fs

/-- The type that a body has to conform to. -/
def Context.returnType (Γ : Context) (signature : Option MethodSig) (m : Method) : Ty :=
  match signature with
  | some signature => signature.returnType
  | none => (Γ.classes.resolveType? m.returnType).getD .object

/-- Checks a method against its signature in the table. A method that is declared `again` is
checked as it is written. -/
def Method.check (Γ : Context) (σ : Scope) (again : Bool) (m : Method) : Diagnosed Method := do
  let signature := if again then none else Γ.features.ownMethod? Γ.className m.name
  let formals := signature.elim [] MethodSig.formals
  let (body, type) ← m.body.check Γ (Γ.declareFormals σ.push formals m.formals)
  let declared := Γ.returnType signature m
  Γ.requireConforms m.span type declared (.returnMismatch type m.name declared)
  return { m with body }

/-- Checks a feature behind methods with the names of `seen`. -/
def Feature.check (Γ : Context) (σ : Scope) (seen : List String) : Feature → Diagnosed Feature
  | .attr a => do
    let a ← a.check Γ σ
    return .attr a
  | .method m => do
    let m ← m.check Γ σ (seen.contains m.name)
    return .method m

/-- The names of the methods up to and including a feature. -/
def Feature.seenBehind (seen : List String) : Feature → List String
  | .attr _ => seen
  | .method m => m.name :: seen

/-- Checks features one after the other until the collector is halted. -/
def Feature.checkAll (Γ : Context) (σ : Scope) (seen : List String) (collector : Collector) :
    List Feature → List Feature × Collector
  | [] => ([], collector)
  | f :: fs =>
    if collector.halted then (f :: fs, collector)
    else
      let checked := f.check Γ σ seen
      let (fs, collector) :=
        Feature.checkAll Γ σ (f.seenBehind seen) (collector.extend checked.reports) fs
      (checked.value :: fs, collector)

/-! ## Classes -/

/-- The context of a class. -/
def ClassDecl.context (classes : ClassTable) (features : FeatureTable) (c : ClassDecl) : Context :=
  ⟨classes, features, c.name, c.file⟩

def ClassDecl.check (classes : ClassTable) (features : FeatureTable) (collector : Collector)
    (c : ClassDecl) : ClassDecl × Collector :=
  let σ := Scope.forClass classes features c.name
  let (checked, collector) :=
    Feature.checkAll (c.context classes features) σ [] collector c.features
  ({ c with features := checked }, collector)

/-- Whether the declaration at a position is the accepted one of its name, and resolved. -/
def ClassTable.isChecked (classes : ClassTable) (index : Nat) (c : ClassDecl) : Bool :=
  (classes.find? c.name).any (fun info => info.origin == .declared index) &&
    classes.isResolved c.name

/-! ## Programs -/

/-- Tables with a place in them: the class, file and scope in which an expression by itself is
checked, and the diagnostics so far. -/
structure Checker where
  context : Context
  scope : Scope
  collector : Collector

namespace Checker

/-- A checker in no class, with an empty scope. -/
def start (classes : ClassTable) (features : FeatureTable) (limit : Option Nat) : Checker :=
  ⟨⟨classes, features, "", ""⟩, .empty, .empty limit⟩

/-- The place at the features of a class. -/
def enter (k : Checker) (c : ClassDecl) : Checker :=
  { k with
    context := c.context k.context.classes k.context.features
    scope := .forClass k.context.classes k.context.features c.name }

def checkExpr (k : Checker) (e : Expr) : (Expr × Ty) × Checker :=
  let checked := e.check k.context k.scope
  (checked.value, { k with collector := k.collector.extend checked.reports })

/-- Checks a class, whether it is in the tables or not, and stays in it. -/
def checkClass (k : Checker) (c : ClassDecl) : ClassDecl × Checker :=
  let (checked, collector) := c.check k.context.classes k.context.features k.collector
  (checked, { k.enter c with collector })

/-- Checks declarations from a position on until the collector is halted, and stays in the last one
that was checked. -/
def checkDecls (k : Checker) (index : Nat) : List ClassDecl → List ClassDecl × Checker
  | [] => ([], k)
  | c :: cs =>
    if k.collector.halted then (c :: cs, k)
    else
      let (c, k) := if k.context.classes.isChecked index c then k.checkClass c else (c, k)
      let (cs, k) := k.checkDecls (index + 1) cs
      (c :: cs, k)

/-- Checks the accepted and resolved classes of a program, and stays in the last one of them. -/
def checkProgram (k : Checker) (p : Program) : Program × Checker :=
  let (cs, k) := k.checkDecls 0 p.classes
  (⟨cs⟩, k)

end Checker

end Cool
