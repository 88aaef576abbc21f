import Cool.Check.Context
import Cool.Scope
import Cool.Tree.Program

/-!
# The types of expressions

`Expr.check` finds the type of an expression from those of its parts, and notes it at every node. A
defect is reported once, at the expression that has it; that expression then gets a type to go on
with, so that the check reaches every node.

The rules for single nodes come first, each a function of the types of the parts. The last function
applies them from the leaves up, and hands each part the scope that it is in.

* `Context.assignType`, `Context.callType`, `Context.staticCallType`, `Context.binaryType` : the
  rules for nodes with much to check;
* `Context.letType`, `Context.branchType` : the types that binders declare;
* `Expr.check` : the expression with the types noted, and its type.
-/

namespace Cool

namespace Context

/-! ## Rules -/

def objectType (Γ : Context) (σ : Scope) (span : Span) (name : String) : Diagnosed Ty :=
  match σ.lookup? name with
  | some type => pure type
  | none => Γ.recover span (.undeclared name) .object

/-- The type of an assignment of a value of type `value`. -/
def assignType (Γ : Context) (σ : Scope) (span : Span) (name : String) (value : Ty) :
    Diagnosed Ty :=
  if name = Names.self then Γ.recover span .assignedSelf value
  else
    match σ.lookup? name with
    | none => Γ.recover span (.assignedUndeclared name) value
    | some declared => do
      if ← Γ.conforms span value declared then return value
      else Γ.recover span (.assignedMismatch value declared name) declared

/-- Reports the arguments whose types do not conform to those of their formal parameters. -/
def checkArguments (Γ : Context) (span : Span) (method : String) :
    List (Ty × FormalSig) → Diagnosed Unit
  | [] => pure ()
  | (type, formal) :: more => do
    Γ.requireConforms span type formal.type
      (.argumentMismatch method type formal.name formal.type)
    Γ.checkArguments span method more

/-- The type of a call on a receiver, of the method that the class `start` has. A method that
returns `SELF_TYPE` returns a value of the receiver's type. -/
def callType (Γ : Context) (span : Span) (receiver : Ty) (start : String) (method : String)
    (args : List Ty) : Diagnosed Ty :=
  if Γ.classes.isResolved start then
    match Γ.features.lookupMethod? Γ.classes start method with
    | none => Γ.recover span (.undefinedMethod method) .object
    | some signature => do
      let result := if signature.returnType.isSelfType then receiver else signature.returnType
      if args.length ≠ signature.formals.length then
        Γ.recover span (.wrongArity method) result
      else
        Γ.checkArguments span method (args.zip signature.formals)
        return result
  else pure .object

/-- The type of a call of the method that a named class has. -/
def staticCallType (Γ : Context) (span : Span) (receiver : Ty) (type : String) (method : String)
    (args : List Ty) : Diagnosed Ty :=
  if type = Names.selfType then Γ.recover span .staticSelfType .object
  else if Γ.classes.contains type then do
    Γ.requireConforms span receiver (.named type) (.staticMismatch receiver type)
    Γ.callType span receiver type method args
  else Γ.recover span (.staticUndefined type) .object

def newType (Γ : Context) (span : Span) (type : String) : Diagnosed Ty :=
  match Γ.classes.resolveType? type with
  | some type => pure type
  | none => Γ.recover span (.newUndefined type) .object

/-- The type that a `let` declares. -/
def letType (Γ : Context) (span : Span) (name type : String) : Diagnosed Ty :=
  match Γ.classes.resolveType? type with
  | some type => pure type
  | none => Γ.recover span (.letTypeUndefined type name) .object

/-- Checks the type of the initial value of a `let`. A variable of type `SELF_TYPE` takes any. -/
def checkLetInit (Γ : Context) (span : Span) (name : String) (declared : Ty) :
    Option Ty → Diagnosed Unit
  | none => pure ()
  | some type =>
    if declared.isSelfType then pure ()
    else Γ.requireConforms span type declared (.letMismatch type name declared)

/-- The type that a branch of a `case` declares. -/
def branchType (Γ : Context) (span : Span) (name type : String) : Diagnosed Ty :=
  if type = Names.selfType then Γ.recover span (.caseSelfType name) .object
  else if Γ.classes.contains type then pure (.named type)
  else Γ.recover span (.caseTypeUndefined type) .object

/-- The type of a `case` behind a further branch. -/
def joinBranch (Γ : Context) (span : Span) (type : Ty) : Option Ty → Diagnosed Ty
  | none => pure type
  | some joined => Γ.join span joined type

/-- The type of a binary operation. Two values are compared if both or neither are of basic
types; all else is for integers. -/
def binaryType (Γ : Context) (span : Span) (op : BinaryOp) (left right : Ty) : Diagnosed Ty := do
  match op with
  | .eq =>
    Γ.require span (left.isValue == right.isValue) .valueCompared
    return .bool
  | op =>
    Γ.require span (left.isClass Names.int && right.isClass Names.int)
      (.notIntegers left op right)
    return if op.isComparison then .bool else .int

def unaryType (Γ : Context) (span : Span) (op : UnaryOp) (operand : Ty) : Diagnosed Ty := do
  match op with
  | .negate =>
    Γ.require span (operand.isClass Names.int) (.negatedType operand)
    return .int
  | .not =>
    Γ.require span (operand.isClass Names.bool) (.complementedType operand)
    return .bool

end Context

/-! ## Expressions -/

/-- A note with a type. -/
def Note.typed (note : Note) (type : Ty) : Note :=
  { note with type? := some type }

mutual

/-- The expression with the types of all its nodes noted, and its own type. -/
def Expr.check (Γ : Context) (σ : Scope) : Expr → Diagnosed (Expr × Ty)
  | .int note value => return (.int (note.typed .int) value, .int)
  | .string note value => return (.string (note.typed .string) value, .string)
  | .bool note value => return (.bool (note.typed .bool) value, .bool)
  | .object note name => do
    let type ← Γ.objectType σ note.span name
    return (.object (note.typed type) name, type)
  | .assign note name value => do
    let (value, valueType) ← value.check Γ σ
    let type ← Γ.assignType σ note.span name valueType
    return (.assign (note.typed type) name value, type)
  | .selfDispatch note method args => do
    let (args, argTypes) ← Expr.checkAll Γ σ args
    let type ← Γ.callType note.span .selfType Γ.className method argTypes
    return (.selfDispatch (note.typed type) method args, type)
  | .dispatch note receiver method args => do
    let (receiver, receiverType) ← receiver.check Γ σ
    let (args, argTypes) ← Expr.checkAll Γ σ args
    let type ←
      Γ.callType note.span receiverType (receiverType.resolve Γ.className) method argTypes
    return (.dispatch (note.typed type) receiver method args, type)
  | .staticDispatch note receiver named method args => do
    let (receiver, receiverType) ← receiver.check Γ σ
    let (args, argTypes) ← Expr.checkAll Γ σ args
    let type ← Γ.staticCallType note.span receiverType named method argTypes
    return (.staticDispatch (note.typed type) receiver named method args, type)
  | .new note named => do
    let type ← Γ.newType note.span named
    return (.new (note.typed type) named, type)
  | .cond note predicate thenBranch elseBranch => do
    let (predicate, predicateType) ← predicate.check Γ σ
    Γ.require predicate.span (predicateType.isClass Names.bool) .predicateNotBool
    let (thenBranch, thenType) ← thenBranch.check Γ σ
    let (elseBranch, elseType) ← elseBranch.check Γ σ
    let type ← Γ.join note.span thenType elseType
    return (.cond (note.typed type) predicate thenBranch elseBranch, type)
  | .loop note predicate body => do
    let (predicate, predicateType) ← predicate.check Γ σ
    Γ.require predicate.span (predicateType.isClass Names.bool) .conditionNotBool
    let (body, _) ← body.check Γ σ
    return (.loop (note.typed .object) predicate body, .object)
  | .block note body => do
    let (body, types) ← Expr.checkAll Γ σ body
    let type := types.getLastD .object
    return (.block (note.typed type) body, type)
  | .letIn note name named init body => do
    Γ.require note.span (name ≠ Names.self) .letSelf
    let declared ← Γ.letType note.span name named
    let (init, initType) ← Expr.checkInit Γ σ init
    Γ.checkLetInit note.span name declared initType
    let (body, type) ← body.check Γ (σ.push.declare name declared)
    return (.letIn (note.typed type) name named init body, type)
  | .typeCase note scrutinee branches => do
    let (scrutinee, _) ← scrutinee.check Γ σ
    let (branches, joined) ← Branch.checkAll Γ σ note.span [] none branches
    let type := joined.getD .object
    return (.typeCase (note.typed type) scrutinee branches, type)
  | .binary note op left right => do
    let (left, leftType) ← left.check Γ σ
    let (right, rightType) ← right.check Γ σ
    let type ← Γ.binaryType note.span op leftType rightType
    return (.binary (note.typed type) op left right, type)
  | .unary note op operand => do
    let (operand, operandType) ← operand.check Γ σ
    let type ← Γ.unaryType note.span op operandType
    return (.unary (note.typed type) op operand, type)
  | .isVoid note operand => do
    let (operand, _) ← operand.check Γ σ
    return (.isVoid (note.typed .bool) operand, .bool)

/-- Expressions in one scope, and their types. -/
def Expr.checkAll (Γ : Context) (σ : Scope) : List Expr → Diagnosed (List Expr × List Ty)
  | [] => return ([], [])
  | e :: es => do
    let (e, type) ← e.check Γ σ
    let (es, types) ← Expr.checkAll Γ σ es
    return (e :: es, type :: types)

/-- The initial value of a variable, if it has one, and its type. -/
def Expr.checkInit (Γ : Context) (σ : Scope) : Option Expr → Diagnosed (Option Expr × Option Ty)
  | none => return (none, none)
  | some e => do
    let (e, type) ← e.check Γ σ
    return (some e, some type)

/-- The branches of a `case` behind those that ask for the types of `seen` and whose values have
the type `joined`; and the type that the values of all of them have. -/
def Branch.checkAll (Γ : Context) (σ : Scope) (span : Span) (seen : List String)
    (joined : Option Ty) : List Branch → Diagnosed (List Branch × Option Ty)
  | [] => return ([], joined)
  | ⟨name, named, body, place⟩ :: branches => do
    Γ.require place (name ≠ Names.self) .caseSelf
    let declared ← Γ.branchType place name named
    Γ.require place (!seen.contains named) (.caseDuplicate named)
    let (body, type) ← body.check Γ (σ.push.declare name declared)
    let joined ← Γ.joinBranch span type joined
    let (branches, joined) ← Branch.checkAll Γ σ span (named :: seen) (some joined) branches
    return (⟨name, named, body, place⟩ :: branches, joined)

end

end Cool
