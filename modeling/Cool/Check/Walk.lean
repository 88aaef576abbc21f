import Cool.Check.Class

/-!
# Checking in one changing place

`Expr.check` hands every part of an expression the scope that it is in. A check can as well keep one
checker and change it on the way: open a frame, bind a name in it, go on in that place, and close
the frame by hand. All that is reported goes straight to the collector of the checker.

* `Walk` : a part of such a check;
* `Closing` : ways to close a frame;
* `Walk.rule` : a rule applied in the place of the checker;
* `Walk.openFrame`, `Walk.bindName`, `Walk.closeFrame` : the frames;
* `Expr.walk`, `Feature.walk`, `ClassDecl.walk` : expressions, features and classes.
-/

namespace Cool

/-- A part of a check, on a checker that it changes. -/
abbrev Walk := StateM Checker

/-- A way to close the innermost frame of a scope. What it does to a scope that has only the
outermost frame is left open. -/
structure Closing where
  close : Scope → Scope
  close_inner : ∀ frame inner base, close ⟨frame :: inner, base⟩ = ⟨inner, base⟩

/-- The way of a scope, which keeps the outermost frame. -/
def Closing.pop : Closing :=
  ⟨Scope.pop, fun _ _ _ => rfl⟩

namespace Walk

variable {α : Type}

/-- The tables, the class and the file. -/
def context : Walk Context :=
  return (← get).context

/-- Applies a rule in the place of the checker, and collects what it reports. -/
def rule (f : Context → Scope → Diagnosed α) : Walk α :=
  modifyGet fun k =>
    ((f k.context k.scope).value,
      { k with collector := k.collector.extend (f k.context k.scope).reports })

def openFrame : Walk Unit :=
  modify fun k => { k with scope := k.scope.push }

def bindName (name : String) (type : Ty) : Walk Unit :=
  modify fun k => { k with scope := k.scope.declare name type }

def closeFrame (C : Closing) : Walk Unit :=
  modify fun k => { k with scope := C.close k.scope }

/-- Binds the formal parameters of a method in the innermost frame, the first of each name. -/
def bindFormals : List FormalSig → List Formal → Walk Unit
  | _, [] => return
  | signatures, f :: fs => do
    let k ← get
    if f.name = Names.self || k.scope.declaredLocally f.name then bindFormals signatures.tail fs
    else
      bindName f.name (k.context.formalType signatures.head? f)
      bindFormals signatures.tail fs

end Walk

open Walk

/-! ## Expressions -/

mutual

def Expr.walk (C : Closing) : Expr → Walk (Expr × Ty)
  | .int note value => return (.int (note.typed .int) value, .int)
  | .string note value => return (.string (note.typed .string) value, .string)
  | .bool note value => return (.bool (note.typed .bool) value, .bool)
  | .object note name => do
    let type ← rule fun Γ σ => Γ.objectType σ note.span name
    return (.object (note.typed type) name, type)
  | .assign note name value => do
    let (value, valueType) ← value.walk C
    let type ← rule fun Γ σ => Γ.assignType σ note.span name valueType
    return (.assign (note.typed type) name value, type)
  | .selfDispatch note method args => do
    let (args, argTypes) ← Expr.walkAll C args
    let type ← rule fun Γ _ => Γ.callType note.span .selfType Γ.className method argTypes
    return (.selfDispatch (note.typed type) method args, type)
  | .dispatch note receiver method args => do
    let (receiver, receiverType) ← receiver.walk C
    let (args, argTypes) ← Expr.walkAll C args
    let type ← rule fun Γ _ =>
      Γ.callType note.span receiverType (receiverType.resolve Γ.className) method argTypes
    return (.dispatch (note.typed type) receiver method args, type)
  | .staticDispatch note receiver named method args => do
    let (receiver, receiverType) ← receiver.walk C
    let (args, argTypes) ← Expr.walkAll C args
    let type ← rule fun Γ _ => Γ.staticCallType note.span receiverType named method argTypes
    return (.staticDispatch (note.typed type) receiver named method args, type)
  | .new note named => do
    let type ← rule fun Γ _ => Γ.newType note.span named
    return (.new (note.typed type) named, type)
  | .cond note predicate thenBranch elseBranch => do
    let (predicate, predicateType) ← predicate.walk C
    rule fun Γ _ =>
      Γ.require predicate.span (predicateType.isClass Names.bool) .predicateNotBool
    let (thenBranch, thenType) ← thenBranch.walk C
    let (elseBranch, elseType) ← elseBranch.walk C
    let type ← rule fun Γ _ => Γ.join note.span thenType elseType
    return (.cond (note.typed type) predicate thenBranch elseBranch, type)
  | .loop note predicate body => do
    let (predicate, predicateType) ← predicate.walk C
    rule fun Γ _ =>
      Γ.require predicate.span (predicateType.isClass Names.bool) .conditionNotBool
    let (body, _) ← body.walk C
    return (.loop (note.typed .object) predicate body, .object)
  | .block note body => do
    let (body, types) ← Expr.walkAll C body
    let type := types.getLastD .object
    return (.block (note.typed type) body, type)
  | .letIn note name named init body => do
    rule fun Γ _ => Γ.require note.span (name ≠ Names.self) .letSelf
    let declared ← rule fun Γ _ => Γ.letType note.span name named
    let (init, initType) ← Expr.walkInit C init
    rule fun Γ _ => Γ.checkLetInit note.span name declared initType
    openFrame
    bindName name declared
    let (body, type) ← body.walk C
    closeFrame C
    return (.letIn (note.typed type) name named init body, type)
  | .typeCase note scrutinee branches => do
    let (scrutinee, _) ← scrutinee.walk C
    let (branches, joined) ← Branch.walkAll C note.span [] none branches
    let type := joined.getD .object
    return (.typeCase (note.typed type) scrutinee branches, type)
  | .binary note op left right => do
    let (left, leftType) ← left.walk C
    let (right, rightType) ← right.walk C
    let type ← rule fun Γ _ => Γ.binaryType note.span op leftType rightType
    return (.binary (note.typed type) op left right, type)
  | .unary note op operand => do
    let (operand, operandType) ← operand.walk C
    let type ← rule fun Γ _ => Γ.unaryType note.span op operandType
    return (.unary (note.typed type) op operand, type)
  | .isVoid note operand => do
    let (operand, _) ← operand.walk C
    return (.isVoid (note.typed .bool) operand, .bool)

def Expr.walkAll (C : Closing) : List Expr → Walk (List Expr × List Ty)
  | [] => return ([], [])
  | e :: es => do
    let (e, type) ← e.walk C
    let (es, types) ← Expr.walkAll C es
    return (e :: es, type :: types)

def Expr.walkInit (C : Closing) : Option Expr → Walk (Option Expr × Option Ty)
  | none => return (none, none)
  | some e => do
    let (e, type) ← e.walk C
    return (some e, some type)

def Branch.walkAll (C : Closing) (span : Span) (seen : List String) (joined : Option Ty) :
    List Branch → Walk (List Branch × Option Ty)
  | [] => return ([], joined)
  | ⟨name, named, body, place⟩ :: branches => do
    rule fun Γ _ => Γ.require place (name ≠ Names.self) .caseSelf
    let declared ← rule fun Γ _ => Γ.branchType place name named
    rule fun Γ _ => Γ.require place (!seen.contains named) (.caseDuplicate named)
    openFrame
    bindName name declared
    let (body, type) ← body.walk C
    closeFrame C
    let joined ← rule fun Γ _ => Γ.joinBranch span type joined
    let (branches, joined) ← Branch.walkAll C span (named :: seen) (some joined) branches
    return (⟨name, named, body, place⟩ :: branches, joined)

end

/-! ## Features and classes -/

def Attribute.walk (C : Closing) (a : Attribute) : Walk Attribute :=
  match a.init with
  | none => return a
  | some init => do
    let Γ ← context
    let declared := (Γ.classes.resolveType? a.type).getD .object
    let (init, type) ← init.walk C
    rule fun Γ _ =>
      Γ.requireConforms a.span type declared (.attributeMismatch type a.name declared)
    return { a with init := some init }

def Method.walk (C : Closing) (again : Bool) (m : Method) : Walk Method := do
  let Γ ← context
  let signature := if again then none else Γ.features.ownMethod? Γ.className m.name
  openFrame
  bindFormals (signature.elim [] MethodSig.formals) m.formals
  let (body, type) ← m.body.walk C
  let declared := Γ.returnType signature m
  rule fun Γ _ => Γ.requireConforms m.span type declared (.returnMismatch type m.name declared)
  closeFrame C
  return { m with body }

def Feature.walk (C : Closing) (seen : List String) : Feature → Walk Feature
  | .attr a => do
    let a ← a.walk C
    return .attr a
  | .method m => do
    let m ← m.walk C (seen.contains m.name)
    return .method m

/-- Goes through features until the collector is halted. -/
def Feature.walkAll (C : Closing) (seen : List String) : List Feature → Walk (List Feature)
  | [] => return []
  | f :: fs => do
    if (← get).collector.halted then return f :: fs
    else
      let checked ← f.walk C seen
      let fs ← Feature.walkAll C (f.seenBehind seen) fs
      return checked :: fs

/-- Goes into a class and through its features. -/
def ClassDecl.walk (C : Closing) (c : ClassDecl) : Walk ClassDecl := do
  modify (·.enter c)
  let features ← Feature.walkAll C [] c.features
  return { c with features }

end Cool
