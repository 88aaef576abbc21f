import Cool.Diagnostic.Basic
import Cool.FeatureTable.Basic
import Cool.Tree.Program

/-!
# Building a feature table

The features of every accepted class are checked against the class table, and a signature is made
for each that can be used. A type that is not defined is replaced by `Object`; a method that does
not agree with the one it overrides gets the overridden signature. Thus every later check works
with signatures that agree along each chain of ancestors.

Resolved classes are visited behind their ancestors, because the checks against inherited features
need the ancestors' entries. Unresolved classes get those checks only that need no ancestors, and no
entry. What is reported is put into declaration order at the end, whatever the order of the visits.

* `FeatureTable.checkAttribute`, `FeatureTable.checkMethod`, `FeatureTable.checkClass` : the
  signatures of a declaration;
* `FeatureTable.ofProgram` : the table of a program.
-/

namespace Cool

/-- How a method fails to agree with the one it overrides, if it does. -/
def MethodSig.overrideDefect? (own inherited : MethodSig) : Option DeclarationDefect :=
  if own.formals.length ≠ inherited.formals.length then some (.overrideArity own.name)
  else
    match (own.formals.zip inherited.formals).find? fun (f, g) => f.type ≠ g.type with
    | some (f, g) => some (.overrideFormal own.name f.type g.type)
    | none =>
      if own.returnType ≠ inherited.returnType then
        some (.overrideReturn own.name own.returnType inherited.returnType)
      else none

namespace FeatureTable

/-- Reports a defect in the file of a class. -/
def reportIn (c : ClassDecl) (span : Span) (defect : DeclarationDefect) : Diagnosed Unit :=
  .report (.located (.declaration defect) c.file span)

/-- The type that a name stands for, or `Object` and a report. -/
def typeOrObject (classes : ClassTable) (c : ClassDecl) (span : Span) (name : String)
    (defect : DeclarationDefect) : Diagnosed Ty :=
  match classes.resolveType? name with
  | some type => pure type
  | none => do
    reportIn c span defect
    return .object

/-! ## Attributes -/

/-- Why an attribute cannot have its name, in a class that has the attributes of `own` so far. -/
def attributeDefect? (t : FeatureTable) (classes : ClassTable) (c : ClassDecl) (resolved : Bool)
    (own : ClassFeatures) (a : Attribute) : Option DeclarationDefect :=
  if a.name = Names.self then some .attributeNamedSelf
  else if (own.attribute? a.name).isSome then some (.attributeRedefined a.name)
  else if resolved && (t.lookupAttribute? classes c.parent a.name).isSome then
    some (.attributeInherited a.name)
  else none

/-- The features of a class with those of `own` so far and one more attribute, if it is sound. -/
def checkAttribute (t : FeatureTable) (classes : ClassTable) (c : ClassDecl) (resolved : Bool)
    (own : ClassFeatures) (a : Attribute) : Diagnosed ClassFeatures :=
  match t.attributeDefect? classes c resolved own a with
  | some defect => do
    reportIn c a.span defect
    return own
  | none => do
    let type ← typeOrObject classes c a.span a.type (.attributeTypeUndefined a.type a.name)
    return { own with attributes := own.attributes ++ [⟨a.name, type, c.name⟩] }

/-! ## Methods -/

/-- Why a formal parameter cannot have its name behind those of `seen`. -/
def formalDefect? (seen : List String) (f : Formal) : Option DeclarationDefect :=
  if f.name = Names.self then some .formalNamedSelf
  else if seen.contains f.name then some (.formalRedefined f.name)
  else none

def formalType (classes : ClassTable) (c : ClassDecl) (f : Formal) : Diagnosed Ty := do
  let type ← typeOrObject classes c f.span f.type (.formalTypeUndefined f.type f.name)
  if type.isSelfType then
    reportIn c f.span (.formalSelfType f.name)
    return .object
  else
    return type

/-- The signatures of formal parameters behind those named in `seen`. -/
def checkFormals (classes : ClassTable) (c : ClassDecl) (seen : List String) :
    List Formal → Diagnosed (List FormalSig)
  | [] => pure []
  | f :: fs => do
    match formalDefect? seen f with
    | some defect => reportIn c f.span defect
    | none => pure ()
    let type ← formalType classes c f
    let more ← checkFormals classes c (f.name :: seen) fs
    return ⟨f.name, type⟩ :: more

/-- The signature of a method as it is written, with `Object` for what is undefined. -/
def writtenSignature (classes : ClassTable) (c : ClassDecl) (m : Method) : Diagnosed MethodSig := do
  let formals ← checkFormals classes c [] m.formals
  let returnType ←
    typeOrObject classes c m.span m.returnType (.returnTypeUndefined m.returnType m.name)
  return ⟨m.name, formals, returnType, c.name⟩

/-- The signature of a method of a resolved class: that of the method it overrides, if it does not
agree with it. -/
def agreedSignature (t : FeatureTable) (classes : ClassTable) (c : ClassDecl) (m : Method)
    (written : MethodSig) : Diagnosed MethodSig :=
  match t.lookupMethod? classes c.parent m.name with
  | none => pure written
  | some inherited =>
    match written.overrideDefect? inherited with
    | none => pure written
    | some defect => do
      reportIn c m.span defect
      return { inherited with owner := c.name }

/-- The features of a class with those of `own` so far and one more method, if its name is new. -/
def checkMethod (t : FeatureTable) (classes : ClassTable) (c : ClassDecl) (resolved : Bool)
    (own : ClassFeatures) (m : Method) : Diagnosed ClassFeatures := do
  if (own.method? m.name).isSome then
    reportIn c m.span (.methodRedefined m.name)
    return own
  else
    let written ← writtenSignature classes c m
    let signature ← if resolved then t.agreedSignature classes c m written else pure written
    return { own with methods := own.methods ++ [signature] }

/-! ## Classes -/

def checkFeature (t : FeatureTable) (classes : ClassTable) (c : ClassDecl) (resolved : Bool)
    (own : ClassFeatures) : Feature → Diagnosed ClassFeatures
  | .attr a => t.checkAttribute classes c resolved own a
  | .method m => t.checkMethod classes c resolved own m

/-- The features of a class with those of `own` so far and those declared further on. -/
def checkFeatures (t : FeatureTable) (classes : ClassTable) (c : ClassDecl) (resolved : Bool)
    (own : ClassFeatures) : List Feature → Diagnosed ClassFeatures
  | [] => pure own
  | f :: fs => do
    let own ← t.checkFeature classes c resolved own f
    t.checkFeatures classes c resolved own fs

/-- The features of a class; only a resolved one is checked against its ancestors. -/
def checkClass (t : FeatureTable) (classes : ClassTable) (resolved : Bool) (c : ClassDecl) :
    Diagnosed ClassFeatures :=
  t.checkFeatures classes c resolved .empty c.features

/-- The declaration of an accepted class that is not basic, and its position. -/
def declaration? (classes : ClassTable) (p : Program) (name : String) : Option (Nat × ClassDecl) :=
  ((classes.find? name).bind fun c => c.origin.index?).bind fun index =>
    p.classes[index]?.map fun c => (index, c)

/-- Enters classes, given behind their ancestors. The second part says what was reported for which
position. -/
def enterAll (classes : ClassTable) (t : FeatureTable) :
    List (Nat × ClassDecl) → FeatureTable × List (Nat × List Diagnostic)
  | [] => (t, [])
  | (index, c) :: cs =>
    let own := t.checkClass classes true c
    let (t, reports) := enterAll classes (t.insert c.name own.value) cs
    (t, (index, own.reports) :: reports)

/-- The reports on positions below `count`, in the order of the positions. -/
def inOrder (count : Nat) (reports : List (Nat × List Diagnostic)) : List Diagnostic :=
  (List.range count).flatMap fun index =>
    (reports.filter fun r => r.1 == index).flatMap Prod.snd

/-- The feature table of a program. -/
def ofProgram (p : Program) (classes : ClassTable) : Diagnosed FeatureTable :=
  let resolved := classes.resolvedOrder.filterMap (declaration? classes p)
  let unresolved :=
    (classes.classes.filter fun c => !classes.isResolved c.name).filterMap fun c =>
      declaration? classes p c.name
  let (t, reports) := enterAll classes .basic resolved
  let others := unresolved.map fun (index, c) => (index, (t.checkClass classes false c).reports)
  ⟨t, inOrder p.classes.length (reports ++ others)⟩

end FeatureTable

end Cool
