import Cool.Conformance
import Cool.Diagnostic.Basic
import Cool.FeatureTable.Basic

/-!
# What expressions are checked against

The tables, the class around an expression and the file that it is in. A question about a class that
is in no table is reported and answered so that nothing further is reported because of it.

* `Context` : tables, class and file;
* `Context.report`, `Context.recover` : a defect, and a type to go on with;
* `Context.conforms`, `Context.join` : conformance and joins inside the class.
-/

namespace Cool

structure Context where
  classes : ClassTable
  features : FeatureTable
  /-- The class that stands for `SELF_TYPE`. -/
  className : String
  file : String

namespace Context

def report (Γ : Context) (span : Span) (defect : TypingDefect) : Diagnosed Unit :=
  .report (.located (.typing defect) Γ.file span)

/-- Reports a defect, and goes on with a type. -/
def recover (Γ : Context) (span : Span) (defect : TypingDefect) (type : Ty) : Diagnosed Ty := do
  Γ.report span defect
  return type

/-- Reports a defect if a condition does not hold. -/
def require (Γ : Context) (span : Span) (condition : Bool) (defect : TypingDefect) :
    Diagnosed Unit :=
  if condition then pure () else Γ.report span defect

def conforms (Γ : Context) (span : Span) (sub sup : Ty) : Diagnosed Bool :=
  match Γ.classes.conforms Γ.className sub sup with
  | .ok answer => pure answer
  | .error undefined => do
    Γ.report span (.undefinedType undefined.name)
    return true

def join (Γ : Context) (span : Span) (a b : Ty) : Diagnosed Ty :=
  match Γ.classes.join Γ.className a b with
  | .ok type => pure type
  | .error undefined => Γ.recover span (.undefinedType undefined.name) .object

/-- Reports a defect if one type does not conform to another. -/
def requireConforms (Γ : Context) (span : Span) (sub sup : Ty) (defect : TypingDefect) :
    Diagnosed Unit := do
  let answer ← Γ.conforms span sub sup
  Γ.require span answer defect

end Context

end Cool
