import Cool.ClassTable.Basic

/-!
# Conformance and joins

A type conforms to another if a value of the first may stand where one of the second is asked for:
for classes, if the second is an ancestor of the first. `SELF_TYPE` lies below the enclosing class.
The join of two types is the least type that both conform to.

A defect of the hierarchy shall not show up again as defects of types. So an unresolved class
conforms to everything and everything to it, and its join with any class is `Object`.

* `ClassTable.conforms`, `ClassTable.join` : the two relations, or the name of an unknown class.
-/

namespace Cool

/-- A class was asked about that is not in the table. -/
structure UndefinedType where
  name : String
  deriving DecidableEq

def UndefinedType.message (u : UndefinedType) : String :=
  "Undefined type " ++ u.name ++ "."

namespace ClassTable

/-- Asks that a class is in the table. -/
def known (t : ClassTable) (name : String) : Except UndefinedType Unit :=
  if t.contains name then .ok () else .error ⟨name⟩

/-- Whether `sub` conforms to `sup` inside the class `enclosing`. -/
def conforms (t : ClassTable) (enclosing : String) (sub sup : Ty) : Except UndefinedType Bool :=
  match sub, sup with
  | .selfType, .selfType => .ok true
  | .named c, .selfType => do
    t.known c
    return false
  | sub, .named c => do
    t.known c
    let name := sub.resolve enclosing
    t.known name
    if t.isResolved name && t.isResolved c then
      return (t.ancestors name).any fun a => a.name == c
    else
      return true

/-- The first class of one chain that is in another. -/
def meeting? (first second : List ClassInfo) : Option String :=
  (second.find? fun c => first.any fun a => a.name == c.name).map ClassInfo.name

/-- The least type that both `a` and `b` conform to inside the class `enclosing`. -/
def join (t : ClassTable) (enclosing : String) (a b : Ty) : Except UndefinedType Ty :=
  if a.isSelfType && b.isSelfType then .ok .selfType
  else do
    let left := a.resolve enclosing
    let right := b.resolve enclosing
    t.known left
    t.known right
    if t.isResolved left && t.isResolved right then
      return .named ((meeting? (t.ancestors left) (t.ancestors right)).getD Names.object)
    else
      return .object

end ClassTable

end Cool
