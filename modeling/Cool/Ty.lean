/-!
# Static types

A static type is a class, or `SELF_TYPE`: the class of the object whose method runs, of which only
that it lies below the enclosing class is known. `SELF_TYPE` is a name in a source, but no class
has it, so that it is told from the names once and for all in `Ty.ofName`.

* `Names` : the names that have a meaning in every program;
* `Ty`, `Ty.ofName`, `Ty.name` : types, from and to the names written in a source;
* `Ty.resolve` : the class that stands for a type inside an enclosing class.
-/

namespace Cool

namespace Names

def object : String := "Object"

def io : String := "IO"

def int : String := "Int"

def string : String := "String"

def bool : String := "Bool"

def selfType : String := "SELF_TYPE"

def self : String := "self"

/-- The class that a program starts in. -/
def main : String := "Main"

/-- The method that a program starts with. -/
def entry : String := "main"

/-- The classes that every program has. -/
def basic : List String := [object, io, int, string, bool]

/-- The classes whose objects are values: nothing inherits from them, and they are compared by
value. -/
def values : List String := [int, string, bool]

end Names

inductive Ty where
  | named (name : String)
  | selfType
  deriving DecidableEq, Inhabited

namespace Ty

def object : Ty := .named Names.object

def int : Ty := .named Names.int

def string : Ty := .named Names.string

def bool : Ty := .named Names.bool

/-- The type that a name stands for in a source. -/
def ofName (name : String) : Ty :=
  if name = Names.selfType then .selfType else .named name

def name : Ty → String
  | .named name => name
  | .selfType => Names.selfType

def isSelfType : Ty → Bool
  | .named _ => false
  | .selfType => true

/-- Whether a type is the class of this name. -/
def isClass (name : String) : Ty → Bool
  | .named c => c == name
  | .selfType => false

/-- Whether a type is a class of values. -/
def isValue : Ty → Bool
  | .named c => Names.values.contains c
  | .selfType => false

/-- The class that stands for a type inside a class. -/
def resolve (enclosing : String) : Ty → String
  | .named c => c
  | .selfType => enclosing

@[simp] theorem name_ofName (name : String) : (ofName name).name = name := by
  unfold ofName
  split
  · next h => simp [Ty.name, h]
  · rfl

end Ty

end Cool
