import Cool.Ty

/-!
# The basic classes

The classes that every program has without declaring them, parents before children.

* `Builtin.file` : what stands for the name of their file;
* `Builtin.classes` : the classes and their methods.
-/

namespace Cool

structure BuiltinMethod where
  name : String
  formals : List (String × Ty)
  returnType : Ty

structure BuiltinClass where
  name : String
  /-- Nothing for `Object` alone. -/
  parent : Option String
  methods : List BuiltinMethod

namespace Builtin

def file : String := "<basic class>"

def objectMethods : List BuiltinMethod :=
  [⟨"abort", [], .object⟩, ⟨"type_name", [], .string⟩, ⟨"copy", [], .selfType⟩]

def ioMethods : List BuiltinMethod :=
  [⟨"out_string", [("x", .string)], .selfType⟩, ⟨"out_int", [("x", .int)], .selfType⟩,
    ⟨"in_string", [], .string⟩, ⟨"in_int", [], .int⟩]

def stringMethods : List BuiltinMethod :=
  [⟨"length", [], .int⟩, ⟨"concat", [("s", .string)], .string⟩,
    ⟨"substr", [("i", .int), ("l", .int)], .string⟩]

def classes : List BuiltinClass :=
  [⟨Names.object, none, objectMethods⟩, ⟨Names.io, some Names.object, ioMethods⟩,
    ⟨Names.int, some Names.object, []⟩, ⟨Names.bool, some Names.object, []⟩,
    ⟨Names.string, some Names.object, stringMethods⟩]

end Builtin

end Cool
