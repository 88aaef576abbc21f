import Cool.FeatureTable.Basic

/-!
# Scopes

A scope tells the types of the variables at some place of a class: a stack of frames, of which the
outermost holds the attributes of the class and is always there. `self` is in no frame; it has the
type `SELF_TYPE` everywhere, and cannot be bound.

* `Scope`, `Scope.push`, `Scope.pop`, `Scope.depth` : the frames;
* `Scope.declare`, `Scope.lookup?`, `Scope.declaredLocally` : the variables;
* `Scope.forClass` : the scope of the features of a class.
-/

namespace Cool

/-- Variables with their types, the one declared last in front. -/
abbrev Frame := List (String × Ty)

structure Scope where
  /-- The inner frames, the innermost in front. -/
  inner : List Frame
  /-- The outermost frame. -/
  base : Frame
  deriving DecidableEq

namespace Scope

/-- The scope without variables. -/
def empty : Scope :=
  ⟨[], []⟩

/-- Opens an innermost frame. -/
def push (s : Scope) : Scope :=
  { s with inner := [] :: s.inner }

/-- Closes the innermost frame, if it is not the outermost. -/
def pop (s : Scope) : Scope :=
  { s with inner := s.inner.drop 1 }

def depth (s : Scope) : Nat :=
  s.inner.length + 1

/-- Binds a variable in the innermost frame; `self` stays unbound. -/
def declare (s : Scope) (name : String) (type : Ty) : Scope :=
  if name = Names.self then s
  else
    match s.inner with
    | [] => { s with base := (name, type) :: s.base }
    | frame :: inner => { s with inner := ((name, type) :: frame) :: inner }

/-- Whether the innermost frame binds a variable. -/
def declaredLocally (s : Scope) (name : String) : Bool :=
  ((s.inner.headD s.base).lookup name).isSome

/-- The type of a variable: that of the innermost binding. -/
def lookup? (s : Scope) (name : String) : Option Ty :=
  if name = Names.self then some .selfType
  else (s.inner ++ [s.base]).findSome? fun frame => frame.lookup name

/-- The scope in which a class sees the attributes that its objects have. -/
def forClass (classes : ClassTable) (features : FeatureTable) (name : String) : Scope :=
  (features.visibleAttributes classes name).foldl (fun s a => s.declare a.name a.type) .empty

end Scope

end Cool
