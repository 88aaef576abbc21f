import Cool.Source.Span
import Cool.Ty

/-!
# Expressions

The tree of an expression. Every node carries a `Note`: the span it was read from, and its static
type once the checker has found it. A `let` binds one variable; several bindings are `let`s inside
each other. Parentheses leave no trace but the shape of the tree.

* `BinaryOp`, `UnaryOp` : the operators, with the levels on which they bind;
* `Expr`, `Branch` : expressions, and the branches of a `case`;
* `Expr.note`, `Expr.span`, `Expr.type?` : what a node carries.
-/

namespace Cool

inductive BinaryOp where
  | add
  | sub
  | mul
  | div
  | lt
  | le
  | eq
  deriving DecidableEq

/-- How tightly an operator binds: the greater, the tighter. -/
def BinaryOp.level : BinaryOp → Nat
  | .lt | .le | .eq => 1
  | .add | .sub => 2
  | .mul | .div => 3

/-- Comparisons cannot be chained. -/
def BinaryOp.isComparison : BinaryOp → Bool
  | .lt | .le | .eq => true
  | .add | .sub | .mul | .div => false

def BinaryOp.symbol : BinaryOp → String
  | .add => "+"
  | .sub => "-"
  | .mul => "*"
  | .div => "/"
  | .lt => "<"
  | .le => "<="
  | .eq => "="

inductive UnaryOp where
  | negate
  | not
  deriving DecidableEq

def UnaryOp.symbol : UnaryOp → String
  | .negate => "~"
  | .not => "not"

/-- What every node carries beside its children. -/
structure Note where
  span : Span
  type? : Option Ty
  deriving DecidableEq, Inhabited

/-- The note of a node just read. -/
def Note.untyped (span : Span) : Note :=
  ⟨span, none⟩

mutual

inductive Expr where
  | int (note : Note) (value : Nat)
  | string (note : Note) (value : String)
  | bool (note : Note) (value : Bool)
  | object (note : Note) (name : String)
  | assign (note : Note) (name : String) (value : Expr)
  /-- A call of a method of `self`, which is not written. -/
  | selfDispatch (note : Note) (method : String) (args : List Expr)
  | dispatch (note : Note) (receiver : Expr) (method : String) (args : List Expr)
  /-- A call of the method that a named ancestor has. -/
  | staticDispatch (note : Note) (receiver : Expr) (type : String) (method : String)
    (args : List Expr)
  | new (note : Note) (type : String)
  | cond (note : Note) (predicate : Expr) (thenBranch : Expr) (elseBranch : Expr)
  | loop (note : Note) (predicate : Expr) (body : Expr)
  | block (note : Note) (body : List Expr)
  | letIn (note : Note) (name : String) (type : String) (init : Option Expr) (body : Expr)
  | typeCase (note : Note) (scrutinee : Expr) (branches : List Branch)
  | binary (note : Note) (op : BinaryOp) (left : Expr) (right : Expr)
  | unary (note : Note) (op : UnaryOp) (operand : Expr)
  | isVoid (note : Note) (operand : Expr)

/-- A branch of a `case`: taken when the value has the type, which the name has inside. -/
structure Branch where
  name : String
  type : String
  body : Expr
  span : Span

end

namespace Expr

def note : Expr → Note
  | int note _ => note
  | string note _ => note
  | bool note _ => note
  | object note _ => note
  | assign note _ _ => note
  | selfDispatch note _ _ => note
  | dispatch note _ _ _ => note
  | staticDispatch note _ _ _ _ => note
  | new note _ => note
  | cond note _ _ _ => note
  | loop note _ _ => note
  | block note _ => note
  | letIn note _ _ _ _ => note
  | typeCase note _ _ => note
  | binary note _ _ _ => note
  | unary note _ _ => note
  | isVoid note _ => note

def span (e : Expr) : Span :=
  e.note.span

/-- The static type of an expression, once it is known. -/
def type? (e : Expr) : Option Ty :=
  e.note.type?

end Expr

end Cool
