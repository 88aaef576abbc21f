import Cool.Text.Layout
import Cool.Text.Quoted
import Cool.Tree.Program

/-!
# Programs in full

The tree of a program with everything that its nodes hold, for those who want to see what was read.
A call has one form with an optional receiver here.

* `Expr.record`, `ClassDecl.record` : the layout of a tree;
* `Program.describe` : the text for a program.
-/

namespace Cool

namespace Layout

def text (s : String) : Layout :=
  .atom (Quoted.encode s)

def number (n : Nat) : Layout :=
  .atom (toString n)

def none : Layout :=
  .atom "None"

def some (item : Layout) : Layout :=
  .wrap "Some" item

end Layout

open Layout in
def Span.record (s : Span) : Layout :=
  .record "Span" [("start", number s.start), ("end", number s.stop), ("line", number s.line)]

def Ty.record : Ty → Layout
  | .named name => .wrap "Class" (.text name)
  | .selfType => .atom "SelfType"

/-- The layout of a node, from that of what it is. -/
def Note.record (note : Note) (kind : Layout) : Layout :=
  .record "Expr"
    [("kind", kind), ("span", note.span.record),
      ("ty", match note.type? with
        | none => .none
        | some type => .some type.record)]

def BinaryOp.record : BinaryOp → Layout
  | .add => .atom "Add"
  | .sub => .atom "Sub"
  | .mul => .atom "Mul"
  | .div => .atom "Div"
  | .lt => .atom "Lt"
  | .le => .atom "Le"
  | .eq => .atom "Eq"

def UnaryOp.record : UnaryOp → Layout
  | .negate => .atom "Neg"
  | .not => .atom "Not"

mutual

def Expr.record : Expr → Layout
  | .int note value => note.record (.wrap "IntConst" (.number value))
  | .string note value => note.record (.wrap "StrConst" (.text value))
  | .bool note value =>
    note.record (.wrap "BoolConst" (.atom (if value then "true" else "false")))
  | .object note name => note.record (.wrap "Object" (.text name))
  | .assign note name value =>
    note.record (.record "Assign" [("name", .text name), ("value", value.record)])
  | .selfDispatch note method args =>
    note.record (.record "Dispatch"
      [("receiver", .none), ("method", .text method), ("args", .list (Expr.records args))])
  | .dispatch note receiver method args =>
    note.record (.record "Dispatch"
      [("receiver", .some receiver.record), ("method", .text method),
        ("args", .list (Expr.records args))])
  | .staticDispatch note receiver type method args =>
    note.record (.record "StaticDispatch"
      [("receiver", receiver.record), ("type_name", .text type), ("method", .text method),
        ("args", .list (Expr.records args))])
  | .new note type => note.record (.wrap "New" (.text type))
  | .cond note predicate thenBranch elseBranch =>
    note.record (.record "If"
      [("predicate", predicate.record), ("then_branch", thenBranch.record),
        ("else_branch", elseBranch.record)])
  | .loop note predicate body =>
    note.record (.record "While" [("predicate", predicate.record), ("body", body.record)])
  | .block note body => note.record (.wrap "Block" (.list (Expr.records body)))
  | .letIn note name type init body =>
    note.record (.record "Let"
      [("name", .text name), ("type_name", .text type), ("init", Expr.recordInit init),
        ("body", body.record)])
  | .typeCase note scrutinee branches =>
    note.record (.record "Case"
      [("scrutinee", scrutinee.record), ("branches", .list (Branch.records branches))])
  | .binary note op left right =>
    note.record (.record "Binary"
      [("op", op.record), ("left", left.record), ("right", right.record)])
  | .unary note op operand =>
    note.record (.record "Unary" [("op", op.record), ("operand", operand.record)])
  | .isVoid note operand => note.record (.wrap "IsVoid" operand.record)

def Expr.records : List Expr → List Layout
  | [] => []
  | e :: es => e.record :: Expr.records es

def Expr.recordInit : Option Expr → Layout
  | none => .none
  | some e => .some e.record

def Branch.records : List Branch → List Layout
  | [] => []
  | ⟨name, type, body, span⟩ :: bs =>
    .record "CaseBranch"
      [("name", .text name), ("type_name", .text type), ("body", body.record),
        ("span", span.record)] :: Branch.records bs

end

def Formal.record (f : Formal) : Layout :=
  .record "Formal" [("name", .text f.name), ("type_name", .text f.type), ("span", f.span.record)]

def Feature.record : Feature → Layout
  | .attr a =>
    .wrap "Attribute" (.record "AttrDecl"
      [("name", .text a.name), ("type_name", .text a.type), ("init", Expr.recordInit a.init),
        ("span", a.span.record)])
  | .method m =>
    .wrap "Method" (.record "MethodDecl"
      [("name", .text m.name), ("formals", .list (m.formals.map Formal.record)),
        ("return_type", .text m.returnType), ("body", m.body.record), ("span", m.span.record)])

def ClassDecl.record (c : ClassDecl) : Layout :=
  .record "ClassDecl"
    [("name", .text c.name), ("parent", .text c.parent),
      ("features", .list (c.features.map Feature.record)), ("file", .text c.file),
      ("span", c.span.record)]

/-- The full text for a program. -/
def Program.describe (p : Program) : String :=
  (Layout.record "Program" [("classes", .list (p.classes.map ClassDecl.record))]).render

end Cool
