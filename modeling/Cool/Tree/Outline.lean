import Cool.Text.Quoted
import Cool.Tree.Program

/-!
# Programs as outlines

An outline shows a program with one line for each class, feature, branch and expression, and two
blanks of indentation for each level. An expression's line ends with its static type, or with
`_no_type` as long as it is not known. A call whose receiver is not written has a line `(self)` in
the receiver's place, so that the first line below a call is always its receiver. How a string
constant is quoted is up to the caller; `Quoted.encode` is what is used otherwise.

* `Outline`, `Outline.render` : lines with lines below them, and their text;
* `Expr.outline`, `ClassDecl.outline` : the lines of a tree;
* `Program.dump` : the outline of a program.
-/

namespace Cool

inductive Outline where
  | node (line : String) (below : List Outline)

mutual

/-- The text of an outline that is indented by `depth` levels. -/
def Outline.render (depth : Nat) : Outline → String
  | .node line below =>
    String.ofList (List.replicate (2 * depth) ' ') ++ line ++ "\n" ++
      Outline.renderAll (depth + 1) below

def Outline.renderAll (depth : Nat) : List Outline → String
  | [] => ""
  | o :: os => o.render depth ++ Outline.renderAll depth os

end

/-- The line of a node, with the line number of its start in front. -/
def Span.label (span : Span) (text : String) : String :=
  "#" ++ toString span.line ++ " " ++ text

/-- The line of an expression, with its type at the end. -/
def Note.label (note : Note) (text : String) : String :=
  note.span.label (text ++ " : " ++ (note.type?.map Ty.name).getD "_no_type")

section

variable (quote : String → String)

mutual

def Expr.outline : Expr → Outline
  | .int note value => .node (note.label ("int " ++ toString value)) []
  | .string note value => .node (note.label ("string " ++ quote value)) []
  | .bool note value => .node (note.label ("bool " ++ if value then "true" else "false")) []
  | .object note name => .node (note.label ("object " ++ name)) []
  | .assign note name value => .node (note.label ("assign " ++ name)) [value.outline]
  | .selfDispatch note method args =>
    .node (note.label ("dispatch " ++ method)) (.node "(self)" [] :: Expr.outlines args)
  | .dispatch note receiver method args =>
    .node (note.label ("dispatch " ++ method)) (receiver.outline :: Expr.outlines args)
  | .staticDispatch note receiver type method args =>
    .node (note.label ("static_dispatch " ++ type ++ "." ++ method))
      (receiver.outline :: Expr.outlines args)
  | .new note type => .node (note.label ("new " ++ type)) []
  | .cond note predicate thenBranch elseBranch =>
    .node (note.label "if") [predicate.outline, thenBranch.outline, elseBranch.outline]
  | .loop note predicate body => .node (note.label "while") [predicate.outline, body.outline]
  | .block note body => .node (note.label "block") (Expr.outlines body)
  | .letIn note name type init body =>
    .node (note.label ("let " ++ name ++ " : " ++ type)) (Expr.outlineInit init ++ [body.outline])
  | .typeCase note scrutinee branches =>
    .node (note.label "case") (scrutinee.outline :: Branch.outlines branches)
  | .binary note op left right =>
    .node (note.label op.symbol) [left.outline, right.outline]
  | .unary note op operand => .node (note.label op.symbol) [operand.outline]
  | .isVoid note operand => .node (note.label "isvoid") [operand.outline]

def Expr.outlines : List Expr → List Outline
  | [] => []
  | e :: es => e.outline :: Expr.outlines es

def Expr.outlineInit : Option Expr → List Outline
  | none => []
  | some e => [e.outline]

def Branch.outlines : List Branch → List Outline
  | [] => []
  | ⟨name, type, body, span⟩ :: bs =>
    .node (span.label ("branch " ++ name ++ " : " ++ type)) [body.outline] :: Branch.outlines bs

end

def Feature.outline : Feature → Outline
  | .attr a =>
    .node (a.span.label ("attr " ++ a.name ++ " : " ++ a.type)) (Expr.outlineInit quote a.init)
  | .method m =>
    let formals := m.formals.map fun f => f.name ++ " : " ++ f.type
    .node
      (m.span.label
        ("method " ++ m.name ++ "(" ++ ", ".intercalate formals ++ ") : " ++ m.returnType))
      [m.body.outline quote]

def ClassDecl.outline (c : ClassDecl) : Outline :=
  .node
    (c.span.label ("class " ++ c.name ++ " inherits " ++ c.parent ++ " (" ++ c.file ++ ")"))
    (c.features.map (Feature.outline quote))

end

/-- The outline of a program, one class after the other. -/
def Program.dump (p : Program) (quote : String → String := Quoted.encode) : String :=
  Outline.renderAll 0 (p.classes.map (ClassDecl.outline quote))

end Cool
