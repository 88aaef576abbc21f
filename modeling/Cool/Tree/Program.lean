import Cool.Tree.Expr

/-!
# Programs

A program is a list of class declarations, in the order of the files and of the declarations in
each file. What is declared need not make sense: that is for the analysis to say.

* `Formal`, `Method`, `Attribute`, `Feature` : what a class declares;
* `ClassDecl`, `Program` : classes and programs.
-/

namespace Cool

structure Formal where
  name : String
  type : String
  span : Span

structure Attribute where
  name : String
  type : String
  init : Option Expr
  span : Span

structure Method where
  name : String
  formals : List Formal
  returnType : String
  body : Expr
  span : Span

inductive Feature where
  | attr (declaration : Attribute)
  | method (declaration : Method)

def Feature.span : Feature → Span
  | .attr a => a.span
  | .method m => m.span

def Feature.method? : Feature → Option Method
  | .attr _ => none
  | .method m => some m

structure ClassDecl where
  name : String
  /-- The class inherited from: `Object` where none is written. -/
  parent : String
  features : List Feature
  /-- The name of the file that declares the class. -/
  file : String
  span : Span

def ClassDecl.methods (c : ClassDecl) : List Method :=
  c.features.filterMap Feature.method?

structure Program where
  classes : List ClassDecl

/-- The program without classes. -/
def Program.empty : Program :=
  ⟨[]⟩

/-- The classes of one program, then those of another. -/
def Program.append (p q : Program) : Program :=
  ⟨p.classes ++ q.classes⟩

end Cool
