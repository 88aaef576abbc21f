import Cool.Tree.Program

/-!
# The places in a tree

The spans that a tree keeps: those of its nodes, of the branches in it, and of what is declared.

* `Expr.places`, `Feature.places`, `ClassDecl.places` : where defects of types are reported;
* `Feature.declaredPlaces`, `ClassDecl.declaredPlaces` : where defects of declarations are reported;
* `Expr.forall_mem_placesAll_iff`, `Branch.forall_mem_placesAll_iff` : lists of parts.
-/

namespace Cool

/-! ## Expressions -/

mutual

/-- The spans of the nodes of an expression, and of the branches in it. -/
def Expr.places : Expr → List Span
  | .int note _ | .string note _ | .bool note _ | .object note _ | .new note _ => [note.span]
  | .assign note _ value => note.span :: value.places
  | .selfDispatch note _ args => note.span :: Expr.placesAll args
  | .dispatch note receiver _ args | .staticDispatch note receiver _ _ args =>
    note.span :: (receiver.places ++ Expr.placesAll args)
  | .cond note predicate thenBranch elseBranch =>
    note.span :: (predicate.places ++ (thenBranch.places ++ elseBranch.places))
  | .loop note left right | .binary note _ left right =>
    note.span :: (left.places ++ right.places)
  | .block note body => note.span :: Expr.placesAll body
  | .letIn note _ _ init body => note.span :: (Expr.placesInit init ++ body.places)
  | .typeCase note scrutinee branches =>
    note.span :: (scrutinee.places ++ Branch.placesAll branches)
  | .unary note _ operand | .isVoid note operand => note.span :: operand.places

def Expr.placesAll : List Expr → List Span
  | [] => []
  | e :: es => e.places ++ Expr.placesAll es

def Expr.placesInit : Option Expr → List Span
  | none => []
  | some e => e.places

def Branch.placesAll : List Branch → List Span
  | [] => []
  | ⟨_, _, body, span⟩ :: branches => span :: (body.places ++ Branch.placesAll branches)

end

theorem Expr.span_mem_places (e : Expr) : e.span ∈ e.places := by
  cases e <;> exact List.mem_cons_self

theorem Expr.forall_mem_placesAll_iff {P : Span → Prop} : ∀ {es : List Expr},
    (∀ span ∈ Expr.placesAll es, P span) ↔ ∀ e ∈ es, ∀ span ∈ e.places, P span
  | [] => by simp [Expr.placesAll]
  | e :: es => by
    rw [Expr.placesAll, List.forall_mem_append, Expr.forall_mem_placesAll_iff,
      List.forall_mem_cons]

theorem Branch.forall_mem_placesAll_iff {P : Span → Prop} : ∀ {branches : List Branch},
    (∀ span ∈ Branch.placesAll branches, P span) ↔
      ∀ b ∈ branches, P b.span ∧ ∀ span ∈ b.body.places, P span
  | [] => by simp [Branch.placesAll]
  | ⟨name, type, body, span⟩ :: branches => by
    rw [Branch.placesAll, List.forall_mem_cons, List.forall_mem_append,
      Branch.forall_mem_placesAll_iff, List.forall_mem_cons, and_assoc]

/-! ## Declarations -/

/-- The spans of a feature and of the expression in it. -/
def Feature.places : Feature → List Span
  | .attr a => a.span :: Expr.placesInit a.init
  | .method m => m.span :: m.body.places

def ClassDecl.places (c : ClassDecl) : List Span :=
  c.features.flatMap Feature.places

/-- The spans of a feature and of its formal parameters. -/
def Feature.declaredPlaces : Feature → List Span
  | .attr a => [a.span]
  | .method m => m.span :: m.formals.map Formal.span

/-- The spans of a class, of its features and of their formal parameters. -/
def ClassDecl.declaredPlaces (c : ClassDecl) : List Span :=
  c.span :: c.features.flatMap Feature.declaredPlaces

end Cool
