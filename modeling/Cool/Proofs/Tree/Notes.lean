import Cool.Tree.Program

/-!
# The notes of a tree

The notes are what an analysis writes; all else in a tree is what was read. So two trees are
annotations of one another if they are equal once the types in their notes are taken away, and
what was written is told by the list of the notes.

* `Expr.notes`, `Expr.mapNotes` : the notes in the order of the text of the tree, and the tree with
  other notes; the same for features, classes and programs;
* `Expr.erase`, `Program.erase` : the tree without types;
* `Expr.Annotated`, `Program.Fresh` : all nodes have types, and no node has a type;
* `Expr.NonEmpty` : every block and every `case` has something in it.
-/

namespace Cool

/-- A note without its type. -/
def Note.erase (note : Note) : Note :=
  .untyped note.span

/-! ## Expressions -/

mutual

/-- The expression with other notes. -/
def Expr.mapNotes (f : Note → Note) : Expr → Expr
  | .int note value => .int (f note) value
  | .string note value => .string (f note) value
  | .bool note value => .bool (f note) value
  | .object note name => .object (f note) name
  | .assign note name value => .assign (f note) name (value.mapNotes f)
  | .selfDispatch note method args => .selfDispatch (f note) method (Expr.mapNotesAll f args)
  | .dispatch note receiver method args =>
    .dispatch (f note) (receiver.mapNotes f) method (Expr.mapNotesAll f args)
  | .staticDispatch note receiver type method args =>
    .staticDispatch (f note) (receiver.mapNotes f) type method (Expr.mapNotesAll f args)
  | .new note type => .new (f note) type
  | .cond note predicate thenBranch elseBranch =>
    .cond (f note) (predicate.mapNotes f) (thenBranch.mapNotes f) (elseBranch.mapNotes f)
  | .loop note predicate body => .loop (f note) (predicate.mapNotes f) (body.mapNotes f)
  | .block note body => .block (f note) (Expr.mapNotesAll f body)
  | .letIn note name type init body =>
    .letIn (f note) name type (Expr.mapNotesInit f init) (body.mapNotes f)
  | .typeCase note scrutinee branches =>
    .typeCase (f note) (scrutinee.mapNotes f) (Branch.mapNotesAll f branches)
  | .binary note op left right => .binary (f note) op (left.mapNotes f) (right.mapNotes f)
  | .unary note op operand => .unary (f note) op (operand.mapNotes f)
  | .isVoid note operand => .isVoid (f note) (operand.mapNotes f)

def Expr.mapNotesAll (f : Note → Note) : List Expr → List Expr
  | [] => []
  | e :: es => e.mapNotes f :: Expr.mapNotesAll f es

def Expr.mapNotesInit (f : Note → Note) : Option Expr → Option Expr
  | none => none
  | some e => some (e.mapNotes f)

def Branch.mapNotesAll (f : Note → Note) : List Branch → List Branch
  | [] => []
  | ⟨name, type, body, span⟩ :: branches =>
    ⟨name, type, body.mapNotes f, span⟩ :: Branch.mapNotesAll f branches

end

mutual

/-- The notes of all nodes, that of a node before those of its children. -/
def Expr.notes : Expr → List Note
  | .int note _ => [note]
  | .string note _ => [note]
  | .bool note _ => [note]
  | .object note _ => [note]
  | .assign note _ value => note :: value.notes
  | .selfDispatch note _ args => note :: Expr.notesAll args
  | .dispatch note receiver _ args => note :: (receiver.notes ++ Expr.notesAll args)
  | .staticDispatch note receiver _ _ args => note :: (receiver.notes ++ Expr.notesAll args)
  | .new note _ => [note]
  | .cond note predicate thenBranch elseBranch =>
    note :: (predicate.notes ++ (thenBranch.notes ++ elseBranch.notes))
  | .loop note predicate body => note :: (predicate.notes ++ body.notes)
  | .block note body => note :: Expr.notesAll body
  | .letIn note _ _ init body => note :: (Expr.notesInit init ++ body.notes)
  | .typeCase note scrutinee branches => note :: (scrutinee.notes ++ Branch.notesAll branches)
  | .binary note _ left right => note :: (left.notes ++ right.notes)
  | .unary note _ operand => note :: operand.notes
  | .isVoid note operand => note :: operand.notes

def Expr.notesAll : List Expr → List Note
  | [] => []
  | e :: es => e.notes ++ Expr.notesAll es

def Expr.notesInit : Option Expr → List Note
  | none => []
  | some e => e.notes

def Branch.notesAll : List Branch → List Note
  | [] => []
  | ⟨_, _, body, _⟩ :: branches => body.notes ++ Branch.notesAll branches

end

theorem Expr.notesAll_eq_flatMap (es : List Expr) : Expr.notesAll es = es.flatMap Expr.notes := by
  induction es with
  | nil => rfl
  | cons e es ih => rw [Expr.notesAll, ih, List.flatMap_cons]

theorem Expr.notesInit_eq_flatMap (init : Option Expr) :
    Expr.notesInit init = init.toList.flatMap Expr.notes := by
  cases init with
  | none => rfl
  | some e => exact (List.append_nil _).symm

theorem Branch.notesAll_eq_flatMap (branches : List Branch) :
    Branch.notesAll branches = branches.flatMap fun b => b.body.notes := by
  induction branches with
  | nil => rfl
  | cons b branches ih =>
    obtain ⟨name, named, body, place⟩ := b
    rw [Branch.notesAll, ih, List.flatMap_cons]

namespace Expr

/-- The expression as it was read. -/
def erase (e : Expr) : Expr :=
  e.mapNotes Note.erase

/-- All nodes have types. -/
def Annotated (e : Expr) : Prop :=
  ∀ note ∈ e.notes, note.type?.isSome

end Expr

mutual

/-- Every block and every `case` has something in it. -/
def Expr.NonEmpty : Expr → Prop
  | .int .. | .string .. | .bool .. | .object .. | .new .. => True
  | .assign _ _ value => value.NonEmpty
  | .selfDispatch _ _ args => Expr.NonEmptyAll args
  | .dispatch _ receiver _ args | .staticDispatch _ receiver _ _ args =>
    receiver.NonEmpty ∧ Expr.NonEmptyAll args
  | .cond _ predicate thenBranch elseBranch =>
    predicate.NonEmpty ∧ thenBranch.NonEmpty ∧ elseBranch.NonEmpty
  | .loop _ predicate body => predicate.NonEmpty ∧ body.NonEmpty
  | .block _ body => body ≠ [] ∧ Expr.NonEmptyAll body
  | .letIn _ _ _ init body => Expr.NonEmptyInit init ∧ body.NonEmpty
  | .typeCase _ scrutinee branches =>
    scrutinee.NonEmpty ∧ branches ≠ [] ∧ Branch.NonEmptyAll branches
  | .binary _ _ left right => left.NonEmpty ∧ right.NonEmpty
  | .unary _ _ operand | .isVoid _ operand => operand.NonEmpty

def Expr.NonEmptyAll : List Expr → Prop
  | [] => True
  | e :: es => e.NonEmpty ∧ Expr.NonEmptyAll es

def Expr.NonEmptyInit : Option Expr → Prop
  | none => True
  | some e => e.NonEmpty

def Branch.NonEmptyAll : List Branch → Prop
  | [] => True
  | ⟨_, _, body, _⟩ :: branches => body.NonEmpty ∧ Branch.NonEmptyAll branches

end

/-! ## Features, classes and programs -/

def Attribute.mapNotes (f : Note → Note) (a : Attribute) : Attribute :=
  { a with init := Expr.mapNotesInit f a.init }

def Method.mapNotes (f : Note → Note) (m : Method) : Method :=
  { m with body := m.body.mapNotes f }

def Feature.mapNotes (f : Note → Note) : Feature → Feature
  | .attr a => .attr (a.mapNotes f)
  | .method m => .method (m.mapNotes f)

def ClassDecl.mapNotes (f : Note → Note) (c : ClassDecl) : ClassDecl :=
  { c with features := c.features.map (Feature.mapNotes f) }

def Program.mapNotes (f : Note → Note) (p : Program) : Program :=
  ⟨p.classes.map (ClassDecl.mapNotes f)⟩

/-- The notes in the body of a method, or in the initial value of an attribute. -/
def Feature.notes : Feature → List Note
  | .attr a => Expr.notesInit a.init
  | .method m => m.body.notes

def ClassDecl.notes (c : ClassDecl) : List Note :=
  c.features.flatMap Feature.notes

def Program.features (p : Program) : List Feature :=
  p.classes.flatMap ClassDecl.features

/-- All nodes have types. -/
def Feature.Annotated (f : Feature) : Prop :=
  ∀ note ∈ f.notes, note.type?.isSome

/-- No node has a type. -/
def Feature.Fresh (f : Feature) : Prop :=
  ∀ note ∈ f.notes, note.type? = none

def Program.Fresh (p : Program) : Prop :=
  ∀ f ∈ p.features, f.Fresh

/-- The program as it was read. -/
def Program.erase (p : Program) : Program :=
  p.mapNotes Note.erase

end Cool
