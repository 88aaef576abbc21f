import Cool.Proofs.Tree.Printed

/-!
# Trees at other places

A tree with all its spans changed by one function, as it would be read from a text that stands
somewhere else. Its notes keep their types.

* `Expr.mapSpans`, `ClassDecl.mapSpans`, `Program.mapSpans` : the tree with other spans;
* `ClassDecl.inFile`, `Program.inFile` : declarations in another file;
* `Expr.mapSpans_id`, `Program.mapSpans_id` : a tree that stays where it is;
* `Expr.unplaced_mapSpans`, `Program.unplaced_mapSpans` : nothing but places is changed.
-/

namespace Cool

/-- A note with another span. -/
def Note.mapSpan (f : Span → Span) (note : Note) : Note :=
  { note with span := f note.span }

mutual

/-- The expression with other spans. -/
@[simp]
def Expr.mapSpans (f : Span → Span) : Expr → Expr
  | .int note value => .int (note.mapSpan f) value
  | .string note value => .string (note.mapSpan f) value
  | .bool note value => .bool (note.mapSpan f) value
  | .object note name => .object (note.mapSpan f) name
  | .assign note name value => .assign (note.mapSpan f) name (value.mapSpans f)
  | .selfDispatch note method args =>
    .selfDispatch (note.mapSpan f) method (Expr.mapSpansAll f args)
  | .dispatch note receiver method args =>
    .dispatch (note.mapSpan f) (receiver.mapSpans f) method (Expr.mapSpansAll f args)
  | .staticDispatch note receiver type method args =>
    .staticDispatch (note.mapSpan f) (receiver.mapSpans f) type method (Expr.mapSpansAll f args)
  | .new note type => .new (note.mapSpan f) type
  | .cond note predicate thenBranch elseBranch =>
    .cond (note.mapSpan f) (predicate.mapSpans f) (thenBranch.mapSpans f) (elseBranch.mapSpans f)
  | .loop note predicate body => .loop (note.mapSpan f) (predicate.mapSpans f) (body.mapSpans f)
  | .block note body => .block (note.mapSpan f) (Expr.mapSpansAll f body)
  | .letIn note name type init body =>
    .letIn (note.mapSpan f) name type (Expr.mapSpansInit f init) (body.mapSpans f)
  | .typeCase note scrutinee branches =>
    .typeCase (note.mapSpan f) (scrutinee.mapSpans f) (Branch.mapSpansAll f branches)
  | .binary note op left right =>
    .binary (note.mapSpan f) op (left.mapSpans f) (right.mapSpans f)
  | .unary note op operand => .unary (note.mapSpan f) op (operand.mapSpans f)
  | .isVoid note operand => .isVoid (note.mapSpan f) (operand.mapSpans f)

def Expr.mapSpansAll (f : Span → Span) : List Expr → List Expr
  | [] => []
  | e :: es => e.mapSpans f :: Expr.mapSpansAll f es

def Expr.mapSpansInit (f : Span → Span) : Option Expr → Option Expr
  | none => none
  | some e => some (e.mapSpans f)

def Branch.mapSpansAll (f : Span → Span) : List Branch → List Branch
  | [] => []
  | ⟨name, type, body, span⟩ :: branches =>
    ⟨name, type, body.mapSpans f, f span⟩ :: Branch.mapSpansAll f branches

end

def Branch.mapSpans (f : Span → Span) (b : Branch) : Branch :=
  ⟨b.name, b.type, b.body.mapSpans f, f b.span⟩

def Formal.mapSpans (f : Span → Span) (formal : Formal) : Formal :=
  { formal with span := f formal.span }

def Feature.mapSpans (f : Span → Span) : Feature → Feature
  | .attr a => .attr { a with init := Expr.mapSpansInit f a.init, span := f a.span }
  | .method m =>
    .method { m with
      formals := m.formals.map (Formal.mapSpans f), body := m.body.mapSpans f, span := f m.span }

def ClassDecl.mapSpans (f : Span → Span) (c : ClassDecl) : ClassDecl :=
  { c with features := c.features.map (Feature.mapSpans f), span := f c.span }

/-- The program with other spans. -/
def Program.mapSpans (f : Span → Span) (p : Program) : Program :=
  ⟨p.classes.map (ClassDecl.mapSpans f)⟩

/-- The declaration in another file. -/
def ClassDecl.inFile (file : String) (c : ClassDecl) : ClassDecl :=
  { c with file }

def Program.inFile (file : String) (p : Program) : Program :=
  ⟨p.classes.map (ClassDecl.inFile file)⟩

variable (f : Span → Span)

theorem Note.mapSpan_untyped (span : Span) :
    (Note.untyped span).mapSpan f = .untyped (f span) := rfl

@[simp]
theorem Expr.span_mapSpans (e : Expr) : (e.mapSpans f).span = f e.span := by
  cases e <;> rfl

theorem Expr.mapSpansAll_eq : ∀ es, Expr.mapSpansAll f es = es.map (Expr.mapSpans f)
  | [] => rfl
  | e :: es => congrArg (e.mapSpans f :: ·) (Expr.mapSpansAll_eq es)

theorem Branch.mapSpansAll_eq : ∀ bs, Branch.mapSpansAll f bs = bs.map (Branch.mapSpans f)
  | [] => rfl
  | ⟨_, _, _, _⟩ :: bs => congrArg (_ :: ·) (Branch.mapSpansAll_eq bs)

/-! ## A tree that stays where it is -/

theorem Note.mapSpan_id (note : Note) : note.mapSpan id = note := rfl

mutual

theorem Expr.mapSpans_id : ∀ e : Expr, e.mapSpans id = e
  | .int .. | .string .. | .bool .. | .object .. | .new .. => rfl
  | .assign _ _ e | .unary _ _ e | .isVoid _ e => by
    simp only [Expr.mapSpans, Note.mapSpan_id, Expr.mapSpans_id e]
  | .selfDispatch _ _ args | .block _ args => by
    simp only [Expr.mapSpans, Note.mapSpan_id, Expr.mapSpansAll_id args]
  | .dispatch _ receiver _ args | .staticDispatch _ receiver _ _ args => by
    simp only [Expr.mapSpans, Note.mapSpan_id, Expr.mapSpans_id receiver, Expr.mapSpansAll_id args]
  | .cond _ predicate thenBranch elseBranch => by
    simp only [Expr.mapSpans, Note.mapSpan_id, Expr.mapSpans_id predicate,
      Expr.mapSpans_id thenBranch, Expr.mapSpans_id elseBranch]
  | .loop _ left right | .binary _ _ left right => by
    simp only [Expr.mapSpans, Note.mapSpan_id, Expr.mapSpans_id left, Expr.mapSpans_id right]
  | .letIn _ _ _ init body => by
    simp only [Expr.mapSpans, Note.mapSpan_id, Expr.mapSpansInit_id init, Expr.mapSpans_id body]
  | .typeCase _ scrutinee branches => by
    simp only [Expr.mapSpans, Note.mapSpan_id, Expr.mapSpans_id scrutinee,
      Branch.mapSpansAll_id branches]

theorem Expr.mapSpansAll_id : ∀ es : List Expr, Expr.mapSpansAll id es = es
  | [] => rfl
  | e :: es => by rw [Expr.mapSpansAll, Expr.mapSpans_id e, Expr.mapSpansAll_id es]

theorem Expr.mapSpansInit_id : ∀ init : Option Expr, Expr.mapSpansInit id init = init
  | none => rfl
  | some e => by rw [Expr.mapSpansInit, Expr.mapSpans_id e]

theorem Branch.mapSpansAll_id : ∀ bs : List Branch, Branch.mapSpansAll id bs = bs
  | [] => rfl
  | ⟨_, _, body, _⟩ :: bs => by
    rw [Branch.mapSpansAll, Expr.mapSpans_id body, Branch.mapSpansAll_id bs]
    rfl

end

theorem Feature.mapSpans_id (g : Feature) : g.mapSpans id = g := by
  cases g with
  | attr a => rw [mapSpans, Expr.mapSpansInit_id]; rfl
  | method m =>
    rw [mapSpans, Expr.mapSpans_id, show m.formals.map (Formal.mapSpans id) = m.formals from
      List.map_id'' (fun _ => rfl) m.formals]
    rfl

theorem ClassDecl.mapSpans_id (c : ClassDecl) : c.mapSpans id = c := by
  rw [mapSpans, List.map_id'' Feature.mapSpans_id]
  rfl

theorem Program.mapSpans_id (p : Program) : p.mapSpans id = p :=
  congrArg Program.mk (List.map_id'' ClassDecl.mapSpans_id p.classes)

/-! ## What is not changed -/

theorem Program.inFile_mapSpans (file : String) (p : Program) :
    (p.mapSpans f).inFile file = (p.inFile file).mapSpans f := by
  rw [inFile, inFile, mapSpans, mapSpans, List.map_map, List.map_map]
  rfl

theorem Note.unplaced_mapSpan (note : Note) : (note.mapSpan f).unplaced = note.unplaced := rfl

mutual

theorem Expr.unplaced_mapSpans : ∀ e : Expr, (e.mapSpans f).unplaced = e.unplaced
  | .int .. | .string .. | .bool .. | .object .. | .new .. => rfl
  | .assign _ _ e | .unary _ _ e | .isVoid _ e => by
    simp only [Expr.mapSpans, Expr.unplaced, Note.unplaced_mapSpan, Expr.unplaced_mapSpans e]
  | .selfDispatch _ _ args | .block _ args => by
    simp only [Expr.mapSpans, Expr.unplaced, Note.unplaced_mapSpan,
      Expr.unplacedAll_mapSpansAll args]
  | .dispatch _ receiver _ args | .staticDispatch _ receiver _ _ args => by
    simp only [Expr.mapSpans, Expr.unplaced, Note.unplaced_mapSpan,
      Expr.unplaced_mapSpans receiver, Expr.unplacedAll_mapSpansAll args]
  | .cond _ predicate thenBranch elseBranch => by
    simp only [Expr.mapSpans, Expr.unplaced, Note.unplaced_mapSpan,
      Expr.unplaced_mapSpans predicate, Expr.unplaced_mapSpans thenBranch,
      Expr.unplaced_mapSpans elseBranch]
  | .loop _ left right | .binary _ _ left right => by
    simp only [Expr.mapSpans, Expr.unplaced, Note.unplaced_mapSpan, Expr.unplaced_mapSpans left,
      Expr.unplaced_mapSpans right]
  | .letIn _ _ _ init body => by
    simp only [Expr.mapSpans, Expr.unplaced, Note.unplaced_mapSpan,
      Expr.unplacedInit_mapSpansInit init, Expr.unplaced_mapSpans body]
  | .typeCase _ scrutinee branches => by
    simp only [Expr.mapSpans, Expr.unplaced, Note.unplaced_mapSpan,
      Expr.unplaced_mapSpans scrutinee, Branch.unplacedAll_mapSpansAll branches]

theorem Expr.unplacedAll_mapSpansAll : ∀ es : List Expr,
    Expr.unplacedAll (Expr.mapSpansAll f es) = Expr.unplacedAll es
  | [] => rfl
  | e :: es => by
    rw [Expr.mapSpansAll, Expr.unplacedAll, Expr.unplacedAll, Expr.unplaced_mapSpans e,
      Expr.unplacedAll_mapSpansAll es]

theorem Expr.unplacedInit_mapSpansInit : ∀ init : Option Expr,
    Expr.unplacedInit (Expr.mapSpansInit f init) = Expr.unplacedInit init
  | none => rfl
  | some e => by
    rw [Expr.mapSpansInit, Expr.unplacedInit, Expr.unplacedInit, Expr.unplaced_mapSpans e]

theorem Branch.unplacedAll_mapSpansAll : ∀ bs : List Branch,
    Branch.unplacedAll (Branch.mapSpansAll f bs) = Branch.unplacedAll bs
  | [] => rfl
  | ⟨_, _, body, _⟩ :: bs => by
    rw [Branch.mapSpansAll, Branch.unplacedAll, Branch.unplacedAll, Expr.unplaced_mapSpans body,
      Branch.unplacedAll_mapSpansAll bs]

end

theorem Feature.unplaced_mapSpans (g : Feature) : (g.mapSpans f).unplaced = g.unplaced := by
  cases g with
  | attr a => rw [mapSpans, unplaced, unplaced, Expr.unplacedInit_mapSpansInit]
  | method m =>
    rw [mapSpans, unplaced, unplaced, Expr.unplaced_mapSpans, List.map_map]
    rfl

theorem ClassDecl.unplaced_mapSpans (c : ClassDecl) : (c.mapSpans f).unplaced = c.unplaced := by
  rw [mapSpans, unplaced, unplaced, List.map_map]
  exact congrArg (fun features => { c with features, span := default })
    (List.map_congr_left fun g _ => Feature.unplaced_mapSpans f g)

/-- Nothing but places is changed. -/
theorem Program.unplaced_mapSpans (p : Program) : (p.mapSpans f).unplaced = p.unplaced := by
  rw [mapSpans, unplaced, unplaced, List.map_map]
  exact congrArg Program.mk (List.map_congr_left fun c _ => ClassDecl.unplaced_mapSpans f c)

end Cool
