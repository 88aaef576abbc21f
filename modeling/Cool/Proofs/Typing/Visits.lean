import Cool.Check.Class
import Cool.Proofs.Diagnosed
import Cool.Proofs.Tree.Notes
import Mathlib.Logic.Relation
import Mathlib.Tactic.Tauto

/-!
# What a check visits

The check of an expression checks its parts, each in some scope, and then the node itself by the
types of the parts. So all that it reports is reported at single nodes, and all types that it notes
are those of single nodes.

* `Visit`, `Visit.parts` : an expression in its scope, and the parts that its check visits;
* `Visit.node` : the check of the node by itself;
* `Visit.type_eq`, `Visit.mem_reports_iff`, `Visit.mem_notes_iff` : a check by node and parts;
* `Context.Visits` : what is visited on the way;
* `Context.mem_reports_check_iff`, `Context.mem_notes_check_iff` : reports and notes, by the nodes
  that are visited;
* `Feature.root?`, `ClassDecl.Visits` : the initial values and bodies that the check of a class
  visits, and all that is visited in them.
-/

namespace Cool

open Diagnosed

/-- An expression in the scope in which it is checked. -/
structure Visit where
  scope : Scope
  expr : Expr

namespace Visit

def check (Γ : Context) (v : Visit) : Diagnosed (Expr × Ty) :=
  v.expr.check Γ v.scope

def type (Γ : Context) (v : Visit) : Ty :=
  (v.check Γ).value.2

end Visit

namespace Context

variable (Γ : Context) (σ : Scope)

/-- The body of a `let`, with its variable. -/
def letBody (span : Span) (name named : String) (body : Expr) : Visit :=
  ⟨σ.push.declare name (Γ.letType span name named).value, body⟩

/-- The body of a branch, with its variable. -/
def branchBody (b : Branch) : Visit :=
  ⟨σ.push.declare b.name (Γ.branchType b.span b.name b.type).value, b.body⟩

/-- Checks the declarations of branches whose values have the given types, and joins the types. -/
def branchesType (span : Span) (seen : List String) (joined : Option Ty) :
    List (Branch × Ty) → Diagnosed (Option Ty)
  | [] => return joined
  | (b, type) :: branches => do
    Γ.require b.span (b.name ≠ Names.self) .caseSelf
    let _ ← Γ.branchType b.span b.name b.type
    Γ.require b.span (!seen.contains b.type) (.caseDuplicate b.type)
    let joined ← Γ.joinBranch span type joined
    branchesType span (b.type :: seen) (some joined) branches

end Context

namespace Visit

/-- The parts of an expression, each in the scope in which it is checked. -/
def parts (Γ : Context) : Visit → List Visit
  | ⟨_, .int ..⟩ | ⟨_, .string ..⟩ | ⟨_, .bool ..⟩ | ⟨_, .object ..⟩ | ⟨_, .new ..⟩ => []
  | ⟨σ, .assign _ _ value⟩ => [⟨σ, value⟩]
  | ⟨σ, .selfDispatch _ _ args⟩ => args.map (Visit.mk σ)
  | ⟨σ, .dispatch _ receiver _ args⟩ | ⟨σ, .staticDispatch _ receiver _ _ args⟩ =>
    ⟨σ, receiver⟩ :: args.map (Visit.mk σ)
  | ⟨σ, .cond _ predicate thenBranch elseBranch⟩ =>
    [⟨σ, predicate⟩, ⟨σ, thenBranch⟩, ⟨σ, elseBranch⟩]
  | ⟨σ, .loop _ predicate body⟩ => [⟨σ, predicate⟩, ⟨σ, body⟩]
  | ⟨σ, .block _ body⟩ => body.map (Visit.mk σ)
  | ⟨σ, .letIn note name named init body⟩ =>
    Γ.letBody σ note.span name named body :: init.toList.map (Visit.mk σ)
  | ⟨σ, .typeCase _ scrutinee branches⟩ => ⟨σ, scrutinee⟩ :: branches.map (Γ.branchBody σ)
  | ⟨σ, .binary _ _ left right⟩ => [⟨σ, left⟩, ⟨σ, right⟩]
  | ⟨σ, .unary _ _ operand⟩ | ⟨σ, .isVoid _ operand⟩ => [⟨σ, operand⟩]

/-- The type of an expression by those of its parts, with what is reported at the node itself. -/
def node (Γ : Context) : Visit → Diagnosed Ty
  | ⟨_, .int ..⟩ => return .int
  | ⟨_, .string ..⟩ => return .string
  | ⟨_, .bool ..⟩ => return .bool
  | ⟨σ, .object note name⟩ => Γ.objectType σ note.span name
  | ⟨σ, .assign note name value⟩ => Γ.assignType σ note.span name (type Γ ⟨σ, value⟩)
  | ⟨σ, .selfDispatch note method args⟩ =>
    Γ.callType note.span .selfType Γ.className method (args.map fun e => type Γ ⟨σ, e⟩)
  | ⟨σ, .dispatch note receiver method args⟩ =>
    Γ.callType note.span (type Γ ⟨σ, receiver⟩) ((type Γ ⟨σ, receiver⟩).resolve Γ.className) method
      (args.map fun e => type Γ ⟨σ, e⟩)
  | ⟨σ, .staticDispatch note receiver named method args⟩ =>
    Γ.staticCallType note.span (type Γ ⟨σ, receiver⟩) named method
      (args.map fun e => type Γ ⟨σ, e⟩)
  | ⟨_, .new note named⟩ => Γ.newType note.span named
  | ⟨σ, .cond note predicate thenBranch elseBranch⟩ => do
    Γ.require predicate.span ((type Γ ⟨σ, predicate⟩).isClass Names.bool) .predicateNotBool
    Γ.join note.span (type Γ ⟨σ, thenBranch⟩) (type Γ ⟨σ, elseBranch⟩)
  | ⟨σ, .loop _ predicate _⟩ => do
    Γ.require predicate.span ((type Γ ⟨σ, predicate⟩).isClass Names.bool) .conditionNotBool
    return .object
  | ⟨σ, .block _ body⟩ => return (body.map fun e => type Γ ⟨σ, e⟩).getLastD .object
  | ⟨σ, .letIn note name named init body⟩ => do
    Γ.require note.span (name ≠ Names.self) .letSelf
    let declared ← Γ.letType note.span name named
    Γ.checkLetInit note.span name declared (init.map fun e => type Γ ⟨σ, e⟩)
    return type Γ (Γ.letBody σ note.span name named body)
  | ⟨σ, .typeCase note _ branches⟩ => do
    let joined ← Γ.branchesType note.span [] none
      (branches.map fun b => (b, type Γ (Γ.branchBody σ b)))
    return joined.getD .object
  | ⟨σ, .binary note op left right⟩ =>
    Γ.binaryType note.span op (type Γ ⟨σ, left⟩) (type Γ ⟨σ, right⟩)
  | ⟨σ, .unary note op operand⟩ => Γ.unaryType note.span op (type Γ ⟨σ, operand⟩)
  | ⟨_, .isVoid ..⟩ => return .bool

end Visit

variable {Γ : Context} {σ : Scope} {d : Diagnostic}

/-! ## Lists of parts -/

theorem Expr.value_checkAll (es : List Expr) : (Expr.checkAll Γ σ es).value =
    (es.map fun e => (e.check Γ σ).value.1, es.map fun e => (e.check Γ σ).value.2) := by
  induction es with
  | nil => rfl
  | cons e es ih => simp only [Expr.checkAll, value_bind, value_pure, ih, List.map_cons]

theorem Expr.reports_checkAll (es : List Expr) :
    (Expr.checkAll Γ σ es).reports = es.flatMap fun e => (e.check Γ σ).reports := by
  induction es with
  | nil => rfl
  | cons e es ih =>
    simp only [Expr.checkAll, reports_bind, reports_pure, ih, List.flatMap_cons, List.append_nil]

theorem Expr.value_checkInit (init : Option Expr) : (Expr.checkInit Γ σ init).value =
    (init.map fun e => (e.check Γ σ).value.1, init.map fun e => (e.check Γ σ).value.2) := by
  cases init <;> rfl

theorem Expr.reports_checkInit (init : Option Expr) : (Expr.checkInit Γ σ init).reports =
    init.toList.flatMap fun e => (e.check Γ σ).reports := by
  cases init with
  | none => rfl
  | some e => simp [Expr.checkInit]

theorem Branch.value_checkAll (span : Span) : ∀ (branches : List Branch) (seen : List String)
    (joined : Option Ty), (Branch.checkAll Γ σ span seen joined branches).value =
      (branches.map fun b => ⟨b.name, b.type, ((Γ.branchBody σ b).check Γ).value.1, b.span⟩,
        (Γ.branchesType span seen joined
          (branches.map fun b => (b, (Γ.branchBody σ b).type Γ))).value)
  | [], _, _ => rfl
  | ⟨name, named, body, place⟩ :: branches, seen, joined => by
    simp only [Branch.checkAll, value_bind, value_pure, Branch.value_checkAll span branches,
      List.map_cons, Context.branchesType]
    rfl

theorem Branch.mem_reports_checkAll (span : Span) : ∀ (branches : List Branch) (seen : List String)
    (joined : Option Ty), d ∈ (Branch.checkAll Γ σ span seen joined branches).reports ↔
      d ∈ (Γ.branchesType span seen joined
          (branches.map fun b => (b, (Γ.branchBody σ b).type Γ))).reports ∨
        ∃ b ∈ branches, d ∈ ((Γ.branchBody σ b).check Γ).reports
  | [], _, _ => by simp [Branch.checkAll, Context.branchesType]
  | ⟨name, named, body, place⟩ :: branches, seen, joined => by
    simp only [Branch.checkAll, reports_bind, reports_pure, List.append_nil, List.mem_append,
      Branch.mem_reports_checkAll span branches, List.map_cons, Context.branchesType,
      List.mem_cons, exists_eq_or_imp]
    simp only [Visit.check, Context.branchBody, Visit.type]
    tauto

/-! ## Node and parts -/

namespace Visit

theorem type_eq (Γ : Context) (v : Visit) : v.type Γ = (v.node Γ).value := by
  obtain ⟨σ, e⟩ := v
  cases e with
  | selfDispatch note method args =>
    show (Γ.callType note.span .selfType Γ.className method
      (Expr.checkAll Γ σ args).value.2).value = _
    rw [Expr.value_checkAll]
    rfl
  | dispatch note receiver method args =>
    show (Γ.callType note.span (type Γ ⟨σ, receiver⟩) ((type Γ ⟨σ, receiver⟩).resolve Γ.className)
      method (Expr.checkAll Γ σ args).value.2).value = _
    rw [Expr.value_checkAll]
    rfl
  | staticDispatch note receiver named method args =>
    show (Γ.staticCallType note.span (type Γ ⟨σ, receiver⟩) named method
      (Expr.checkAll Γ σ args).value.2).value = _
    rw [Expr.value_checkAll]
    rfl
  | block note body =>
    show (Expr.checkAll Γ σ body).value.2.getLastD .object = _
    rw [Expr.value_checkAll]
    rfl
  | typeCase note scrutinee branches =>
    show (Branch.checkAll Γ σ note.span [] none branches).value.2.getD .object = _
    rw [Branch.value_checkAll]
    rfl
  | _ => rfl

theorem span_check (Γ : Context) (v : Visit) : (v.check Γ).value.1.span = v.expr.span := by
  obtain ⟨σ, e⟩ := v
  cases e <;> rfl

/-- What is reported on the way to a type is reported at the node or in one of the parts. -/
theorem mem_reports_iff (Γ : Context) (v : Visit) : d ∈ (v.check Γ).reports ↔
    d ∈ (v.node Γ).reports ∨ ∃ w ∈ v.parts Γ, d ∈ (w.check Γ).reports := by
  obtain ⟨σ, e⟩ := v
  have hspan (e : Expr) : (e.check Γ σ).value.1.span = e.span := span_check Γ ⟨σ, e⟩
  cases e <;>
    simp only [check, type, Expr.check, node, parts, Context.letBody, reports_bind, reports_pure,
      Expr.reports_checkAll, Expr.value_checkAll, Expr.reports_checkInit, Expr.value_checkInit,
      Branch.mem_reports_checkAll, Branch.value_checkAll, hspan, List.append_nil, List.mem_append,
      List.mem_flatMap, List.mem_cons, List.mem_map, List.not_mem_nil, exists_eq_or_imp,
      exists_eq_left, exists_exists_and_eq_and, false_and, exists_false, or_false,
      false_or] <;>
    simp only [or_assoc, or_left_comm, or_comm]

/-- What is noted is the type of the expression, and what is noted in its parts. -/
theorem mem_notes_iff (Γ : Context) (v : Visit) {note : Note} :
    note ∈ (v.check Γ).value.1.notes ↔
      note = v.expr.note.typed (v.type Γ) ∨ ∃ w ∈ v.parts Γ, note ∈ (w.check Γ).value.1.notes := by
  obtain ⟨σ, e⟩ := v
  cases e <;>
    simp only [check, type, Expr.check, parts, Context.letBody, Context.branchBody, Expr.notes,
      Expr.note, value_bind, value_pure, Expr.value_checkAll, Expr.value_checkInit,
      Branch.value_checkAll, Expr.notesAll_eq_flatMap, Expr.notesInit_eq_flatMap,
      Branch.notesAll_eq_flatMap, List.mem_append, List.mem_flatMap, List.mem_cons, List.mem_map,
      List.not_mem_nil, Option.toList_map, exists_eq_or_imp, exists_eq_left,
      exists_exists_and_eq_and, false_and, exists_false, or_false]
  -- only the order of the parts of a `let` is left
  case letIn => simp only [or_left_comm, or_comm]

/-- A part is smaller than the whole. -/
theorem sizeOf_lt_of_mem_parts {v w : Visit} (h : w ∈ v.parts Γ) :
    sizeOf w.expr < sizeOf v.expr := by
  obtain ⟨σ, e⟩ := v
  have hlist {es : List Expr} (hw : w ∈ es.map (Visit.mk σ)) : sizeOf w.expr < sizeOf es := by
    obtain ⟨e, he, rfl⟩ := List.mem_map.mp hw
    exact List.sizeOf_lt_of_mem he
  have hbranches {branches : List Branch} (hw : w ∈ branches.map (Γ.branchBody σ)) :
      sizeOf w.expr < sizeOf branches := by
    obtain ⟨⟨name, named, body, place⟩, hb, rfl⟩ := List.mem_map.mp hw
    have := List.sizeOf_lt_of_mem hb
    simp only [Branch.mk.sizeOf_spec] at this
    simp only [Context.branchBody]
    omega
  have hinit {init : Option Expr} (hw : w ∈ init.toList.map (Visit.mk σ)) :
      sizeOf w.expr < sizeOf init := by
    cases init with
    | none => exact absurd hw List.not_mem_nil
    | some e =>
      obtain rfl := List.mem_singleton.mp hw
      simp
  cases e with
  | int | string | bool | object | new => exact absurd h List.not_mem_nil
  | assign | unary | isVoid =>
    obtain rfl := List.mem_singleton.mp h
    simp only [Expr.assign.sizeOf_spec, Expr.unary.sizeOf_spec, Expr.isVoid.sizeOf_spec]
    omega
  | selfDispatch | block =>
    have := hlist h
    simp only [Expr.selfDispatch.sizeOf_spec, Expr.block.sizeOf_spec]
    omega
  | dispatch | staticDispatch =>
    simp only [Expr.dispatch.sizeOf_spec, Expr.staticDispatch.sizeOf_spec]
    rcases List.mem_cons.mp h with rfl | h
    · dsimp only
      omega
    · have := hlist h
      omega
  | cond | loop | binary =>
    simp only [parts, List.mem_cons, List.not_mem_nil, or_false] at h
    simp only [Expr.cond.sizeOf_spec, Expr.loop.sizeOf_spec, Expr.binary.sizeOf_spec]
    rcases h with rfl | rfl | rfl <;> dsimp only <;> omega
  | letIn =>
    simp only [Expr.letIn.sizeOf_spec]
    rcases List.mem_cons.mp h with rfl | h
    · simp only [Context.letBody]
      omega
    · have := hinit h
      omega
  | typeCase =>
    simp only [Expr.typeCase.sizeOf_spec]
    rcases List.mem_cons.mp h with rfl | h
    · dsimp only
      omega
    · have := hbranches h
      omega

end Visit

/-! ## All that is visited -/

/-- On its way through the first expression, the check comes to the second. -/
def Context.Visits (Γ : Context) : Visit → Visit → Prop :=
  Relation.ReflTransGen fun v w => w ∈ v.parts Γ

namespace Context

/-- What holds of an expression if it holds of its parts holds of all. -/
theorem parts_induction (Γ : Context) {P : Visit → Prop}
    (h : ∀ v, (∀ w ∈ v.parts Γ, P w) → P v) (v : Visit) : P v :=
  h v fun w _ => parts_induction Γ h w
termination_by sizeOf v.expr
decreasing_by exact Visit.sizeOf_lt_of_mem_parts ‹_›

/-- What is visited is the expression itself, or visited in one of its parts. -/
theorem visits_iff {v w : Visit} : Γ.Visits v w ↔ v = w ∨ ∃ part ∈ v.parts Γ, Γ.Visits part w :=
  Relation.ReflTransGen.cases_head_iff

/-- All reports on an expression are reports at the nodes that are visited. -/
theorem mem_reports_check_iff (v : Visit) : d ∈ (v.check Γ).reports ↔
    ∃ w, Γ.Visits v w ∧ d ∈ (w.node Γ).reports := by
  induction v using Γ.parts_induction with
  | h v ih =>
    rw [v.mem_reports_iff]
    constructor
    · rintro (hd | ⟨part, hpart, hd⟩)
      · exact ⟨v, .refl, hd⟩
      · obtain ⟨w, hw, hd⟩ := (ih part hpart).mp hd
        exact ⟨w, .head hpart hw, hd⟩
    · rintro ⟨w, hw, hd⟩
      rcases visits_iff.mp hw with rfl | ⟨part, hpart, hw⟩
      · exact Or.inl hd
      · exact Or.inr ⟨part, hpart, (ih part hpart).mpr ⟨w, hw, hd⟩⟩

/-- The notes of a checked expression are the types of what is visited, and nothing else. -/
theorem mem_notes_check_iff (v : Visit) {note : Note} : note ∈ (v.check Γ).value.1.notes ↔
    ∃ w, Γ.Visits v w ∧ note = w.expr.note.typed (w.type Γ) := by
  induction v using Γ.parts_induction with
  | h v ih =>
    rw [v.mem_notes_iff]
    constructor
    · rintro (hnote | ⟨part, hpart, hnote⟩)
      · exact ⟨v, .refl, hnote⟩
      · obtain ⟨w, hw, hnote⟩ := (ih part hpart).mp hnote
        exact ⟨w, .head hpart hw, hnote⟩
    · rintro ⟨w, hw, hnote⟩
      rcases visits_iff.mp hw with rfl | ⟨part, hpart, hw⟩
      · exact Or.inl hnote
      · exact Or.inr ⟨part, hpart, (ih part hpart).mpr ⟨w, hw, hnote⟩⟩

end Context

/-! ## Features -/

/-- The signature that a method is checked against, unless it is declared `again`. -/
def Context.signature? (Γ : Context) (again : Bool) (m : Method) : Option MethodSig :=
  if again then none else Γ.features.ownMethod? Γ.className m.name

/-- The body of a method, with its formal parameters. -/
def Context.methodBody (Γ : Context) (σ : Scope) (again : Bool) (m : Method) : Visit :=
  ⟨Γ.declareFormals σ.push ((Γ.signature? again m).elim [] MethodSig.formals) m.formals, m.body⟩

namespace Feature

variable {seen : List String}

/-- The initial value of an attribute, if it has one, or the body of a method. -/
def root? (Γ : Context) (σ : Scope) (seen : List String) : Feature → Option Visit
  | .attr a => a.init.map (Visit.mk σ)
  | .method m => some (Γ.methodBody σ (seen.contains m.name) m)

/-- The type that the initial value or the body has to conform to. -/
def declaredType (Γ : Context) (seen : List String) : Feature → Ty
  | .attr a => (Γ.classes.resolveType? a.type).getD .object
  | .method m => Γ.returnType (Γ.signature? (seen.contains m.name) m) m

/-- The defect of an initial value or a body that has another type. -/
def mismatch (type declared : Ty) : Feature → TypingDefect
  | .attr a => .attributeMismatch type a.name declared
  | .method m => .returnMismatch type m.name declared

/-- The check of the type of an initial value or a body against the one that is declared. -/
def checkDeclared (Γ : Context) (seen : List String) (f : Feature) (type : Ty) : Diagnosed Unit :=
  Γ.requireConforms f.span type (f.declaredType Γ seen) (f.mismatch type (f.declaredType Γ seen))

theorem reports_check (Γ : Context) (σ : Scope) (seen : List String) (f : Feature) :
    (f.check Γ σ seen).reports = (f.root? Γ σ seen).elim [] fun v =>
      (v.check Γ).reports ++ (f.checkDeclared Γ seen (v.type Γ)).reports := by
  cases f with
  | attr a =>
    obtain ⟨name, type, init, span⟩ := a
    cases init with
    | none => rfl
    | some init =>
      show (_ ++ (_ ++ [])) ++ [] = _
      rw [List.append_nil, List.append_nil]
      rfl
  | method m =>
    show (_ ++ (_ ++ [])) ++ [] = _
    rw [List.append_nil, List.append_nil]
    rfl

theorem notes_check (Γ : Context) (σ : Scope) (seen : List String) (f : Feature) :
    (f.check Γ σ seen).value.notes =
      (f.root? Γ σ seen).elim [] fun v => (v.check Γ).value.1.notes := by
  cases f with
  | attr a =>
    obtain ⟨name, type, init, span⟩ := a
    cases init <;> rfl
  | method m => rfl

/-- Features, each with the names of the methods in front of it. -/
def withSeen (seen : List String) : List Feature → List (List String × Feature)
  | [] => []
  | f :: fs => (seen, f) :: withSeen (f.seenBehind seen) fs

end Feature

namespace ClassDecl

/-- The initial values and bodies of a class. -/
def roots (Γ : Context) (c : ClassDecl) : List Visit :=
  (Feature.withSeen [] c.features).filterMap fun (seen, f) =>
    f.root? Γ (.forClass Γ.classes Γ.features Γ.className) seen

/-- On its way through a class, the check comes to an expression. -/
def Visits (Γ : Context) (c : ClassDecl) (v : Visit) : Prop :=
  ∃ root ∈ c.roots Γ, Γ.Visits root v

end ClassDecl

end Cool
