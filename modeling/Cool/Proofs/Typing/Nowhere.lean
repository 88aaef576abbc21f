import Cool.Check.Class
import Cool.Proofs.Signature.Nowhere

/-!
# The check and the places

The check reads places only to report them, and leaves them as they are. So an expression without
places gets the types of the expression, and the same is reported on it but for the places. There
is a lemma for each rule, and the check of expressions follows node by node.

* `Context.nowhere` : tables and file without places;
* `Context.callType_nowhere`, `Context.binaryType_nowhere`, ... : the rules for single nodes;
* `Expr.check_nowhere`, `Feature.check_nowhere` : expressions and features.
-/

namespace Cool

open Diagnosed

namespace Context

/-- The same class without places. -/
def nowhere (Γ : Context) : Context :=
  { Γ with classes := Γ.classes.nowhere, file := Builtin.file }

variable (Γ : Context) (σ : Scope) (span : Span)

/-! ## Single nodes -/

theorem require_nowhere (condition : Bool) (defect : TypingDefect) :
    Γ.nowhere.require default condition defect = (Γ.require span condition defect).nowhere id := by
  cases condition <;> rfl

theorem conforms_nowhere (sub sup : Ty) :
    Γ.nowhere.conforms default sub sup = (Γ.conforms span sub sup).nowhere id := by
  have heq : Γ.nowhere.classes.conforms Γ.nowhere.className sub sup =
      Γ.classes.conforms Γ.className sub sup :=
    Γ.classes.agreesAbout_nowhere.conforms_eq trivial sub.known_true sup.known_true
  rw [conforms, conforms, heq]
  cases Γ.classes.conforms Γ.className sub sup <;> rfl

theorem join_nowhere (a b : Ty) : Γ.nowhere.join default a b = (Γ.join span a b).nowhere id := by
  have heq : Γ.nowhere.classes.join Γ.nowhere.className a b = Γ.classes.join Γ.className a b :=
    Γ.classes.agreesAbout_nowhere.join_eq trivial a.known_true b.known_true
  rw [join, join, heq]
  cases Γ.classes.join Γ.className a b <;> rfl

theorem requireConforms_nowhere (sub sup : Ty) (defect : TypingDefect) :
    Γ.nowhere.requireConforms default sub sup defect =
      (Γ.requireConforms span sub sup defect).nowhere id :=
  bind_nowhere (Γ.conforms_nowhere span sub sup) fun answer => Γ.require_nowhere span answer defect

theorem objectType_nowhere (name : String) :
    Γ.nowhere.objectType σ default name = (Γ.objectType σ span name).nowhere id := by
  rw [objectType, objectType]
  cases σ.lookup? name <;> rfl

theorem assignType_nowhere (name : String) (value : Ty) :
    Γ.nowhere.assignType σ default name value = (Γ.assignType σ span name value).nowhere id := by
  rw [assignType, assignType]
  split_ifs
  · rfl
  cases σ.lookup? name with
  | none => rfl
  | some declared =>
    refine bind_nowhere (Γ.conforms_nowhere span value declared) fun answer => ?_
    cases answer <;> rfl

theorem checkArguments_nowhere (method : String) (args : List (Ty × FormalSig)) :
    Γ.nowhere.checkArguments default method args =
      (Γ.checkArguments span method args).nowhere id := by
  induction args with
  | nil => rfl
  | cons arg args ih => exact bind_nowhere (Γ.requireConforms_nowhere span _ _ _) fun _ => ih

theorem callType_nowhere (receiver : Ty) (start method : String) (args : List Ty) :
    Γ.nowhere.callType default receiver start method args =
      (Γ.callType span receiver start method args).nowhere id := by
  have hresolved : Γ.nowhere.classes.isResolved start = Γ.classes.isResolved start :=
    Γ.classes.isResolved_nowhere start
  have hlookup : Γ.nowhere.features.lookupMethod? Γ.nowhere.classes start method =
      Γ.features.lookupMethod? Γ.classes start method :=
    Γ.features.lookupMethod?_nowhere Γ.classes start method
  rw [callType, callType, hresolved, hlookup]
  split_ifs
  · cases Γ.features.lookupMethod? Γ.classes start method with
    | none => rfl
    | some signature =>
      dsimp only
      by_cases hlength : args.length ≠ signature.formals.length
      · rw [if_pos hlength, if_pos hlength]
        rfl
      · rw [if_neg hlength, if_neg hlength]
        exact bind_nowhere (Γ.checkArguments_nowhere span method _) fun _ => rfl
  · rfl

theorem staticCallType_nowhere (receiver : Ty) (type method : String) (args : List Ty) :
    Γ.nowhere.staticCallType default receiver type method args =
      (Γ.staticCallType span receiver type method args).nowhere id := by
  have hcontains : Γ.nowhere.classes.contains type = Γ.classes.contains type :=
    Γ.classes.contains_nowhere type
  rw [staticCallType, staticCallType, hcontains]
  split_ifs
  · rfl
  · exact bind_nowhere (Γ.requireConforms_nowhere span _ _ _) fun _ =>
      Γ.callType_nowhere span receiver type method args
  · rfl

theorem newType_nowhere (type : String) :
    Γ.nowhere.newType default type = (Γ.newType span type).nowhere id := by
  have hresolve : Γ.nowhere.classes.resolveType? type = Γ.classes.resolveType? type :=
    Γ.classes.resolveType?_nowhere type
  rw [newType, newType, hresolve]
  cases Γ.classes.resolveType? type <;> rfl

theorem letType_nowhere (name type : String) :
    Γ.nowhere.letType default name type = (Γ.letType span name type).nowhere id := by
  have hresolve : Γ.nowhere.classes.resolveType? type = Γ.classes.resolveType? type :=
    Γ.classes.resolveType?_nowhere type
  rw [letType, letType, hresolve]
  cases Γ.classes.resolveType? type <;> rfl

theorem checkLetInit_nowhere (name : String) (declared : Ty) (init : Option Ty) :
    Γ.nowhere.checkLetInit default name declared init =
      (Γ.checkLetInit span name declared init).nowhere id := by
  cases init with
  | none => rfl
  | some type =>
    rw [checkLetInit, checkLetInit]
    split_ifs
    · rfl
    · exact Γ.requireConforms_nowhere span _ _ _

theorem branchType_nowhere (name type : String) :
    Γ.nowhere.branchType default name type = (Γ.branchType span name type).nowhere id := by
  have hcontains : Γ.nowhere.classes.contains type = Γ.classes.contains type :=
    Γ.classes.contains_nowhere type
  rw [branchType, branchType, hcontains]
  split_ifs <;> rfl

theorem joinBranch_nowhere (type : Ty) (joined : Option Ty) :
    Γ.nowhere.joinBranch default type joined = (Γ.joinBranch span type joined).nowhere id := by
  cases joined with
  | none => rfl
  | some joined => exact Γ.join_nowhere span joined type

theorem binaryType_nowhere (op : BinaryOp) (left right : Ty) :
    Γ.nowhere.binaryType default op left right =
      (Γ.binaryType span op left right).nowhere id := by
  cases op
  all_goals exact bind_nowhere (Γ.require_nowhere span _ _) fun _ => rfl

theorem unaryType_nowhere (op : UnaryOp) (operand : Ty) :
    Γ.nowhere.unaryType default op operand = (Γ.unaryType span op operand).nowhere id := by
  cases op
  all_goals exact bind_nowhere (Γ.require_nowhere span _ _) fun _ => rfl

end Context

/-! ## Expressions -/

open Context

theorem Expr.span_unplaced (e : Expr) : e.unplaced.span = default := by
  cases e <;> rfl

variable (Γ : Context)

theorem Context.requireAt_nowhere (e : Expr) (condition : Bool) (defect : TypingDefect) :
    Γ.nowhere.require e.unplaced.span condition defect =
      (Γ.require e.span condition defect).nowhere id := by
  rw [e.span_unplaced]
  exact Γ.require_nowhere e.span condition defect

mutual

/-- An expression without places has the same types, and the same is reported. -/
theorem Expr.check_nowhere : ∀ (e : Expr) (σ : Scope),
    e.unplaced.check Γ.nowhere σ = (e.check Γ σ).nowhere (Prod.map Expr.unplaced id)
  | .int .., _ | .string .., _ | .bool .., _ => rfl
  | .object note name, σ => bind_nowhere (Γ.objectType_nowhere σ note.span name) fun _ => rfl
  | .assign note name value, σ => by
    refine bind_nowhere (Expr.check_nowhere value σ) fun _ => ?_
    exact bind_nowhere (Γ.assignType_nowhere σ note.span name _) fun _ => rfl
  | .selfDispatch note method args, σ => by
    refine bind_nowhere (Expr.checkAll_nowhere args σ) fun _ => ?_
    exact bind_nowhere (Γ.callType_nowhere note.span _ _ method _) fun _ => rfl
  | .dispatch note receiver method args, σ => by
    refine bind_nowhere (Expr.check_nowhere receiver σ) fun _ => ?_
    refine bind_nowhere (Expr.checkAll_nowhere args σ) fun _ => ?_
    exact bind_nowhere (Γ.callType_nowhere note.span _ _ method _) fun _ => rfl
  | .staticDispatch note receiver type method args, σ => by
    refine bind_nowhere (Expr.check_nowhere receiver σ) fun _ => ?_
    refine bind_nowhere (Expr.checkAll_nowhere args σ) fun _ => ?_
    exact bind_nowhere (Γ.staticCallType_nowhere note.span _ type method _) fun _ => rfl
  | .new note type, σ => bind_nowhere (Γ.newType_nowhere note.span type) fun _ => rfl
  | .cond note predicate thenBranch elseBranch, σ => by
    refine bind_nowhere (Expr.check_nowhere predicate σ) fun checked => ?_
    refine bind_nowhere (Γ.requireAt_nowhere checked.1 _ _) fun _ => ?_
    refine bind_nowhere (Expr.check_nowhere thenBranch σ) fun _ => ?_
    refine bind_nowhere (Expr.check_nowhere elseBranch σ) fun _ => ?_
    exact bind_nowhere (Γ.join_nowhere note.span _ _) fun _ => rfl
  | .loop note predicate body, σ => by
    refine bind_nowhere (Expr.check_nowhere predicate σ) fun checked => ?_
    refine bind_nowhere (Γ.requireAt_nowhere checked.1 _ _) fun _ => ?_
    exact bind_nowhere (Expr.check_nowhere body σ) fun _ => rfl
  | .block note body, σ => by
    exact bind_nowhere (Expr.checkAll_nowhere body σ) fun _ => rfl
  | .letIn note name type init body, σ => by
    refine bind_nowhere (Γ.require_nowhere note.span _ _) fun _ => ?_
    refine bind_nowhere (Γ.letType_nowhere note.span name type) fun _ => ?_
    refine bind_nowhere (Expr.checkInit_nowhere init σ) fun _ => ?_
    refine bind_nowhere (Γ.checkLetInit_nowhere note.span name _ _) fun _ => ?_
    exact bind_nowhere (Expr.check_nowhere body _) fun _ => rfl
  | .typeCase note scrutinee branches, σ => by
    refine bind_nowhere (Expr.check_nowhere scrutinee σ) fun _ => ?_
    exact bind_nowhere (Branch.checkAll_nowhere branches σ note.span [] none) fun _ => rfl
  | .binary note op left right, σ => by
    refine bind_nowhere (Expr.check_nowhere left σ) fun _ => ?_
    refine bind_nowhere (Expr.check_nowhere right σ) fun _ => ?_
    exact bind_nowhere (Γ.binaryType_nowhere note.span op _ _) fun _ => rfl
  | .unary note op operand, σ => by
    refine bind_nowhere (Expr.check_nowhere operand σ) fun _ => ?_
    exact bind_nowhere (Γ.unaryType_nowhere note.span op _) fun _ => rfl
  | .isVoid note operand, σ => by
    exact bind_nowhere (Expr.check_nowhere operand σ) fun _ => rfl

theorem Expr.checkAll_nowhere : ∀ (es : List Expr) (σ : Scope),
    Expr.checkAll Γ.nowhere σ (Expr.unplacedAll es) =
      (Expr.checkAll Γ σ es).nowhere (Prod.map Expr.unplacedAll id)
  | [], _ => rfl
  | e :: es, σ => by
    refine bind_nowhere (Expr.check_nowhere e σ) fun _ => ?_
    exact bind_nowhere (Expr.checkAll_nowhere es σ) fun _ => rfl

theorem Expr.checkInit_nowhere : ∀ (init : Option Expr) (σ : Scope),
    Expr.checkInit Γ.nowhere σ (Expr.unplacedInit init) =
      (Expr.checkInit Γ σ init).nowhere (Prod.map Expr.unplacedInit id)
  | none, _ => rfl
  | some e, σ => bind_nowhere (Expr.check_nowhere e σ) fun _ => rfl

theorem Branch.checkAll_nowhere : ∀ (bs : List Branch) (σ : Scope) (span : Span)
    (seen : List String) (joined : Option Ty),
      Branch.checkAll Γ.nowhere σ default seen joined (Branch.unplacedAll bs) =
        (Branch.checkAll Γ σ span seen joined bs).nowhere (Prod.map Branch.unplacedAll id)
  | [], _, _, _, _ => rfl
  | ⟨name, type, body, place⟩ :: bs, σ, span, seen, joined => by
    refine bind_nowhere (Γ.require_nowhere place _ _) fun _ => ?_
    refine bind_nowhere (Γ.branchType_nowhere place name type) fun _ => ?_
    refine bind_nowhere (Γ.require_nowhere place _ _) fun _ => ?_
    refine bind_nowhere (Expr.check_nowhere body _) fun _ => ?_
    refine bind_nowhere (Γ.joinBranch_nowhere span _ joined) fun _ => ?_
    exact bind_nowhere (Branch.checkAll_nowhere bs σ span _ _) fun _ => rfl

end

/-! ## Features -/

theorem Attribute.check_nowhere (σ : Scope) (a : Attribute) :
    a.unplaced.check Γ.nowhere σ = (a.check Γ σ).nowhere Attribute.unplaced := by
  obtain ⟨name, type, init, span⟩ := a
  cases init with
  | none => rfl
  | some e =>
    have hdeclared : Γ.nowhere.classes.resolveType? type = Γ.classes.resolveType? type :=
      Γ.classes.resolveType?_nowhere type
    show Attribute.check Γ.nowhere σ ⟨name, type, some e.unplaced, default⟩ = _
    unfold check
    dsimp only
    rw [hdeclared]
    refine bind_nowhere (Expr.check_nowhere Γ e σ) fun _ => ?_
    exact bind_nowhere (Γ.requireConforms_nowhere span _ _ _) fun _ => rfl

theorem Context.declareFormals_nowhere (fs : List Formal) (σ : Scope)
    (signatures : List FormalSig) :
    Γ.nowhere.declareFormals σ signatures (fs.map Formal.unplaced) =
      Γ.declareFormals σ signatures fs := by
  induction fs generalizing σ signatures with
  | nil => rfl
  | cons f fs ih =>
    have htype : Γ.nowhere.formalType signatures.head? f.unplaced =
        Γ.formalType signatures.head? f := by
      have hresolve : Γ.nowhere.classes.resolveType? f.unplaced.type =
        Γ.classes.resolveType? f.type := Γ.classes.resolveType?_nowhere f.type
      unfold formalType
      rw [hresolve]
    rw [List.map_cons, declareFormals, declareFormals, htype, ih]
    rfl

theorem Method.check_nowhere (σ : Scope) (again : Bool) (m : Method) :
    m.unplaced.check Γ.nowhere σ again = (m.check Γ σ again).nowhere Method.unplaced := by
  have hreturn : ∀ signature, Γ.nowhere.returnType signature m.unplaced =
      Γ.returnType signature m := by
    intro signature
    have hresolve : Γ.nowhere.classes.resolveType? m.unplaced.returnType =
      Γ.classes.resolveType? m.returnType := Γ.classes.resolveType?_nowhere m.returnType
    unfold Context.returnType
    rw [hresolve]
  have hformals : ∀ signatures, Γ.nowhere.declareFormals σ.push signatures m.unplaced.formals =
      Γ.declareFormals σ.push signatures m.formals := Γ.declareFormals_nowhere m.formals σ.push
  unfold Method.check
  dsimp only
  rw [hformals, hreturn]
  refine bind_nowhere (Expr.check_nowhere Γ m.body _) fun _ => ?_
  exact bind_nowhere (Γ.requireConforms_nowhere m.span _ _ _) fun _ => rfl

/-- A feature without places has the same types, and the same is reported. -/
theorem Feature.check_nowhere (σ : Scope) (seen : List String) (f : Feature) :
    f.unplaced.check Γ.nowhere σ seen = (f.check Γ σ seen).nowhere Feature.unplaced := by
  cases f with
  | attr a => exact bind_nowhere (Attribute.check_nowhere Γ σ a) fun _ => rfl
  | method m => exact bind_nowhere (Method.check_nowhere Γ σ _ m) fun _ => rfl

end Cool
