import Cool.Check.Class
import Cool.Proofs.Diagnosed
import Cool.Proofs.Signature.Agree
import Cool.Proofs.Typing.Scopes

/-!
# The check with other tables

With tables that agree about the classes that are known, an expression is checked to the same
result and with the same reports, if all classes are known. If there are others, then so is every
expression that is checked without a report: it names none of them. There is a lemma for each
function that finds the type of a node, and the check of expressions follows node by node.

* `Context.under`, `Context.AgreesOn` : a place with other tables;
* `Scope.Known` : the variables of a scope have known types;
* `Expr.check_under`, `Feature.check_under` : the check of expressions and features.
-/

namespace Cool

open Diagnosed

variable {known : String → Prop}

/-! ## Scopes -/

/-- All variables of a scope have known types. -/
def Scope.Known (known : String → Prop) (σ : Scope) : Prop :=
  ∀ x τ, σ.lookup? x = some τ → τ.Known known

namespace Scope.Known

variable {σ : Scope}

theorem push (h : σ.Known known) : σ.push.Known known := by
  intro x τ hx
  rw [Scope.push, lookup?_frame] at hx
  split_ifs at hx with hself
  · cases hx
    trivial
  · exact h x τ hx

theorem declare (h : σ.Known known) (name : String) {τ : Ty} (hτ : τ.Known known) :
    (σ.declare name τ).Known known := by
  intro x υ hx
  by_cases hself : name = Names.self
  · rw [Scope.declare, if_pos hself] at hx
    exact h x υ hx
  by_cases hname : x = name
  · rw [hname, lookup?_declare σ τ hself] at hx
    cases hx
    exact hτ
  · rw [lookup?_declare_of_ne σ τ hname] at hx
    exact h x υ hx

end Scope.Known

theorem Scope.known_empty : Scope.empty.Known known := by
  intro x τ hx
  by_cases hself : x = Names.self
  · rw [Scope.lookup?, if_pos hself] at hx
    cases hx
    trivial
  · rw [Scope.lookup?, if_neg hself] at hx
    cases hx

theorem Scope.Known.foldl_declare : ∀ (attributes : List AttributeSig) {σ : Scope}, σ.Known known →
    (∀ a ∈ attributes, a.type.Known known) →
      (attributes.foldl (fun σ a => σ.declare a.name a.type) σ).Known known
  | [], _, hσ, _ => hσ
  | a :: attributes, _, hσ, h =>
    Scope.Known.foldl_declare attributes (hσ.declare a.name (h a List.mem_cons_self))
      fun b hb => h b (List.mem_cons_of_mem a hb)

/-! ## Single nodes -/

namespace Context

/-- The same place with other tables. -/
def under (Γ : Context) (t' : ClassTable) (f' : FeatureTable) : Context :=
  { Γ with classes := t', features := f' }

/-- Other tables agree with those of a place about the known classes, of which one is around it. -/
structure AgreesOn (known : String → Prop) (Γ : Context) (t' : ClassTable) (f' : FeatureTable) :
    Prop where
  classes : Γ.classes.AgreesOn known t'
  features : Γ.features.AgreesOn known f'
  enclosing : known Γ.className

variable {Γ : Context} {t' : ClassTable} {f' : FeatureTable} {σ : Scope} {span : Span}
  {name type method start : String} {τ υ receiver : Ty} {args : List Ty}

/-- One check of a place is the same as another with a known type for its value, or there are
classes that are not known and the second has something to report. -/
abbrev KeptType (known : String → Prop) : Diagnosed Ty → Diagnosed Ty → Prop :=
  Kept (∀ a, known a) (Ty.Known known)

theorem recover_ne_nil (Γ : Context) (span : Span) (defect : TypingDefect) (τ : Ty) :
    (Γ.recover span defect τ).reports ≠ [] :=
  List.cons_ne_nil _ _

theorem require_under {condition : Bool} {defect : TypingDefect} :
    Kept (∀ a, known a) (fun _ => True) ((Γ.under t' f').require span condition defect)
      (Γ.require span condition defect) :=
  kept_of_eq rfl trivial

theorem objectType_under (hσ : σ.Known known) (hobject : Ty.object.Known known) :
    KeptType known ((Γ.under t' f').objectType σ span name) (Γ.objectType σ span name) := by
  refine kept_of_eq rfl ?_
  unfold objectType
  split
  · rename_i τ hτ
    exact hσ name τ hτ
  · exact hobject

theorem not_everywhere {a : String} (h : ¬known a) : ¬∀ a, known a :=
  fun hall => h (hall a)

theorem conforms_under_of_eq
    (h : t'.conforms Γ.className τ υ = Γ.classes.conforms Γ.className τ υ) :
    (Γ.under t' f').conforms span τ υ = Γ.conforms span τ υ := by
  unfold conforms
  rw [show (Γ.under t' f').classes.conforms (Γ.under t' f').className τ υ = _ from h]
  rfl

theorem join_under_of_eq (h : t'.join Γ.className τ υ = Γ.classes.join Γ.className τ υ) :
    (Γ.under t' f').join span τ υ = Γ.join span τ υ := by
  unfold join
  rw [show (Γ.under t' f').classes.join (Γ.under t' f').className τ υ = _ from h]
  rfl

section AgreesOn

variable (hΓ : Γ.AgreesOn known t' f')
include hΓ

theorem conforms_under (hτ : τ.Known known) (hυ : υ.Known known) :
    (Γ.under t' f').conforms span τ υ = Γ.conforms span τ υ :=
  conforms_under_of_eq (hΓ.classes.about.conforms_eq hΓ.enclosing hτ hυ)

theorem requireConforms_under {defect : TypingDefect} (hτ : τ.Known known) (hυ : υ.Known known) :
    (Γ.under t' f').requireConforms span τ υ defect = Γ.requireConforms span τ υ defect := by
  unfold requireConforms
  rw [conforms_under hΓ hτ hυ]
  rfl

theorem join_under (hτ : τ.Known known) (hυ : υ.Known known) :
    KeptType known ((Γ.under t' f').join span τ υ) (Γ.join span τ υ) := by
  refine kept_of_eq (join_under_of_eq (hΓ.classes.about.join_eq hΓ.enclosing hτ hυ)) ?_
  unfold join
  split
  · rename_i ρ hjoin
    exact hΓ.classes.known_of_join hΓ.enclosing hυ hjoin
  · exact hΓ.classes.known_object

theorem joinBranch_under {joined : Option Ty} (hτ : τ.Known known)
    (hjoined : ∀ υ ∈ joined, υ.Known known) :
    KeptType known ((Γ.under t' f').joinBranch span τ joined) (Γ.joinBranch span τ joined) := by
  cases joined with
  | none => exact kept_pure hτ
  | some υ => exact join_under hΓ (hjoined υ rfl) hτ

theorem assignType_under (hσ : σ.Known known) (hτ : τ.Known known) :
    KeptType known ((Γ.under t' f').assignType σ span name τ) (Γ.assignType σ span name τ) := by
  unfold assignType
  split_ifs
  · exact kept_of_eq rfl hτ
  cases hname : σ.lookup? name with
  | none => exact kept_of_eq rfl hτ
  | some declared =>
    have hdeclared := hσ name declared hname
    refine Kept.bind (I := fun _ => True) (kept_of_eq (conforms_under hΓ hτ hdeclared) trivial)
      fun answer _ => ?_
    cases answer with
    | true => exact kept_pure hτ
    | false => exact kept_of_eq rfl hdeclared

theorem checkArguments_under : ∀ (args : List (Ty × FormalSig)),
    (∀ arg ∈ args, arg.1.Known known ∧ arg.2.type.Known known) →
      (Γ.under t' f').checkArguments span method args = Γ.checkArguments span method args
  | [], _ => rfl
  | (type, formal) :: args, h => by
    obtain ⟨⟨htype, hformal⟩, hargs⟩ := List.forall_mem_cons.mp h
    rw [checkArguments, checkArguments, requireConforms_under hΓ htype hformal,
      checkArguments_under args hargs]

theorem callType_under (hreceiver : receiver.Known known) (hstart : known start)
    (hargs : ∀ τ ∈ args, τ.Known known) :
    KeptType known ((Γ.under t' f').callType span receiver start method args)
      (Γ.callType span receiver start method args) := by
  have hresolved : t'.isResolved start = Γ.classes.isResolved start :=
    hΓ.classes.resolved start hstart
  have hlookup : f'.lookupMethod? t' start method =
      Γ.features.lookupMethod? Γ.classes start method :=
    FeatureTable.AgreesOn.lookupMethod?_eq hΓ.classes hΓ.features hstart
  unfold callType
  rw [show (Γ.under t' f').classes.isResolved start = _ from hresolved,
    show (Γ.under t' f').features.lookupMethod? (Γ.under t' f').classes start method = _ from
      hlookup]
  split_ifs
  · cases hsig : Γ.features.lookupMethod? Γ.classes start method with
    | none => exact kept_of_eq rfl hΓ.classes.known_object
    | some sig =>
      obtain ⟨hreturn, hformals⟩ :=
        FeatureTable.AgreesOn.known_of_lookupMethod? hΓ.classes hΓ.features hstart hsig
      have hresult : (if sig.returnType.isSelfType then receiver else sig.returnType).Known
          known := by
        split_ifs
        · exact hreceiver
        · exact hreturn
      dsimp only
      by_cases hlength : args.length ≠ sig.formals.length
      · rw [if_pos hlength, if_pos hlength]
        exact kept_of_eq rfl hresult
      · rw [if_neg hlength, if_neg hlength]
        have hzip : ∀ arg ∈ args.zip sig.formals,
            arg.1.Known known ∧ arg.2.type.Known known := by
          rintro ⟨type, formal⟩ harg
          have hmem := List.of_mem_zip harg
          exact ⟨hargs type hmem.1, hformals formal hmem.2⟩
        exact Kept.bind (I := fun _ => True)
          (kept_of_eq (checkArguments_under hΓ _ hzip) trivial) fun _ _ => kept_pure hresult
  · exact kept_pure hΓ.classes.known_object

theorem staticCallType_under (hreceiver : receiver.Known known)
    (hargs : ∀ τ ∈ args, τ.Known known) :
    KeptType known ((Γ.under t' f').staticCallType span receiver type method args)
      (Γ.staticCallType span receiver type method args) := by
  unfold staticCallType
  by_cases hself : type = Names.selfType
  · rw [if_pos hself, if_pos hself]
    exact kept_of_eq rfl hΓ.classes.known_object
  rw [if_neg hself, if_neg hself]
  by_cases htype : known type
  · rw [show (Γ.under t' f').classes.contains type = Γ.classes.contains type from
      hΓ.classes.contains type htype]
    split_ifs
    · exact Kept.bind (I := fun _ => True)
        (kept_of_eq (requireConforms_under hΓ hreceiver htype) trivial)
        fun _ _ => callType_under hΓ hreceiver htype hargs
    · exact kept_of_eq rfl hΓ.classes.known_object
  · rw [hΓ.classes.others type htype]
    exact kept_of_reports (not_everywhere htype) (recover_ne_nil _ _ _ _)

/-- The type that a name stands for, or a report. -/
theorem resolveType?_under {defect : TypingDefect} :
    KeptType known
      (match (Γ.under t' f').classes.resolveType? type with
        | some τ => pure τ
        | none => (Γ.under t' f').recover span defect .object)
      (match Γ.classes.resolveType? type with
        | some τ => pure τ
        | none => Γ.recover span defect .object) := by
  by_cases htype : type = Names.selfType ∨ known type
  · rw [show (Γ.under t' f').classes.resolveType? type = Γ.classes.resolveType? type from
      hΓ.classes.resolveType?_eq htype]
    cases hτ : Γ.classes.resolveType? type with
    | none => exact kept_of_eq rfl hΓ.classes.known_object
    | some τ => exact kept_pure (hΓ.classes.known_of_resolveType? hτ)
  · rw [not_or] at htype
    have hnone : Γ.classes.resolveType? type = none := by
      rw [ClassTable.resolveType?, if_neg htype.1, hΓ.classes.others type htype.2]
      rfl
    rw [hnone]
    exact kept_of_reports (not_everywhere htype.2) (recover_ne_nil _ _ _ _)

theorem newType_under : KeptType known ((Γ.under t' f').newType span type) (Γ.newType span type) :=
  resolveType?_under hΓ

theorem letType_under :
    KeptType known ((Γ.under t' f').letType span name type) (Γ.letType span name type) :=
  resolveType?_under hΓ

theorem checkLetInit_under {init : Option Ty} (hτ : τ.Known known)
    (hinit : ∀ υ ∈ init, υ.Known known) :
    Kept (∀ a, known a) (fun _ => True) ((Γ.under t' f').checkLetInit span name τ init)
      (Γ.checkLetInit span name τ init) := by
  cases init with
  | none => exact kept_pure trivial
  | some υ =>
    unfold checkLetInit
    split_ifs
    · exact kept_pure trivial
    · exact kept_of_eq (requireConforms_under hΓ (hinit υ rfl) hτ) trivial

theorem branchType_under :
    KeptType known ((Γ.under t' f').branchType span name type) (Γ.branchType span name type) := by
  unfold branchType
  by_cases hself : type = Names.selfType
  · rw [if_pos hself, if_pos hself]
    exact kept_of_eq rfl hΓ.classes.known_object
  rw [if_neg hself, if_neg hself]
  by_cases htype : known type
  · rw [show (Γ.under t' f').classes.contains type = Γ.classes.contains type from
      hΓ.classes.contains type htype]
    split_ifs
    · exact kept_pure htype
    · exact kept_of_eq rfl hΓ.classes.known_object
  · rw [hΓ.classes.others type htype]
    exact kept_of_reports (not_everywhere htype) (recover_ne_nil _ _ _ _)

theorem binaryType_under {op : BinaryOp} :
    KeptType known ((Γ.under t' f').binaryType span op τ υ) (Γ.binaryType span op τ υ) := by
  have hint : Ty.int.Known known := hΓ.classes.basic Names.int (by decide)
  have hbool : Ty.bool.Known known := hΓ.classes.basic Names.bool (by decide)
  refine kept_of_eq rfl ?_
  cases op
  all_goals first | exact hbool | exact hint

theorem unaryType_under {op : UnaryOp} :
    KeptType known ((Γ.under t' f').unaryType span op τ) (Γ.unaryType span op τ) := by
  have hint : Ty.int.Known known := hΓ.classes.basic Names.int (by decide)
  have hbool : Ty.bool.Known known := hΓ.classes.basic Names.bool (by decide)
  refine kept_of_eq rfl ?_
  cases op with
  | negate => exact hint
  | not => exact hbool

end AgreesOn

end Context

/-! ## Expressions -/

open Context

variable {Γ : Context} {t' : ClassTable} {f' : FeatureTable}

mutual

/-- An expression is checked in the same way with tables that agree. -/
theorem Expr.check_under (hΓ : Γ.AgreesOn known t' f') : ∀ (e : Expr) {σ : Scope}, σ.Known known →
    Kept (∀ a, known a) (fun x => x.2.Known known) (e.check (Γ.under t' f') σ) (e.check Γ σ)
  | .int .., _, _ => kept_pure (hΓ.classes.basic Names.int (by decide))
  | .string .., _, _ => kept_pure (hΓ.classes.basic Names.string (by decide))
  | .bool .., _, _ => kept_pure (hΓ.classes.basic Names.bool (by decide))
  | .object .., _, hσ =>
    (objectType_under hσ hΓ.classes.known_object).bind fun _ hτ => kept_pure hτ
  | .assign _ _ value, _, hσ => by
    refine (Expr.check_under hΓ value hσ).bind fun _ hυ => ?_
    exact (assignType_under hΓ hσ hυ).bind fun _ hτ => kept_pure hτ
  | .selfDispatch _ _ args, _, hσ => by
    refine (Expr.checkAll_under hΓ args hσ).bind fun _ hargs => ?_
    have hself : Ty.selfType.Known known := trivial
    exact (callType_under hΓ hself hΓ.enclosing hargs).bind fun _ hτ => kept_pure hτ
  | .dispatch _ receiver _ args, _, hσ => by
    refine (Expr.check_under hΓ receiver hσ).bind fun _ hρ => ?_
    refine (Expr.checkAll_under hΓ args hσ).bind fun _ hargs => ?_
    exact (callType_under hΓ hρ (hρ.resolve hΓ.enclosing) hargs).bind fun _ hτ => kept_pure hτ
  | .staticDispatch _ receiver _ _ args, _, hσ => by
    refine (Expr.check_under hΓ receiver hσ).bind fun _ hρ => ?_
    refine (Expr.checkAll_under hΓ args hσ).bind fun _ hargs => ?_
    exact (staticCallType_under hΓ hρ hargs).bind fun _ hτ => kept_pure hτ
  | .new .., _, _ => (newType_under hΓ).bind fun _ hτ => kept_pure hτ
  | .cond _ predicate thenBranch elseBranch, _, hσ => by
    refine (Expr.check_under hΓ predicate hσ).bind fun _ _ => ?_
    refine require_under.bind fun _ _ => ?_
    refine (Expr.check_under hΓ thenBranch hσ).bind fun _ hτ => ?_
    refine (Expr.check_under hΓ elseBranch hσ).bind fun _ hυ => ?_
    exact (join_under hΓ hτ hυ).bind fun _ hρ => kept_pure hρ
  | .loop _ predicate body, _, hσ => by
    refine (Expr.check_under hΓ predicate hσ).bind fun _ _ => ?_
    refine require_under.bind fun _ _ => ?_
    exact (Expr.check_under hΓ body hσ).bind fun _ _ => kept_pure hΓ.classes.known_object
  | .block _ body, _, hσ => by
    refine (Expr.checkAll_under hΓ body hσ).bind fun ⟨_, types⟩ htypes => kept_pure ?_
    rw [List.getLastD_eq_getLast?]
    cases hlast : types.getLast? with
    | none => exact hΓ.classes.known_object
    | some τ => exact htypes τ (List.mem_of_getLast? hlast)
  | .letIn _ name _ init body, _, hσ => by
    refine require_under.bind fun _ _ => ?_
    refine (letType_under hΓ).bind fun declared hdeclared => ?_
    refine (Expr.checkInit_under hΓ init hσ).bind fun _ hinit => ?_
    refine (checkLetInit_under hΓ hdeclared hinit).bind fun _ _ => ?_
    exact (Expr.check_under hΓ body (hσ.push.declare name hdeclared)).bind fun _ hτ => kept_pure hτ
  | .typeCase _ scrutinee branches, _, hσ => by
    refine (Expr.check_under hΓ scrutinee hσ).bind fun _ _ => ?_
    have hnone : ∀ τ ∈ (none : Option Ty), τ.Known known := nofun
    refine (Branch.checkAll_under hΓ branches hσ hnone).bind fun ⟨_, joined⟩ hjoined => kept_pure ?_
    cases joined with
    | none => exact hΓ.classes.known_object
    | some τ => exact hjoined τ rfl
  | .binary _ _ left right, _, hσ => by
    refine (Expr.check_under hΓ left hσ).bind fun _ _ => ?_
    refine (Expr.check_under hΓ right hσ).bind fun _ _ => ?_
    exact (binaryType_under hΓ).bind fun _ hτ => kept_pure hτ
  | .unary _ _ operand, _, hσ => by
    refine (Expr.check_under hΓ operand hσ).bind fun _ _ => ?_
    exact (unaryType_under hΓ).bind fun _ hτ => kept_pure hτ
  | .isVoid _ operand, _, hσ =>
    (Expr.check_under hΓ operand hσ).bind fun _ _ =>
      kept_pure (hΓ.classes.basic Names.bool (by decide))

theorem Expr.checkAll_under (hΓ : Γ.AgreesOn known t' f') : ∀ (es : List Expr) {σ : Scope},
    σ.Known known → Kept (∀ a, known a) (fun x => ∀ τ ∈ x.2, τ.Known known)
      (Expr.checkAll (Γ.under t' f') σ es) (Expr.checkAll Γ σ es)
  | [], _, _ => kept_pure (List.forall_mem_nil _)
  | e :: es, _, hσ => by
    refine (Expr.check_under hΓ e hσ).bind fun _ hτ => ?_
    refine (Expr.checkAll_under hΓ es hσ).bind fun _ htypes => ?_
    exact kept_pure (List.forall_mem_cons.mpr ⟨hτ, htypes⟩)

theorem Expr.checkInit_under (hΓ : Γ.AgreesOn known t' f') : ∀ (init : Option Expr) {σ : Scope},
    σ.Known known → Kept (∀ a, known a) (fun x => ∀ τ ∈ x.2, τ.Known known)
      (Expr.checkInit (Γ.under t' f') σ init) (Expr.checkInit Γ σ init)
  | none, _, _ => kept_pure nofun
  | some e, _, hσ => by
    refine (Expr.check_under hΓ e hσ).bind fun _ hτ => kept_pure ?_
    rintro _ ⟨⟩
    exact hτ

theorem Branch.checkAll_under (hΓ : Γ.AgreesOn known t' f') : ∀ (branches : List Branch)
    {σ : Scope} {span : Span} {seen : List String} {joined : Option Ty}, σ.Known known →
      (∀ τ ∈ joined, τ.Known known) → Kept (∀ a, known a) (fun x => ∀ τ ∈ x.2, τ.Known known)
        (Branch.checkAll (Γ.under t' f') σ span seen joined branches)
        (Branch.checkAll Γ σ span seen joined branches)
  | [], _, _, _, _, _, hjoined => kept_pure hjoined
  | ⟨name, _, body, _⟩ :: branches, _, _, _, _, hσ, hjoined => by
    refine require_under.bind fun _ _ => ?_
    refine (branchType_under hΓ).bind fun declared hdeclared => ?_
    refine require_under.bind fun _ _ => ?_
    refine (Expr.check_under hΓ body (hσ.push.declare name hdeclared)).bind fun _ hτ => ?_
    refine (joinBranch_under hΓ hτ hjoined).bind fun υ hυ => ?_
    refine (Branch.checkAll_under hΓ branches hσ fun τ hτ => ?_).bind fun _ hall => kept_pure hall
    cases hτ
    exact hυ

end

/-! ## Features -/

section Features

variable {σ : Scope} (hΓ : Γ.AgreesOn known t' f')
include hΓ

theorem Context.AgreesOn.known_getD {name : String} :
    ((Γ.classes.resolveType? name).getD .object).Known known := by
  cases hτ : Γ.classes.resolveType? name with
  | none => exact hΓ.classes.known_object
  | some τ => exact hΓ.classes.known_of_resolveType? hτ

theorem Attribute.check_under (hσ : σ.Known known) {a : Attribute}
    (ha : a.type = Names.selfType ∨ known a.type) :
    Kept (∀ a, known a) (fun _ => True) (a.check (Γ.under t' f') σ) (a.check Γ σ) := by
  have htype : t'.resolveType? a.type = Γ.classes.resolveType? a.type :=
    hΓ.classes.resolveType?_eq ha
  unfold Attribute.check
  cases a.init with
  | none => exact kept_pure trivial
  | some init =>
    dsimp only
    rw [show (Γ.under t' f').classes.resolveType? a.type = _ from htype]
    refine (Expr.check_under hΓ init hσ).bind fun _ hτ => ?_
    refine Kept.bind (I := fun _ => True)
      (kept_of_eq (requireConforms_under hΓ hτ hΓ.known_getD) trivial) fun _ _ => ?_
    exact kept_pure trivial

theorem Context.formalType_under {signature : Option FormalSig} {f : Formal}
    (hsignature : ∀ sig ∈ signature, sig.type.Known known)
    (hf : f.type = Names.selfType ∨ known f.type) :
    (Γ.under t' f').formalType signature f = Γ.formalType signature f ∧
      (Γ.formalType signature f).Known known := by
  cases signature with
  | some sig => exact ⟨rfl, hsignature sig rfl⟩
  | none =>
    have htype : t'.resolveType? f.type = Γ.classes.resolveType? f.type :=
      hΓ.classes.resolveType?_eq hf
    unfold formalType
    dsimp only
    rw [show (Γ.under t' f').classes.resolveType? f.type = _ from htype]
    refine ⟨rfl, ?_⟩
    split
    · rename_i c hc
      exact hΓ.classes.known_of_resolveType? hc
    · exact hΓ.classes.known_object

theorem Context.declareFormals_under : ∀ (signatures : List FormalSig) (fs : List Formal)
    {σ : Scope}, σ.Known known → (∀ sig ∈ signatures, sig.type.Known known) →
      (∀ f ∈ fs, f.type = Names.selfType ∨ known f.type) →
        (Γ.under t' f').declareFormals σ signatures fs = Γ.declareFormals σ signatures fs ∧
          (Γ.declareFormals σ signatures fs).Known known
  | _, [], _, hσ, _, _ => ⟨rfl, hσ⟩
  | signatures, f :: fs, σ, hσ, hsignatures, hfs => by
    obtain ⟨hf, hfs⟩ := List.forall_mem_cons.mp hfs
    have hhead : ∀ sig ∈ signatures.head?, sig.type.Known known :=
      fun sig hsig => hsignatures sig (List.mem_of_head? hsig)
    obtain ⟨heq, htype⟩ := Context.formalType_under hΓ hhead hf
    have htail : ∀ sig ∈ signatures.tail, sig.type.Known known :=
      fun sig hsig => hsignatures sig (List.mem_of_mem_tail hsig)
    unfold declareFormals
    dsimp only
    rw [heq]
    split_ifs
    · exact Context.declareFormals_under signatures.tail fs hσ htail hfs
    · exact Context.declareFormals_under signatures.tail fs (hσ.declare f.name htype) htail hfs

theorem Context.returnType_under {signature : Option MethodSig} {m : Method}
    (hsignature : ∀ sig ∈ signature, sig.returnType.Known known)
    (hm : m.returnType = Names.selfType ∨ known m.returnType) :
    (Γ.under t' f').returnType signature m = Γ.returnType signature m ∧
      (Γ.returnType signature m).Known known := by
  cases signature with
  | some sig => exact ⟨rfl, hsignature sig rfl⟩
  | none =>
    have htype : t'.resolveType? m.returnType = Γ.classes.resolveType? m.returnType :=
      hΓ.classes.resolveType?_eq hm
    exact ⟨congrArg (Option.getD · Ty.object) htype, hΓ.known_getD⟩

theorem Method.check_under (hσ : σ.Known known) {again : Bool} {m : Method}
    (hm : Feature.Known known (.method m)) : Kept (∀ a, known a) (fun _ => True)
      (m.check (Γ.under t' f') σ again) (m.check Γ σ again) := by
  obtain ⟨hformals, hreturn⟩ := hm
  have hown : f'.ownMethod? Γ.className m.name = Γ.features.ownMethod? Γ.className m.name :=
    hΓ.features.ownMethod?_eq hΓ.enclosing
  unfold Method.check
  rw [show (Γ.under t' f').features.ownMethod? (Γ.under t' f').className m.name = _ from hown]
  have hsignature : ∀ sig ∈ (if again then none else Γ.features.ownMethod? Γ.className m.name),
      sig.returnType.Known known ∧ ∀ f ∈ sig.formals, f.type.Known known := by
    intro sig hsig
    split_ifs at hsig
    · cases hsig
    · exact hΓ.features.known_of_ownMethod? hΓ.enclosing hsig
  generalize (if again then none else Γ.features.ownMethod? Γ.className m.name) = signature at *
  have hsigs : ∀ sig ∈ signature.elim [] MethodSig.formals, sig.type.Known known := by
    cases signature with
    | none => exact List.forall_mem_nil _
    | some sig => exact (hsignature sig rfl).2
  obtain ⟨hscope, hknown⟩ := Context.declareFormals_under hΓ _ m.formals hσ.push hsigs hformals
  obtain ⟨hdeclared, hknown'⟩ :=
    Context.returnType_under hΓ (fun sig hsig => (hsignature sig hsig).1) hreturn
  dsimp only
  rw [hscope, hdeclared]
  refine (Expr.check_under hΓ m.body hknown).bind fun _ hτ => ?_
  refine Kept.bind (I := fun _ => True)
    (kept_of_eq (requireConforms_under hΓ hτ hknown') trivial) fun _ _ => ?_
  exact kept_pure trivial

/-- A feature with known types is checked in the same way with tables that agree. -/
theorem Feature.check_under (hσ : σ.Known known) {seen : List String} : ∀ {f : Feature},
    f.Known known → Kept (∀ a, known a) (fun _ => True) (f.check (Γ.under t' f') σ seen)
      (f.check Γ σ seen)
  | .attr _, hf => (Attribute.check_under hΓ hσ hf).bind fun _ _ => kept_pure trivial
  | .method _, hf => (Method.check_under hΓ hσ hf).bind fun _ _ => kept_pure trivial

end Features

end Cool
