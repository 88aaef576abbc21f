import Cool.Proofs.Hierarchy.Order
import Cool.Proofs.Signature.Known
import Cool.Proofs.Typing.Agree
import Cool.Proofs.Typing.Queries

/-!
# Types that are always classes of the table

If the tables of a place name classes of the table only, then so does everything that a check there
gets hold of, whatever is wrong with what it checks: the types in scopes, those it notes, and those
it asks about. So all its questions have answers.

* `Context.Closed` : tables that name no other classes, and a class of them around;
* `Context.Closed.answered_conforms`, `Context.Closed.exists_join` : questions about known types;
* `Context.Closed.known_node`, `Context.Closed.known_type` : the types that a check finds;
* `Context.Closed.known_visits`, `Context.Closed.answered_queries` : what is visited, and what is
  asked there;
* `Context.Closed.known_root?`, `Context.Closed.known_declaredType` : features.
-/

namespace Cool

open Diagnosed

namespace ClassTable

theorem has_of_mem_ancestors {t : ClassTable} {a : String} {info : ClassInfo}
    (h : info ∈ t.ancestors a) : t.Has info.name := by
  have hchain : ∀ (n : Nat) (a : String), info ∈ t.chain n a → t.Has info.name := by
    intro n
    induction n with
    | zero => exact fun _ h => absurd h List.not_mem_nil
    | succ n ih =>
      intro a h
      rw [chain] at h
      cases hfind : t.find? a with
      | none =>
        rw [hfind] at h
        exact absurd h List.not_mem_nil
      | some c =>
        have hc : t.Has c.name := by
          rw [name_of_find? hfind]
          exact contains_of_find? hfind
        rw [hfind] at h
        dsimp only at h
        split at h
        · rwa [List.mem_singleton.mp h]
        · rcases List.mem_cons.mp h with rfl | h
          · exact hc
          · exact ih _ h
  exact hchain _ a h

end ClassTable

theorem Ty.known_none {known : String → Prop} : ∀ υ ∈ (none : Option Ty), υ.Known known :=
  fun υ hυ => absurd hυ (Option.not_mem_none υ)

namespace Context

/-- The tables of a place name classes of the class table only, and so does the place. -/
structure Closed (Γ : Context) : Prop where
  basic : ∀ a ∈ Names.basic, Γ.classes.Has a
  features : Γ.features.Known Γ.classes.Has
  enclosing : Γ.classes.Has Γ.className

namespace Closed

variable {Γ : Context} {σ : Scope} {span : Span} {name type method start : String}
  {τ υ receiver : Ty} {args : List Ty}

section Rules

variable (hΓ : Γ.Closed)
include hΓ

theorem object : Ty.object.Known Γ.classes.Has :=
  hΓ.basic Names.object (by decide)

theorem int : Ty.int.Known Γ.classes.Has :=
  hΓ.basic Names.int (by decide)

theorem bool : Ty.bool.Known Γ.classes.Has :=
  hΓ.basic Names.bool (by decide)

theorem string : Ty.string.Known Γ.classes.Has :=
  hΓ.basic Names.string (by decide)

/-! ## Questions -/

theorem answered_conforms (hτ : τ.Known Γ.classes.Has) (hυ : υ.Known Γ.classes.Has) :
    (Query.conforms τ υ).Answered Γ := by
  unfold Query.Answered
  cases υ with
  | named b =>
    have hresolve := hτ.resolve hΓ.enclosing
    exact ⟨_, ClassTable.conforms_of_contains hresolve hυ⟩
  | selfType =>
    cases τ with
    | selfType => exact ⟨true, rfl⟩
    | named a =>
      refine ⟨false, ?_⟩
      simp only [ClassTable.conforms, ClassTable.known_eq_ok (a := a) hτ]
      rfl

theorem exists_join (hτ : τ.Known Γ.classes.Has) (hυ : υ.Known Γ.classes.Has) :
    ∃ type, Γ.classes.join Γ.className τ υ = .ok type ∧ type.Known Γ.classes.Has := by
  cases hself : τ.isSelfType && υ.isSelfType with
  | true =>
    rw [ClassTable.join, hself]
    exact ⟨.selfType, rfl, trivial⟩
  | false =>
    have hjoin := ClassTable.join_of_contains hself (hτ.resolve hΓ.enclosing)
      (hυ.resolve hΓ.enclosing)
    refine ⟨_, hjoin, ?_⟩
    split_ifs
    · cases hmeeting : ClassTable.meeting? (Γ.classes.ancestors (τ.resolve Γ.className))
          (Γ.classes.ancestors (υ.resolve Γ.className)) with
      | none => exact hΓ.object
      | some a =>
        obtain ⟨info, hinfo, rfl⟩ := Option.map_eq_some_iff.mp hmeeting
        exact ClassTable.has_of_mem_ancestors (List.mem_of_find?_eq_some hinfo)
    · exact hΓ.object

theorem answered_join (hτ : τ.Known Γ.classes.Has) (hυ : υ.Known Γ.classes.Has) :
    (Query.join τ υ).Answered Γ := by
  obtain ⟨type, htype, -⟩ := hΓ.exists_join hτ hυ
  exact ⟨type, htype⟩

/-! ## The types that rules find -/

theorem known_objectType (hσ : σ.Known Γ.classes.Has) :
    (Γ.objectType σ span name).value.Known Γ.classes.Has := by
  unfold objectType
  split
  · rename_i hlookup
    exact hσ name _ hlookup
  · exact hΓ.object

omit hΓ in
theorem known_assignType (hσ : σ.Known Γ.classes.Has) (hτ : τ.Known Γ.classes.Has) :
    (Γ.assignType σ span name τ).value.Known Γ.classes.Has := by
  unfold assignType
  split_ifs
  · exact hτ
  split
  · exact hτ
  · rename_i declared hdeclared
    rw [value_bind]
    split
    · exact hτ
    · exact hσ name declared hdeclared

theorem known_callType (hreceiver : receiver.Known Γ.classes.Has) :
    (Γ.callType span receiver start method args).value.Known Γ.classes.Has := by
  unfold callType
  split_ifs
  · split
    · exact hΓ.object
    · rename_i signature hsignature
      have hresult : (if signature.returnType.isSelfType then receiver
          else signature.returnType).Known Γ.classes.Has := by
        split_ifs
        · exact hreceiver
        · exact (hΓ.features.of_lookupMethod? hsignature).1
      dsimp only
      by_cases harity : args.length = signature.formals.length
      · rw [if_neg (not_not.mpr harity)]
        exact hresult
      · rw [if_pos harity]
        exact hresult
  · exact hΓ.object

theorem known_staticCallType (hreceiver : receiver.Known Γ.classes.Has) :
    (Γ.staticCallType span receiver type method args).value.Known Γ.classes.Has := by
  unfold staticCallType
  split_ifs
  · exact hΓ.object
  · exact hΓ.known_callType hreceiver
  · exact hΓ.object

theorem known_newType : (Γ.newType span type).value.Known Γ.classes.Has := by
  unfold newType
  split
  · rename_i htype
    exact ClassTable.known_of_resolveType? htype
  · exact hΓ.object

theorem known_letType : (Γ.letType span name type).value.Known Γ.classes.Has := by
  unfold letType
  split
  · rename_i htype
    exact ClassTable.known_of_resolveType? htype
  · exact hΓ.object

theorem known_branchType : (Γ.branchType span name type).value.Known Γ.classes.Has := by
  unfold branchType
  split_ifs with hself hcontains
  · exact hΓ.object
  · exact hcontains
  · exact hΓ.object

theorem known_join (hτ : τ.Known Γ.classes.Has) (hυ : υ.Known Γ.classes.Has) :
    (Γ.join span τ υ).value.Known Γ.classes.Has := by
  obtain ⟨type, htype, hknown⟩ := hΓ.exists_join hτ hυ
  rw [join, htype]
  exact hknown

theorem known_joinBranch {joined : Option Ty} (hjoined : ∀ υ ∈ joined, υ.Known Γ.classes.Has)
    (hτ : τ.Known Γ.classes.Has) : (Γ.joinBranch span τ joined).value.Known Γ.classes.Has := by
  cases joined with
  | none => exact hτ
  | some υ => exact hΓ.known_join (hjoined υ rfl) hτ

theorem known_branchesType : ∀ (branches : List (Branch × Ty)) {seen : List String}
    {joined : Option Ty}, (∀ υ ∈ joined, υ.Known Γ.classes.Has) →
      (∀ b ∈ branches, b.2.Known Γ.classes.Has) →
        ∀ υ ∈ (Γ.branchesType span seen joined branches).value, υ.Known Γ.classes.Has
  | [], _, _, hjoined, _ => hjoined
  | (b, τ) :: branches, seen, joined, hjoined, hbranches => by
    obtain ⟨hτ, hbranches⟩ := List.forall_mem_cons.mp hbranches
    refine known_branchesType branches (fun υ hυ => ?_) hbranches
    exact Option.mem_some_iff.mp hυ ▸ hΓ.known_joinBranch hjoined hτ

theorem known_binaryType {op : BinaryOp} :
    (Γ.binaryType span op τ υ).value.Known Γ.classes.Has := by
  cases op with
  | add | sub | mul | div => exact hΓ.int
  | lt | le | eq => exact hΓ.bool

theorem known_unaryType {op : UnaryOp} : (Γ.unaryType span op τ).value.Known Γ.classes.Has := by
  cases op with
  | negate => exact hΓ.int
  | not => exact hΓ.bool

/-! ## Visits -/

/-- The parts of an expression are visited in scopes with known types. -/
theorem known_parts {v w : Visit} (hv : v.scope.Known Γ.classes.Has) (hw : w ∈ v.parts Γ) :
    w.scope.Known Γ.classes.Has := by
  obtain ⟨σ, e⟩ := v
  have hlist {es : List Expr} (hw : w ∈ es.map (Visit.mk σ)) : w.scope.Known Γ.classes.Has := by
    obtain ⟨e, -, rfl⟩ := List.mem_map.mp hw
    exact hv
  cases e with
  | int | string | bool | object | new => exact absurd hw List.not_mem_nil
  | assign | unary | isVoid =>
    obtain rfl := List.mem_singleton.mp hw
    exact hv
  | selfDispatch | block => exact hlist hw
  | dispatch | staticDispatch =>
    rcases List.mem_cons.mp hw with rfl | hw
    · exact hv
    · exact hlist hw
  | cond | loop | binary =>
    simp only [Visit.parts, List.mem_cons, List.not_mem_nil, or_false] at hw
    rcases hw with rfl | rfl | rfl <;> exact hv
  | letIn =>
    rcases List.mem_cons.mp hw with rfl | hw
    · exact hv.push.declare _ hΓ.known_letType
    · exact hlist hw
  | typeCase =>
    rcases List.mem_cons.mp hw with rfl | hw
    · exact hv
    · obtain ⟨b, -, rfl⟩ := List.mem_map.mp hw
      exact hv.push.declare _ hΓ.known_branchType

/-- All that is visited is visited in a scope with known types. -/
theorem known_visits {v w : Visit} (hv : v.scope.Known Γ.classes.Has) (h : Γ.Visits v w) :
    w.scope.Known Γ.classes.Has := by
  induction h with
  | refl => exact hv
  | tail _ hpart ih => exact hΓ.known_parts ih hpart

/-- The rule of a node gives a known type, if the parts have known types. -/
theorem known_node {v : Visit} (hv : v.scope.Known Γ.classes.Has)
    (hparts : ∀ w ∈ v.parts Γ, (w.type Γ).Known Γ.classes.Has) :
    (v.node Γ).value.Known Γ.classes.Has := by
  obtain ⟨σ, e⟩ := v
  cases e with
  | int => exact hΓ.int
  | string => exact hΓ.string
  | bool | isVoid => exact hΓ.bool
  | object => exact hΓ.known_objectType hv
  | assign => exact known_assignType hv (hparts _ List.mem_cons_self)
  | selfDispatch =>
    have hself : Ty.selfType.Known Γ.classes.Has := trivial
    exact hΓ.known_callType hself
  | dispatch => exact hΓ.known_callType (hparts _ List.mem_cons_self)
  | staticDispatch => exact hΓ.known_staticCallType (hparts _ List.mem_cons_self)
  | new => exact hΓ.known_newType
  | cond note predicate thenBranch elseBranch =>
    have hthen := hparts ⟨σ, thenBranch⟩ (by simp [Visit.parts])
    have helse := hparts ⟨σ, elseBranch⟩ (by simp [Visit.parts])
    exact hΓ.known_join hthen helse
  | loop => exact hΓ.object
  | block note body =>
    show ((body.map fun e => Visit.type Γ ⟨σ, e⟩).getLastD .object).Known Γ.classes.Has
    rw [List.getLastD_eq_getLast?]
    cases hlast : (body.map fun e => Visit.type Γ ⟨σ, e⟩).getLast? with
    | none => exact hΓ.object
    | some τ =>
      obtain ⟨e, he, rfl⟩ := List.mem_map.mp (List.mem_of_getLast? hlast)
      exact hparts ⟨σ, e⟩ (List.mem_map_of_mem he)
  | letIn => exact hparts _ List.mem_cons_self
  | typeCase note scrutinee branches =>
    have hbodies : ∀ b ∈ branches.map fun b => (b, Visit.type Γ (Γ.branchBody σ b)),
        b.2.Known Γ.classes.Has :=
      List.forall_mem_map.mpr fun b hb =>
        hparts _ (List.mem_cons_of_mem _ (List.mem_map_of_mem hb))
    show ((Γ.branchesType note.span [] none _).value.getD .object).Known Γ.classes.Has
    cases hvalue : (Γ.branchesType note.span [] none
        (branches.map fun b => (b, Visit.type Γ (Γ.branchBody σ b)))).value with
    | none => exact hΓ.object
    | some τ => exact hΓ.known_branchesType _ Ty.known_none hbodies τ hvalue
  | binary => exact hΓ.known_binaryType
  | unary => exact hΓ.known_unaryType

/-- Every expression gets a known type. -/
theorem known_type {v : Visit} (hv : v.scope.Known Γ.classes.Has) :
    (v.type Γ).Known Γ.classes.Has := by
  induction v using Γ.parts_induction with
  | h v ih =>
    rw [v.type_eq]
    exact hΓ.known_node hv fun w hw => ih w hw (hΓ.known_parts hv hw)

/-! ## What is asked -/

theorem answered_callQueries (hargs : ∀ τ ∈ args, τ.Known Γ.classes.Has) :
    ∀ q ∈ Γ.callQueries start method args, q.Answered Γ := by
  intro q hq
  unfold callQueries at hq
  split_ifs at hq
  · cases hsignature : Γ.features.lookupMethod? Γ.classes start method with
    | none =>
      rw [hsignature] at hq
      exact absurd hq List.not_mem_nil
    | some signature =>
      rw [hsignature] at hq
      dsimp only at hq
      split_ifs at hq
      · exact absurd hq List.not_mem_nil
      · obtain ⟨⟨τ, formal⟩, hpair, rfl⟩ := List.mem_map.mp hq
        obtain ⟨hτ, hformal⟩ := List.of_mem_zip hpair
        have hknown := (hΓ.features.of_lookupMethod? hsignature).2 formal hformal
        exact hΓ.answered_conforms (hargs τ hτ) hknown
  · exact absurd hq List.not_mem_nil

theorem answered_staticCallQueries (hreceiver : receiver.Known Γ.classes.Has)
    (hargs : ∀ τ ∈ args, τ.Known Γ.classes.Has) :
    ∀ q ∈ Γ.staticCallQueries receiver type method args, q.Answered Γ := by
  unfold staticCallQueries
  split_ifs with hself hcontains
  · exact List.forall_mem_nil _
  · exact List.forall_mem_cons.mpr
      ⟨hΓ.answered_conforms hreceiver hcontains, hΓ.answered_callQueries hargs⟩
  · exact List.forall_mem_nil _

theorem answered_letInitQueries {init : Option Ty} (hτ : τ.Known Γ.classes.Has)
    (hinit : ∀ υ ∈ init, υ.Known Γ.classes.Has) :
    ∀ q ∈ letInitQueries τ init, q.Answered Γ := by
  unfold letInitQueries
  split_ifs
  · exact List.forall_mem_nil _
  · intro q hq
    obtain ⟨υ, hυ, rfl⟩ := List.mem_map.mp hq
    exact hΓ.answered_conforms (hinit υ (Option.mem_toList.mp hυ)) hτ

theorem answered_branchQueries (span : Span) : ∀ (types : List Ty) {joined : Option Ty},
    (∀ υ ∈ joined, υ.Known Γ.classes.Has) → (∀ υ ∈ types, υ.Known Γ.classes.Has) →
      ∀ q ∈ Γ.branchQueries span joined types, q.Answered Γ
  | [], _, _, _ => List.forall_mem_nil _
  | τ :: types, joined, hjoined, htypes => by
    obtain ⟨hτ, htypes⟩ := List.forall_mem_cons.mp htypes
    refine List.forall_mem_append.mpr ⟨fun q hq => ?_, ?_⟩
    · obtain ⟨υ, hυ, rfl⟩ := List.mem_map.mp hq
      exact hΓ.answered_join (hjoined υ (Option.mem_toList.mp hυ)) hτ
    · refine answered_branchQueries span types (fun υ hυ => ?_) htypes
      exact Option.mem_some_iff.mp hυ ▸ hΓ.known_joinBranch hjoined hτ

/-- All questions at a node have answers, if the scope is known. -/
theorem answered_queries {v : Visit} (hv : v.scope.Known Γ.classes.Has) :
    ∀ q ∈ v.queries Γ, q.Answered Γ := by
  obtain ⟨σ, e⟩ := v
  have htype (e : Expr) : (Visit.type Γ ⟨σ, e⟩).Known Γ.classes.Has := hΓ.known_type hv
  have hargs (es : List Expr) :
      ∀ τ ∈ es.map fun e => Visit.type Γ ⟨σ, e⟩, τ.Known Γ.classes.Has :=
    List.forall_mem_map.mpr fun e _ => htype e
  cases e with
  | assign note name value =>
    show ∀ q ∈ assignQueries σ name _, q.Answered Γ
    unfold assignQueries
    split_ifs
    · exact List.forall_mem_nil _
    · intro q hq
      obtain ⟨declared, hdeclared, rfl⟩ := List.mem_map.mp hq
      exact hΓ.answered_conforms (htype value) (hv name declared (Option.mem_toList.mp hdeclared))
  | selfDispatch note method args => exact hΓ.answered_callQueries (hargs args)
  | dispatch note receiver method args => exact hΓ.answered_callQueries (hargs args)
  | staticDispatch note receiver named method args =>
    exact hΓ.answered_staticCallQueries (htype receiver) (hargs args)
  | cond note predicate thenBranch elseBranch =>
    exact List.forall_mem_singleton.mpr (hΓ.answered_join (htype thenBranch) (htype elseBranch))
  | letIn note name named init body =>
    refine hΓ.answered_letInitQueries hΓ.known_letType fun υ hυ => ?_
    obtain ⟨e, -, rfl⟩ := Option.map_eq_some_iff.mp hυ
    exact htype e
  | typeCase note scrutinee branches =>
    refine hΓ.answered_branchQueries note.span _ Ty.known_none ?_
    exact List.forall_mem_map.mpr fun b _ => hΓ.known_type (hv.push.declare _ hΓ.known_branchType)
  | _ => exact List.forall_mem_nil _

/-! ## Features -/

theorem known_formalType {signature : Option FormalSig} {f : Formal}
    (hsignature : ∀ sig ∈ signature, sig.type.Known Γ.classes.Has) :
    (Γ.formalType signature f).Known Γ.classes.Has := by
  cases signature with
  | some sig => exact hsignature sig rfl
  | none =>
    unfold formalType
    dsimp only
    split
    · rename_i c hc
      exact ClassTable.known_of_resolveType? hc
    · exact hΓ.object

theorem known_declareFormals : ∀ (signatures : List FormalSig) (fs : List Formal) {σ : Scope},
    σ.Known Γ.classes.Has → (∀ sig ∈ signatures, sig.type.Known Γ.classes.Has) →
      (Γ.declareFormals σ signatures fs).Known Γ.classes.Has
  | _, [], _, hσ, _ => hσ
  | signatures, f :: fs, σ, hσ, hsignatures => by
    have htype : (Γ.formalType signatures.head? f).Known Γ.classes.Has :=
      hΓ.known_formalType fun sig hsig => hsignatures sig (List.mem_of_head? hsig)
    have htail : ∀ sig ∈ signatures.tail, sig.type.Known Γ.classes.Has :=
      fun sig hsig => hsignatures sig (List.mem_of_mem_tail hsig)
    unfold declareFormals
    split_ifs
    · exact known_declareFormals signatures.tail fs hσ htail
    · exact known_declareFormals signatures.tail fs (hσ.declare f.name htype) htail

omit hΓ in
theorem known_getD_resolveType? (hobject : Ty.object.Known Γ.classes.Has) (name : String) :
    ((Γ.classes.resolveType? name).getD .object).Known Γ.classes.Has := by
  cases htype : Γ.classes.resolveType? name with
  | none => exact hobject
  | some τ => exact ClassTable.known_of_resolveType? htype

theorem known_signature? {again : Bool} {m : Method} {sig : MethodSig}
    (h : Γ.signature? again m = some sig) : sig.Known Γ.classes.Has := by
  unfold signature? at h
  split_ifs at h
  exact hΓ.features.of_ownMethod? h

/-- The attributes that a class sees have known types. -/
theorem known_forClass (a : String) :
    (Scope.forClass Γ.classes Γ.features a).Known Γ.classes.Has :=
  Scope.Known.foldl_declare _ Scope.known_empty fun _ hx => hΓ.features.of_mem_visibleAttributes hx

/-- The initial value or the body of a feature is visited in a known scope. -/
theorem known_root? (hσ : σ.Known Γ.classes.Has) {seen : List String} {f : Feature} {v : Visit}
    (h : f.root? Γ σ seen = some v) : v.scope.Known Γ.classes.Has := by
  cases f with
  | attr a =>
    obtain ⟨init, -, rfl⟩ := Option.map_eq_some_iff.mp h
    exact hσ
  | method m =>
    cases h
    refine hΓ.known_declareFormals _ m.formals hσ.push ?_
    cases hsignature : Γ.signature? (seen.contains m.name) m with
    | none => exact List.forall_mem_nil _
    | some sig => exact (hΓ.known_signature? hsignature).2

theorem known_declaredType (seen : List String) (f : Feature) :
    (f.declaredType Γ seen).Known Γ.classes.Has := by
  cases f with
  | attr a => exact known_getD_resolveType? hΓ.object a.type
  | method m =>
    show (Γ.returnType (Γ.signature? (seen.contains m.name) m) m).Known Γ.classes.Has
    cases hsignature : Γ.signature? (seen.contains m.name) m with
    | none => exact known_getD_resolveType? hΓ.object m.returnType
    | some sig => exact (hΓ.known_signature? hsignature).1

end Rules

end Closed

end Context

end Cool
