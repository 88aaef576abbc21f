import Cool.Proofs.Hierarchy.Order
import Cool.Proofs.Signature.Mended
import Cool.Proofs.Typing.Known

/-!
# Checks in a hierarchy that is mended

Where a check has to do with an unresolved class, it goes on without a report, with a type that it
makes up: `Object` for the value of a call or for a join, the type of the value for an assignment.
Once the hierarchy is mended, there is another type in that place. So if no type is made up below an
expression, then what is reported on it is reported in a mended hierarchy as well.

* `Query.Settled`, `Visit.Unsettled` : answers that do not depend on unresolved classes, and
  expressions whose types do;
* `Context.MendedBy` : tables in which the hierarchy around a place is mended;
* `Context.MendedBy.conforms_of_settled`, `Context.MendedBy.join_of_settled` : settled answers stay;
* `Context.MendedBy.node_under` : what is reported at a single node, and its type;
* `Context.MendedBy.type_under`, `Context.MendedBy.reports_under` : whole expressions;
* `Context.MendedBy.root?_under`, `Context.MendedBy.declaredType_under` : features.
-/

namespace Cool

open Diagnosed

/-- The class of a type is resolved. -/
def Context.Resolves (Γ : Context) (τ : Ty) : Prop :=
  Γ.classes.isResolved (τ.resolve Γ.className) = true

/-- The answer does not depend on what unresolved classes inherit from. -/
def Query.Settled (Γ : Context) : Query → Prop
  | .conforms sub sup =>
    sup = .selfType ∨ sup = sub ∨ sup = .object ∨ Γ.Resolves sub ∧ Γ.Resolves sup
  | .join a b => a = .object ∨ b = .object ∨ Γ.Resolves a ∧ Γ.Resolves b

/-- The type of the expression is made up, because it depends on an unresolved class: it is that of
a call on such a class, or depends on an answer about one. -/
def Visit.Unsettled (Γ : Context) : Visit → Prop
  | ⟨σ, .dispatch _ receiver _ _⟩ =>
    Γ.classes.Unresolved ((type Γ ⟨σ, receiver⟩).resolve Γ.className)
  | ⟨_, .staticDispatch _ _ named _ _⟩ => Γ.classes.Unresolved named
  | v@⟨_, .assign ..⟩ | v@⟨_, .cond ..⟩ | v@⟨_, .typeCase ..⟩ => ∃ q ∈ v.queries Γ, ¬q.Settled Γ
  | _ => False

namespace Context

/-- In the other tables all classes are resolved, and there are the same classes; those that were
resolved have the ancestors and the features that they had. -/
structure MendedBy (Γ : Context) (t' : ClassTable) (f' : FeatureTable) : Prop where
  closed : Γ.Closed
  enclosing : Γ.classes.isResolved Γ.className = true
  contains : ∀ a, t'.contains a = Γ.classes.contains a
  classes : Γ.classes.AgreesAbout (fun a => Γ.classes.isResolved a = true) t'
  entries : ∀ a, Γ.classes.isResolved a = true → f'.find? a = Γ.features.find? a
  sound : t'.Sound
  resolved : ∀ a, t'.contains a = true → t'.isResolved a = true

namespace MendedBy

variable {Γ : Context} {t' : ClassTable} {f' : FeatureTable} {σ : Scope} {span : Span}
  {a name type method start : String} {τ υ receiver : Ty} {args : List Ty} {defect : TypingDefect}
  (hΓ : Γ.MendedBy t' f')
include hΓ

/-! ## Answers -/

theorem isResolved_of_has (ha : Γ.classes.Has a) : t'.isResolved a = true :=
  hΓ.resolved a ((hΓ.contains a).trans ha)

omit hΓ in
theorem known_of_resolves (h : Γ.Resolves τ) :
    τ.Known fun a => Γ.classes.isResolved a = true := by
  cases τ with
  | named a => exact h
  | selfType => trivial

/-- About resolved classes, the answers are the same; otherwise the answer was "yes". -/
theorem conforms_or (hτ : τ.Known Γ.classes.Has) (hυ : υ.Known Γ.classes.Has) :
    t'.conforms Γ.className τ υ = Γ.classes.conforms Γ.className τ υ ∨
      Γ.classes.conforms Γ.className τ υ = .ok true := by
  cases υ with
  | selfType =>
    left
    cases τ with
    | selfType => rfl
    | named a => simp only [ClassTable.conforms, ClassTable.known, hΓ.contains]
  | named b =>
    by_cases hboth : Γ.Resolves τ ∧ Γ.Resolves (.named b)
    · left
      exact hΓ.classes.conforms_eq hΓ.enclosing (known_of_resolves hboth.1)
        (known_of_resolves hboth.2)
    · right
      have hnot : ¬(Γ.classes.isResolved (τ.resolve Γ.className) &&
          Γ.classes.isResolved b) = true := by
        rwa [Bool.and_eq_true]
      rw [ClassTable.conforms_of_contains (hτ.resolve hΓ.closed.enclosing) hυ, if_neg hnot]

/-- In the mended hierarchy, a class conforms to those that it inherits from. -/
theorem conforms_of_inherits {b : String} (hτ : τ.Known Γ.classes.Has) (hb : Γ.classes.Has b)
    (h : t'.Inherits (τ.resolve Γ.className) b) :
    t'.conforms Γ.className τ (.named b) = .ok true := by
  have hresolve := hΓ.isResolved_of_has (hτ.resolve hΓ.closed.enclosing)
  rw [ClassTable.conforms_of_isResolved hresolve (hΓ.isResolved_of_has hb),
    (hΓ.sound.any_ancestors_iff hresolve).mpr h]

theorem conforms_of_settled (hτ : τ.Known Γ.classes.Has) (hυ : υ.Known Γ.classes.Has)
    (h : (Query.conforms τ υ).Settled Γ) :
    t'.conforms Γ.className τ υ = Γ.classes.conforms Γ.className τ υ := by
  rcases hΓ.conforms_or hτ hυ with heq | hyes
  · exact heq
  have hresolve := hΓ.isResolved_of_has (hτ.resolve hΓ.closed.enclosing)
  rcases h with rfl | rfl | rfl | ⟨hleft, hright⟩
  · cases τ with
    | selfType => rfl
    | named a => simp only [ClassTable.conforms, ClassTable.known, hΓ.contains]
  · cases υ with
    | selfType => rfl
    | named a =>
      rw [hyes]
      exact hΓ.conforms_of_inherits hτ hυ (.refl t' a)
  · rw [hyes]
    exact hΓ.conforms_of_inherits hτ hυ (hΓ.sound.inherits_object hresolve)
  · exact hΓ.classes.conforms_eq hΓ.enclosing (known_of_resolves hleft)
      (known_of_resolves hright)

omit hΓ in
theorem isSelfType_and_eq_false (h : τ = .object ∨ υ = .object) :
    (τ.isSelfType && υ.isSelfType) = false := by
  rcases h with rfl | rfl
  · rfl
  · exact Bool.and_false _

/-- In the mended hierarchy, the join of `Object` with a type is `Object`. -/
theorem join_object (hτ : τ.Known Γ.classes.Has) (hυ : υ.Known Γ.classes.Has)
    (h : τ = .object ∨ υ = .object) : t'.join Γ.className τ υ = .ok .object := by
  have hleft := hΓ.isResolved_of_has (hτ.resolve hΓ.closed.enclosing)
  have hright := hΓ.isResolved_of_has (hυ.resolve hΓ.closed.enclosing)
  have hself := isSelfType_and_eq_false h
  obtain ⟨c, hmeeting, hτc, hυc, -⟩ := hΓ.sound.exists_meeting hleft hright
  have hc : c = Names.object := by
    have hobject := hΓ.sound.inherits_object (hΓ.sound.isResolved_of_inherits hleft hτc)
    rcases h with rfl | rfl
    · exact (hΓ.sound.antisymm hleft hτc hobject).symm
    · exact (hΓ.sound.antisymm hright hυc hobject).symm
  rw [ClassTable.join_of_contains hself (ClassTable.contains_of_isResolved hleft)
    (ClassTable.contains_of_isResolved hright), hleft, hright, hmeeting, hc]
  rfl

theorem join_of_settled (hτ : τ.Known Γ.classes.Has) (hυ : υ.Known Γ.classes.Has)
    (h : (Query.join τ υ).Settled Γ) :
    t'.join Γ.className τ υ = Γ.classes.join Γ.className τ υ := by
  by_cases hboth : Γ.Resolves τ ∧ Γ.Resolves υ
  · exact hΓ.classes.join_eq hΓ.enclosing (known_of_resolves hboth.1)
      (known_of_resolves hboth.2)
  have hobject : τ = .object ∨ υ = .object := by
    rcases h with hτ | hυ | hresolved
    · exact Or.inl hτ
    · exact Or.inr hυ
    · exact absurd hresolved hboth
  have hnot : ¬(Γ.classes.isResolved (τ.resolve Γ.className) &&
      Γ.classes.isResolved (υ.resolve Γ.className)) = true := by
    rwa [Bool.and_eq_true]
  rw [hΓ.join_object hτ hυ hobject,
    ClassTable.join_of_contains (isSelfType_and_eq_false hobject)
      (hτ.resolve hΓ.closed.enclosing) (hυ.resolve hΓ.closed.enclosing), if_neg hnot]

/-! ## Rules -/

omit hΓ in
theorem conforms_eq_pure (h : Γ.classes.conforms Γ.className τ υ = .ok true) :
    Γ.conforms span τ υ = pure true := by
  unfold Context.conforms
  rw [h]

theorem fewer_requireConforms (hτ : τ.Known Γ.classes.Has) (hυ : υ.Known Γ.classes.Has) :
    Fewer (Γ.requireConforms span τ υ defect)
      ((Γ.under t' f').requireConforms span τ υ defect) := by
  unfold requireConforms
  rcases hΓ.conforms_or hτ hυ with heq | hyes
  · rw [conforms_under_of_eq heq]
    exact .refl _
  · rw [conforms_eq_pure hyes]
    exact ⟨rfl, List.nil_subset _⟩

theorem fewer_checkArguments : ∀ args : List (Ty × FormalSig),
    (∀ arg ∈ args, arg.1.Known Γ.classes.Has ∧ arg.2.type.Known Γ.classes.Has) →
      Fewer (Γ.checkArguments span method args) ((Γ.under t' f').checkArguments span method args)
  | [], _ => .refl _
  | (type, formal) :: args, h => by
    obtain ⟨⟨htype, hformal⟩, hargs⟩ := List.forall_mem_cons.mp h
    exact (hΓ.fewer_requireConforms htype hformal).bind (fewer_checkArguments args hargs)

/-- A resolved class has the methods that it had. -/
theorem lookupMethod?_eq (hstart : Γ.classes.isResolved start = true) :
    f'.lookupMethod? t' start method = Γ.features.lookupMethod? Γ.classes start method :=
  FeatureTable.lookupMethod?_eq_of_entries hΓ.classes hstart fun info hinfo =>
    hΓ.entries _ (hΓ.classes.closed start hstart info hinfo)

theorem fewer_callType (hstart : Γ.classes.isResolved start = true)
    (hargs : ∀ τ ∈ args, τ.Known Γ.classes.Has) :
    Fewer (Γ.callType span receiver start method args)
      ((Γ.under t' f').callType span receiver start method args) := by
  have hresolved : t'.isResolved start = true := (hΓ.classes.resolved start hstart).trans hstart
  unfold callType
  rw [show (Γ.under t' f').classes.isResolved start = _ from hresolved, hstart,
    show (Γ.under t' f').features.lookupMethod? (Γ.under t' f').classes start method = _ from
      hΓ.lookupMethod?_eq hstart]
  simp only [if_true]
  cases hsig : Γ.features.lookupMethod? Γ.classes start method with
  | none => exact .refl _
  | some sig =>
    have hformals := (hΓ.closed.features.of_lookupMethod? hsig).2
    dsimp only
    by_cases hlength : args.length ≠ sig.formals.length
    · rw [if_pos hlength, if_pos hlength]
      exact .refl _
    · rw [if_neg hlength, if_neg hlength]
      have hzip : ∀ arg ∈ args.zip sig.formals,
          arg.1.Known Γ.classes.Has ∧ arg.2.type.Known Γ.classes.Has := by
        rintro ⟨type, formal⟩ harg
        have hmem := List.of_mem_zip harg
        exact ⟨hargs type hmem.1, hformals formal hmem.2⟩
      exact (hΓ.fewer_checkArguments _ hzip).bind (.refl _)

omit hΓ in
/-- On an unresolved class, every call goes through. -/
theorem callType_of_unresolved (h : Γ.classes.isResolved start = false) :
    Γ.callType span receiver start method args = pure .object := by
  unfold callType
  rw [h]
  rfl

/-- Unless the named class is unresolved, a static call has the same type. -/
theorem fewer_staticCallType (h : ¬Γ.classes.Unresolved type)
    (hreceiver : receiver.Known Γ.classes.Has) (hargs : ∀ τ ∈ args, τ.Known Γ.classes.Has) :
    Fewer (Γ.staticCallType span receiver type method args)
      ((Γ.under t' f').staticCallType span receiver type method args) := by
  unfold staticCallType
  rw [show (Γ.under t' f').classes.contains type = _ from hΓ.contains type]
  split_ifs with hself hcontains
  · exact .refl _
  · have htype : Γ.classes.isResolved type = true := by
      rw [← Bool.not_eq_false]
      exact fun hunresolved => h ⟨hcontains, hunresolved⟩
    have hnamed : (Ty.named type).Known Γ.classes.Has := hcontains
    exact (hΓ.fewer_requireConforms hreceiver hnamed).bind (hΓ.fewer_callType htype hargs)
  · exact .refl _

theorem reports_staticCallType_subset (hreceiver : receiver.Known Γ.classes.Has)
    (hargs : ∀ τ ∈ args, τ.Known Γ.classes.Has) :
    (Γ.staticCallType span receiver type method args).reports ⊆
      ((Γ.under t' f').staticCallType span receiver type method args).reports := by
  by_cases h : Γ.classes.Unresolved type
  · unfold staticCallType
    rw [show (Γ.under t' f').classes.contains type = _ from hΓ.contains type, h.1]
    by_cases hself : type = Names.selfType
    · rw [if_pos hself, if_pos hself]
      exact List.Subset.refl _
    · rw [if_neg hself, if_neg hself, if_pos rfl, if_pos rfl, callType_of_unresolved h.2]
      have hnamed : (Ty.named type).Known Γ.classes.Has := h.1
      exact reports_bind_subset (hΓ.fewer_requireConforms hreceiver hnamed).reports
        (List.nil_subset _)
  · exact (hΓ.fewer_staticCallType h hreceiver hargs).reports

theorem resolveType?_eq (name : String) : t'.resolveType? name = Γ.classes.resolveType? name := by
  rw [ClassTable.resolveType?, ClassTable.resolveType?, hΓ.contains]

theorem newType_under : (Γ.under t' f').newType span type = Γ.newType span type := by
  unfold newType
  rw [show (Γ.under t' f').classes.resolveType? type = _ from hΓ.resolveType?_eq type]
  rfl

theorem letType_under : (Γ.under t' f').letType span name type = Γ.letType span name type := by
  unfold letType
  rw [show (Γ.under t' f').classes.resolveType? type = _ from hΓ.resolveType?_eq type]
  rfl

theorem branchType_under :
    (Γ.under t' f').branchType span name type = Γ.branchType span name type := by
  unfold branchType
  rw [show (Γ.under t' f').classes.contains type = _ from hΓ.contains type]
  rfl

theorem fewer_checkLetInit {init : Option Ty} (hτ : τ.Known Γ.classes.Has)
    (hinit : ∀ υ ∈ init, υ.Known Γ.classes.Has) :
    Fewer (Γ.checkLetInit span name τ init) ((Γ.under t' f').checkLetInit span name τ init) := by
  cases init with
  | none => exact .refl _
  | some υ =>
    unfold checkLetInit
    split_ifs
    · exact .refl _
    · exact hΓ.fewer_requireConforms (hinit υ rfl) hτ

/-- What is reported on an assignment is reported in the mended hierarchy. -/
theorem reports_assignType_subset (hσ : σ.Known Γ.classes.Has) (hτ : τ.Known Γ.classes.Has) :
    (Γ.assignType σ span name τ).reports ⊆
      ((Γ.under t' f').assignType σ span name τ).reports := by
  unfold assignType
  split_ifs
  · exact List.Subset.refl _
  cases hname : σ.lookup? name with
  | none => exact List.Subset.refl _
  | some declared =>
    rcases hΓ.conforms_or hτ (hσ name declared hname) with heq | hyes
    · dsimp only
      rw [conforms_under_of_eq heq]
      exact List.Subset.refl _
    · dsimp only
      rw [conforms_eq_pure hyes]
      exact List.nil_subset _

/-- An assignment with a settled answer has the same type. -/
theorem value_assignType_eq (hσ : σ.Known Γ.classes.Has) (hτ : τ.Known Γ.classes.Has)
    (h : ∀ q ∈ assignQueries σ name τ, q.Settled Γ) :
    (Γ.assignType σ span name τ).value = ((Γ.under t' f').assignType σ span name τ).value := by
  unfold assignQueries at h
  unfold assignType
  split_ifs at h ⊢
  · rfl
  cases hname : σ.lookup? name with
  | none => rfl
  | some declared =>
    rw [hname] at h
    have hsettled := h _ (List.mem_singleton.mpr rfl)
    dsimp only
    rw [conforms_under_of_eq (hΓ.conforms_of_settled hτ (hσ name declared hname) hsettled)]
    rfl

theorem reports_join (hτ : τ.Known Γ.classes.Has) (hυ : υ.Known Γ.classes.Has) :
    (Γ.join span τ υ).reports = [] := by
  obtain ⟨type, htype, -⟩ := hΓ.closed.exists_join hτ hυ
  rw [join, htype]
  rfl

theorem join_under (hτ : τ.Known Γ.classes.Has) (hυ : υ.Known Γ.classes.Has)
    (h : (Query.join τ υ).Settled Γ) : (Γ.under t' f').join span τ υ = Γ.join span τ υ :=
  join_under_of_eq (hΓ.join_of_settled hτ hυ h)

/-- What is reported on branches is reported in the mended hierarchy, whatever type they are joined
with. -/
theorem reports_branchesType_subset : ∀ (branches : List (Branch × Ty)) {seen : List String}
    {joined joined' : Option Ty}, (∀ υ ∈ joined, υ.Known Γ.classes.Has) →
      (∀ b ∈ branches, b.2.Known Γ.classes.Has) →
        (Γ.branchesType span seen joined branches).reports ⊆
          ((Γ.under t' f').branchesType span seen joined' branches).reports
  | [], _, _, _, _, _ => List.nil_subset _
  | (b, τ) :: branches, seen, joined, joined', hjoined, hbranches => by
    obtain ⟨hτ, hbranches⟩ := List.forall_mem_cons.mp hbranches
    have hnil : (Γ.joinBranch span τ joined).reports = [] := by
      cases joined with
      | none => rfl
      | some υ => exact hΓ.reports_join (hjoined υ rfl) hτ
    unfold branchesType
    rw [hΓ.branchType_under]
    refine reports_bind_subset (List.Subset.refl _) ?_
    refine reports_bind_subset (List.Subset.refl _) ?_
    refine reports_bind_subset (List.Subset.refl _) ?_
    refine reports_bind_subset (hnil ▸ List.nil_subset _) ?_
    refine reports_branchesType_subset branches (fun υ hυ => ?_) hbranches
    exact Option.mem_some_iff.mp hυ ▸ hΓ.closed.known_joinBranch hjoined hτ

/-- Branches with settled joins have the same type. -/
theorem value_branchesType_eq : ∀ (branches : List (Branch × Ty)) {seen : List String}
    {joined : Option Ty}, (∀ υ ∈ joined, υ.Known Γ.classes.Has) →
      (∀ b ∈ branches, b.2.Known Γ.classes.Has) →
        (∀ q ∈ Γ.branchQueries span joined (branches.map Prod.snd), q.Settled Γ) →
          (Γ.branchesType span seen joined branches).value =
            ((Γ.under t' f').branchesType span seen joined branches).value
  | [], _, _, _, _, _ => rfl
  | (b, τ) :: branches, seen, joined, hjoined, hbranches, h => by
    obtain ⟨hτ, hbranches⟩ := List.forall_mem_cons.mp hbranches
    obtain ⟨hfirst, hrest⟩ := List.forall_mem_append.mp h
    have heq : (Γ.under t' f').joinBranch span τ joined = Γ.joinBranch span τ joined := by
      cases joined with
      | none => rfl
      | some υ =>
        exact hΓ.join_under (hjoined υ rfl) hτ (hfirst _ (List.mem_singleton.mpr rfl))
    unfold branchesType
    simp only [value_bind, heq]
    refine value_branchesType_eq branches (fun υ hυ => ?_) hbranches hrest
    exact Option.mem_some_iff.mp hυ ▸ hΓ.closed.known_joinBranch hjoined hτ

/-! ## Nodes -/

theorem letBody_under {named : String} {body : Expr} :
    (Γ.under t' f').letBody σ span name named body = Γ.letBody σ span name named body := by
  unfold letBody
  rw [hΓ.letType_under]

theorem branchBody_under : (Γ.under t' f').branchBody σ = Γ.branchBody σ := by
  funext b
  unfold branchBody
  rw [hΓ.branchType_under]

/-- The parts of an expression are visited in the same scopes. -/
theorem parts_under (v : Visit) : v.parts (Γ.under t' f') = v.parts Γ := by
  obtain ⟨σ, e⟩ := v
  cases e with
  | letIn note name named init body =>
    unfold Visit.parts
    dsimp only
    rw [hΓ.letBody_under]
  | typeCase note scrutinee branches =>
    unfold Visit.parts
    dsimp only
    rw [hΓ.branchBody_under]
  | _ => rfl

theorem visits_under : (Γ.under t' f').Visits = Γ.Visits := by
  unfold Visits
  simp only [hΓ.parts_under]

omit hΓ in
theorem settled_of_not_exists {queries : List Query} (h : ¬∃ q ∈ queries, ¬q.Settled Γ) :
    ∀ q ∈ queries, q.Settled Γ := by
  intro q hq
  by_contra hnot
  exact h ⟨q, hq, hnot⟩

/-- What is reported at a node is reported there in the mended hierarchy, if the parts have the same
types; and the node has the same type, unless it is made up. -/
theorem node_under {v : Visit} (hv : v.scope.Known Γ.classes.Has)
    (htypes : ∀ w ∈ v.parts Γ, w.type (Γ.under t' f') = w.type Γ) :
    (v.node Γ).reports ⊆ (v.node (Γ.under t' f')).reports ∧
      (¬v.Unsettled Γ → (v.node Γ).value = (v.node (Γ.under t' f')).value) := by
  obtain ⟨σ, e⟩ := v
  have hknown (e : Expr) : (Visit.type Γ ⟨σ, e⟩).Known Γ.classes.Has := hΓ.closed.known_type hv
  have hargs (es : List Expr) : ∀ τ ∈ es.map fun e => Visit.type Γ ⟨σ, e⟩, τ.Known Γ.classes.Has :=
    List.forall_mem_map.mpr fun e _ => hknown e
  have hmap {es : List Expr}
      (h : ∀ w ∈ es.map (Visit.mk σ), w.type (Γ.under t' f') = w.type Γ) :
      (es.map fun e => Visit.type (Γ.under t' f') ⟨σ, e⟩) = es.map fun e => Visit.type Γ ⟨σ, e⟩ :=
    List.map_congr_left fun e he => h _ (List.mem_map_of_mem he)
  have hfewer {x y : Diagnosed Ty} {settled : Prop} (h : Fewer x y) :
      x.reports ⊆ y.reports ∧ (settled → x.value = y.value) := ⟨h.reports, fun _ => h.value⟩
  unfold Visit.node
  cases e with
  | int | string | bool | isVoid => exact hfewer (.refl _)
  | object => exact hfewer (.refl _)
  | new note named =>
    dsimp only
    rw [hΓ.newType_under]
    exact hfewer (.refl _)
  | assign note name value =>
    dsimp only
    rw [htypes _ List.mem_cons_self]
    refine ⟨hΓ.reports_assignType_subset hv (hknown value), fun h => ?_⟩
    exact hΓ.value_assignType_eq hv (hknown value) (settled_of_not_exists h)
  | selfDispatch note method args =>
    dsimp only
    rw [hmap htypes]
    exact hfewer (hΓ.fewer_callType hΓ.enclosing (hargs args))
  | dispatch note receiver method args =>
    obtain ⟨hreceiver, htypes⟩ := List.forall_mem_cons.mp htypes
    dsimp only
    rw [hmap htypes, hreceiver]
    cases hr : Γ.classes.isResolved ((Visit.type Γ ⟨σ, receiver⟩).resolve Γ.className) with
    | true => exact hfewer (hΓ.fewer_callType hr (hargs args))
    | false =>
      have hunsettled : Visit.Unsettled Γ ⟨σ, .dispatch note receiver method args⟩ :=
        ⟨(hknown receiver).resolve hΓ.closed.enclosing, hr⟩
      rw [callType_of_unresolved hr]
      exact ⟨List.nil_subset _, fun h => absurd hunsettled h⟩
  | staticDispatch note receiver named method args =>
    obtain ⟨hreceiver, htypes⟩ := List.forall_mem_cons.mp htypes
    dsimp only
    rw [hmap htypes, hreceiver]
    refine ⟨hΓ.reports_staticCallType_subset (hknown receiver) (hargs args), fun h => ?_⟩
    exact (hΓ.fewer_staticCallType h (hknown receiver) (hargs args)).value
  | cond note predicate thenBranch elseBranch =>
    have hpredicate := htypes ⟨σ, predicate⟩ (by simp [Visit.parts])
    have hthen := htypes ⟨σ, thenBranch⟩ (by simp [Visit.parts])
    have helse := htypes ⟨σ, elseBranch⟩ (by simp [Visit.parts])
    dsimp only
    rw [hpredicate, hthen, helse]
    have hnil : (Γ.join note.span (Visit.type Γ ⟨σ, thenBranch⟩)
        (Visit.type Γ ⟨σ, elseBranch⟩)).reports = [] :=
      hΓ.reports_join (hknown thenBranch) (hknown elseBranch)
    refine ⟨reports_bind_subset (List.Subset.refl _) (hnil ▸ List.nil_subset _), fun h => ?_⟩
    have hsettled := settled_of_not_exists h _ List.mem_cons_self
    rw [value_bind, value_bind, hΓ.join_under (hknown thenBranch) (hknown elseBranch) hsettled]
  | loop note predicate body =>
    dsimp only
    rw [htypes _ List.mem_cons_self]
    exact hfewer (.refl _)
  | block note body =>
    dsimp only
    rw [hmap htypes]
    exact hfewer (.refl _)
  | letIn note name named init body =>
    obtain ⟨hbody, htypes⟩ := List.forall_mem_cons.mp htypes
    have hinit : (init.map fun e => Visit.type (Γ.under t' f') ⟨σ, e⟩) =
        init.map fun e => Visit.type Γ ⟨σ, e⟩ :=
      Option.map_congr fun e he => htypes _ (List.mem_map_of_mem (Option.mem_toList.mpr he))
    dsimp only
    rw [hinit, hΓ.letBody_under, hbody, hΓ.letType_under]
    refine hfewer ((Fewer.refl _).bind ((Fewer.refl _).bind (.bind ?_ (.refl _))))
    refine hΓ.fewer_checkLetInit hΓ.closed.known_letType fun υ hυ => ?_
    obtain ⟨e, -, rfl⟩ := Option.map_eq_some_iff.mp hυ
    exact hknown e
  | typeCase note scrutinee branches =>
    obtain ⟨-, htypes⟩ := List.forall_mem_cons.mp htypes
    have hbranches : (branches.map fun b => (b, Visit.type (Γ.under t' f') (Γ.branchBody σ b))) =
        branches.map fun b => (b, Visit.type Γ (Γ.branchBody σ b)) :=
      List.map_congr_left fun b hb => by rw [htypes _ (List.mem_map_of_mem hb)]
    have hbodies : ∀ b ∈ branches.map fun b => (b, Visit.type Γ (Γ.branchBody σ b)),
        b.2.Known Γ.classes.Has :=
      List.forall_mem_map.mpr fun b _ =>
        hΓ.closed.known_type (hv.push.declare _ hΓ.closed.known_branchType)
    dsimp only
    rw [hΓ.branchBody_under, hbranches]
    refine ⟨reports_bind_subset (hΓ.reports_branchesType_subset _ Ty.known_none hbodies)
      (List.nil_subset _), fun h => ?_⟩
    have hsettled : ∀ q ∈ Γ.branchQueries note.span none
        ((branches.map fun b => (b, Visit.type Γ (Γ.branchBody σ b))).map Prod.snd),
        q.Settled Γ := by
      rw [List.map_map]
      exact settled_of_not_exists h
    rw [value_bind, value_bind, hΓ.value_branchesType_eq _ Ty.known_none hbodies hsettled]
  | binary note op left right =>
    have hleft := htypes ⟨σ, left⟩ (by simp [Visit.parts])
    have hright := htypes ⟨σ, right⟩ (by simp [Visit.parts])
    dsimp only
    rw [hleft, hright]
    exact hfewer (.refl _)
  | unary note op operand =>
    dsimp only
    rw [htypes _ List.mem_cons_self]
    exact hfewer (.refl _)

/-! ## Expressions -/

/-- If no type is made up at an expression or below, then it has the same type. -/
theorem type_under {v : Visit} (hv : v.scope.Known Γ.classes.Has)
    (h : ∀ w, Γ.Visits v w → ¬w.Unsettled Γ) : v.type (Γ.under t' f') = v.type Γ := by
  induction v using Γ.parts_induction with
  | h v ih =>
    have htypes : ∀ w ∈ v.parts Γ, w.type (Γ.under t' f') = w.type Γ := fun part hpart =>
      ih part hpart (hΓ.closed.known_parts hv hpart) fun w hw => h w (.head hpart hw)
    rw [v.type_eq, v.type_eq, (hΓ.node_under hv htypes).2 (h v .refl)]

/-- If no type is made up below an expression, then what is reported on it is reported in the mended
hierarchy. -/
theorem reports_under {v : Visit} (hv : v.scope.Known Γ.classes.Has)
    (h : ∀ part ∈ v.parts Γ, ∀ w, Γ.Visits part w → ¬w.Unsettled Γ) :
    (v.node Γ).reports ⊆ (v.node (Γ.under t' f')).reports :=
  (hΓ.node_under hv fun part hpart =>
    hΓ.type_under (hΓ.closed.known_parts hv hpart) (h part hpart)).1

/-! ## Features -/

theorem signature?_under {again : Bool} {m : Method} :
    (Γ.under t' f').signature? again m = Γ.signature? again m := by
  unfold signature?
  split_ifs
  · rfl
  · show f'.ownMethod? Γ.className m.name = _
    unfold FeatureTable.ownMethod?
    rw [hΓ.entries _ hΓ.enclosing]

theorem formalType_under {signature : Option FormalSig} {f : Formal} :
    (Γ.under t' f').formalType signature f = Γ.formalType signature f := by
  cases signature with
  | some signature => rfl
  | none =>
    unfold formalType
    dsimp only
    rw [show (Γ.under t' f').classes.resolveType? f.type = _ from hΓ.resolveType?_eq f.type]

theorem declareFormals_under : ∀ (fs : List Formal) {signatures : List FormalSig} {σ : Scope},
    (Γ.under t' f').declareFormals σ signatures fs = Γ.declareFormals σ signatures fs
  | [], _, _ => rfl
  | f :: fs, signatures, σ => by
    unfold declareFormals
    rw [hΓ.formalType_under, declareFormals_under fs]

theorem root?_under {seen : List String} {f : Feature} :
    f.root? (Γ.under t' f') σ seen = f.root? Γ σ seen := by
  cases f with
  | attr x => rfl
  | method m =>
    unfold Feature.root?
    dsimp only
    unfold methodBody
    rw [hΓ.signature?_under, hΓ.declareFormals_under]

theorem declaredType_under {seen : List String} {f : Feature} :
    f.declaredType (Γ.under t' f') seen = f.declaredType Γ seen := by
  cases f with
  | attr x =>
    show (t'.resolveType? x.type).getD .object = _
    rw [hΓ.resolveType?_eq]
    rfl
  | method m =>
    unfold Feature.declaredType
    dsimp only
    rw [hΓ.signature?_under]
    cases Γ.signature? (seen.contains m.name) m with
    | some signature => rfl
    | none =>
      show (t'.resolveType? m.returnType).getD .object = _
      rw [hΓ.resolveType?_eq]
      rfl

theorem fewer_checkDeclared {seen : List String} {f : Feature} (hτ : τ.Known Γ.classes.Has) :
    Fewer (f.checkDeclared Γ seen τ) (f.checkDeclared (Γ.under t' f') seen τ) := by
  unfold Feature.checkDeclared
  rw [hΓ.declaredType_under]
  exact hΓ.fewer_requireConforms hτ (hΓ.closed.known_declaredType seen f)

/-- The class around sees the attributes that it saw. -/
theorem forClass_under :
    Scope.forClass t' f' Γ.className = .forClass Γ.classes Γ.features Γ.className := by
  unfold Scope.forClass
  rw [FeatureTable.visibleAttributes_eq_of_entries hΓ.classes hΓ.enclosing fun info hinfo =>
    hΓ.entries _ (hΓ.classes.closed _ hΓ.enclosing info hinfo)]

end MendedBy

end Context

end Cool
