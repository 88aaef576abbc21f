import Cool.Proofs.Hierarchy.Semilattice
import Cool.Proofs.Signature.Built
import Cool.Proofs.Typing.Known

/-!
# Joins in any order

The type of a `case` is found by joining the types of its branches from left to right. Between
resolved types the join is the least upper bound, so that the order does not matter; but types of
unresolved classes are joined as well, and there `Object` stands for what is not known. It does so
in a way that no order can be told from the result: of two types or more, one of which is
unresolved, the join is `Object`, unless all of them are `SELF_TYPE`.

* `join_comm`, `join_assoc` : joins of two types, and of three;
* `ClassTable.joinAll`, `joinAll_perm` : joins of many types;
* `Context.joinAll_eq_type_typeCase`, `Context.type_typeCase_eq_of_perm` : the type of a `case`;
* `Context.type_cond_swap` : the type of an `if`;
* `joins_ofProgram` : all of this in the table of a program.
-/

namespace Cool

namespace ClassTable

/-- The join of types, taken from left to right; `Object` where there are none. -/
def joinAll (t : ClassTable) (enclosing : String) : List Ty → Except UndefinedType Ty
  | [] => .ok .object
  | τ :: types => types.foldlM (t.join enclosing) τ

variable {t : ClassTable} {enclosing : String} {σ τ υ : Ty} {types types' : List Ty}

/-- The class of a type, which is the enclosing one for `SELF_TYPE`, is resolved. -/
def Resolves (t : ClassTable) (enclosing : String) (τ : Ty) : Prop :=
  t.isResolved (τ.resolve enclosing) = true

theorem Resolves.isResolvedType (h : t.Resolves enclosing τ) : t.IsResolvedType τ := by
  cases τ with
  | named a => exact h
  | selfType => trivial

theorem Resolves.known (h : t.Resolves enclosing τ) : τ.Known t.Has := by
  cases τ with
  | named a => exact contains_of_isResolved h
  | selfType => trivial

theorem isSelfType_and_comm : (σ.isSelfType && τ.isSelfType) = (τ.isSelfType && σ.isSelfType) :=
  Bool.and_comm _ _

theorem eq_selfType_of_and (h : (σ.isSelfType && τ.isSelfType) = true) :
    σ = .selfType ∧ τ = .selfType := by
  cases σ with
  | named => cases h
  | selfType =>
    cases τ with
    | named => cases h
    | selfType => exact ⟨rfl, rfl⟩

section Known

variable (henclosing : t.Has enclosing)
include henclosing

/-- Where not both classes are resolved, the join says nothing. -/
theorem join_eq_object (hself : (σ.isSelfType && τ.isSelfType) = false) (hσ : σ.Known t.Has)
    (hτ : τ.Known t.Has) (h : ¬(t.Resolves enclosing σ ∧ t.Resolves enclosing τ)) :
    t.join enclosing σ τ = .ok .object := by
  rw [join_of_contains hself (hσ.resolve henclosing) (hτ.resolve henclosing), if_neg]
  rwa [Bool.and_eq_true]

variable (hs : t.Sound)
include hs

omit henclosing in
/-- Types of resolved classes have a join, of a resolved class again. -/
theorem exists_join_of_resolves (hσ : t.Resolves enclosing σ) (hτ : t.Resolves enclosing τ) :
    ∃ υ, t.join enclosing σ τ = .ok υ ∧ t.Resolves enclosing υ ∧
      (World.ofTables t .empty).IsJoin enclosing [σ, τ] υ := by
  cases hself : σ.isSelfType && τ.isSelfType with
  | true =>
    obtain ⟨rfl, rfl⟩ := eq_selfType_of_and hself
    obtain ⟨υ, hυ, -, hjoin⟩ := exists_join_resolved hs hσ (σ := .selfType) trivial
      (τ := .selfType) trivial
    cases hυ
    exact ⟨.selfType, rfl, hσ, hjoin⟩
  | false =>
    obtain ⟨c, hc, hjoin⟩ := hs.exists_join (f := .empty) hself hσ hτ
    have hupper := World.conforms_named_iff.mp (hjoin.upper σ List.mem_cons_self)
    exact ⟨.named c, hc, hs.isResolved_of_inherits hσ hupper.2, hjoin⟩

omit henclosing in
/-- A join of resolved types is told by the types, in whatever order they come. -/
theorem eq_of_isJoin (hσ : t.Resolves enclosing σ) (hmem : ∀ ρ, ρ ∈ types ↔ ρ ∈ types')
    (h : (World.ofTables t .empty).IsJoin enclosing types σ)
    (h' : (World.ofTables t .empty).IsJoin enclosing types' τ) : σ = τ :=
  antisymm_below hs hσ.isResolvedType
    (h.least τ fun ρ hρ => h'.upper ρ ((hmem ρ).mp hρ))
    (h'.least σ fun ρ hρ => h.upper ρ ((hmem ρ).mpr hρ))

theorem join_comm (hσ : σ.Known t.Has) (hτ : τ.Known t.Has) :
    t.join enclosing σ τ = t.join enclosing τ σ := by
  by_cases hboth : t.Resolves enclosing σ ∧ t.Resolves enclosing τ
  · obtain ⟨υ, hυ, hresolves, hjoin⟩ := exists_join_of_resolves hs hboth.1 hboth.2
    obtain ⟨υ', hυ', -, hjoin'⟩ := exists_join_of_resolves hs hboth.2 hboth.1
    rw [hυ, hυ', eq_of_isJoin hs hresolves (by simp [or_comm]) hjoin hjoin']
  · cases hself : σ.isSelfType && τ.isSelfType with
    | true =>
      obtain ⟨rfl, rfl⟩ := eq_selfType_of_and hself
      rfl
    | false =>
      rw [join_eq_object henclosing hself hσ hτ hboth,
        join_eq_object henclosing (isSelfType_and_comm.trans hself) hτ hσ fun h => hboth h.symm]

variable (hobject : t.isResolved Names.object = true)
include hobject

/-- Nothing but `Object` is above `Object`. -/
theorem object_join (hτ : τ.Known t.Has) : t.join enclosing .object τ = .ok .object := by
  by_cases hresolves : t.Resolves enclosing τ
  · have hresolved : t.Resolves enclosing .object := hobject
    obtain ⟨υ, hυ, -, hjoin⟩ := exists_join_of_resolves hs hresolved hresolves
    have hbelow : t.Below enclosing τ .object :=
      below_named_iff.mpr ⟨contains_of_isResolved hresolves, hs.inherits_object hresolves⟩
    have hrefl : t.Below enclosing .object .object :=
      .refl (isType_of_isResolvedType hresolved.isResolvedType)
    have hleast : t.Below enclosing υ .object :=
      hjoin.least _ fun ρ hρ => by
        rcases List.mem_cons.mp hρ with rfl | hρ
        · exact hrefl
        · rwa [List.mem_singleton.mp hρ]
    rw [hυ, antisymm_below hs hresolved.isResolvedType (hjoin.upper _ List.mem_cons_self) hleast]
  · exact join_eq_object henclosing rfl (contains_of_isResolved hobject) hτ fun h =>
      hresolves h.2

/-- All questions about classes of the table have answers. -/
theorem exists_join_of_known (hσ : σ.Known t.Has) (hτ : τ.Known t.Has) :
    ∃ υ, t.join enclosing σ τ = .ok υ ∧ υ.Known t.Has := by
  by_cases hboth : t.Resolves enclosing σ ∧ t.Resolves enclosing τ
  · obtain ⟨υ, hυ, hresolves, -⟩ := exists_join_of_resolves hs hboth.1 hboth.2
    exact ⟨υ, hυ, hresolves.known⟩
  · cases hself : σ.isSelfType && τ.isSelfType with
    | true =>
      obtain ⟨rfl, rfl⟩ := eq_selfType_of_and hself
      exact ⟨.selfType, rfl, trivial⟩
    | false =>
      exact ⟨.object, join_eq_object henclosing hself hσ hτ hboth, contains_of_isResolved hobject⟩

/-- Where not all of three classes are resolved, their join says nothing. -/
theorem join_join_eq_object (hself : ¬(σ = .selfType ∧ τ = .selfType ∧ υ = .selfType))
    (hσ : σ.Known t.Has) (hτ : τ.Known t.Has) (hυ : υ.Known t.Has)
    (h : ¬(t.Resolves enclosing σ ∧ t.Resolves enclosing τ ∧ t.Resolves enclosing υ)) :
    (do t.join enclosing (← t.join enclosing σ τ) υ) = .ok .object := by
  cases hboth : σ.isSelfType && τ.isSelfType with
  | true =>
    obtain ⟨rfl, rfl⟩ := eq_selfType_of_and hboth
    have hne : (Ty.selfType.isSelfType && υ.isSelfType) = false := by
      cases υ with
      | named => rfl
      | selfType => exact absurd ⟨rfl, rfl, rfl⟩ hself
    exact join_eq_object henclosing hne hσ hυ fun hall => h ⟨hall.1, hall.1, hall.2⟩
  | false =>
    by_cases hresolves : t.Resolves enclosing σ ∧ t.Resolves enclosing τ
    · obtain ⟨c, hc, hjoin⟩ := hs.exists_join (f := .empty) hboth hresolves.1 hresolves.2
      obtain ⟨ρ, hρ, hresolved, -⟩ := exists_join_of_resolves hs hresolves.1 hresolves.2
      obtain rfl : Ty.named c = ρ := Except.ok.inj (hc.symm.trans hρ)
      rw [hc]
      exact join_eq_object henclosing rfl hresolved.known hυ fun hall =>
        h ⟨hresolves.1, hresolves.2, hall.2⟩
    · rw [join_eq_object henclosing hboth hσ hτ hresolves]
      exact object_join henclosing hs hobject hυ

theorem join_assoc (hσ : σ.Known t.Has) (hτ : τ.Known t.Has) (hυ : υ.Known t.Has) :
    (do t.join enclosing (← t.join enclosing σ τ) υ) =
      (do t.join enclosing σ (← t.join enclosing τ υ)) := by
  by_cases hself : σ = .selfType ∧ τ = .selfType ∧ υ = .selfType
  · obtain ⟨rfl, rfl, rfl⟩ := hself
    rfl
  -- from the right, it is a join from the left of the types in another order
  have hflip : (do t.join enclosing σ (← t.join enclosing τ υ)) =
      (do t.join enclosing (← t.join enclosing τ υ) σ) := by
    obtain ⟨ρ, hρ, hknown⟩ := exists_join_of_known henclosing hs hobject hτ hυ
    rw [hρ]
    exact join_comm henclosing hs hσ hknown
  rw [hflip]
  by_cases hall : t.Resolves enclosing σ ∧ t.Resolves enclosing τ ∧ t.Resolves enclosing υ
  · obtain ⟨hrσ, hrτ, hrυ⟩ := hall
    obtain ⟨ρ, hρ, hrρ, hjoin⟩ := exists_join_of_resolves hs hrσ hrτ
    obtain ⟨left, hleft, hrleft, hjoinleft⟩ := exists_join_of_resolves hs hrρ hrυ
    obtain ⟨κ, hκ, hrκ, hjoin'⟩ := exists_join_of_resolves hs hrτ hrυ
    obtain ⟨right, hright, -, hjoinright⟩ := exists_join_of_resolves hs hrκ hrσ
    have hsame : left = right :=
      eq_of_isJoin hs hrleft (by simp [or_comm, or_left_comm])
        (hjoin.snoc_iff.mpr hjoinleft) (hjoin'.snoc_iff.mpr hjoinright)
    rw [hρ, hκ]
    exact hleft.trans (hsame ▸ hright.symm)
  · rw [join_join_eq_object henclosing hs hobject hself hσ hτ hυ hall,
      join_join_eq_object henclosing hs hobject (fun h => hself ⟨h.2.2, h.1, h.2.1⟩) hτ hυ hσ
        fun h => hall ⟨h.2.2, h.1, h.2.1⟩]

/-! ## Many types -/

theorem exists_joinAll_cons (types : List Ty) : ∀ {τ : Ty}, τ.Known t.Has →
    (∀ υ ∈ types, υ.Known t.Has) → ∃ ρ, t.joinAll enclosing (τ :: types) = .ok ρ ∧
      ρ.Known t.Has := by
  induction types with
  | nil => exact fun hτ _ => ⟨_, rfl, hτ⟩
  | cons υ types ih =>
    intro τ hτ htypes
    obtain ⟨hυ, htypes⟩ := List.forall_mem_cons.mp htypes
    obtain ⟨ρ, hρ, hknown⟩ := exists_join_of_known henclosing hs hobject hτ hυ
    obtain ⟨κ, hκ, hκknown⟩ := ih hknown htypes
    refine ⟨κ, ?_, hκknown⟩
    show (t.join enclosing τ υ >>= fun ρ => types.foldlM (t.join enclosing) ρ) = _
    rw [hρ]
    exact hκ

/-- Behind a first type, the others may come in any order. -/
theorem foldlM_join_perm (h : types.Perm types') : ∀ {τ : Ty}, τ.Known t.Has →
    (∀ υ ∈ types, υ.Known t.Has) →
      types.foldlM (t.join enclosing) τ = types'.foldlM (t.join enclosing) τ := by
  induction h with
  | nil => exact fun _ _ => rfl
  | @cons υ types types' _ ih =>
    intro τ hτ htypes
    obtain ⟨hυ, htypes⟩ := List.forall_mem_cons.mp htypes
    obtain ⟨ρ, hρ, hknown⟩ := exists_join_of_known henclosing hs hobject hτ hυ
    rw [List.foldlM_cons, List.foldlM_cons, hρ]
    exact ih hknown htypes
  | swap υ ρ types =>
    intro τ hτ htypes
    obtain ⟨hρ, htypes⟩ := List.forall_mem_cons.mp htypes
    have hυ := (List.forall_mem_cons.mp htypes).1
    have hswap : (do t.join enclosing (← t.join enclosing τ ρ) υ) =
        (do t.join enclosing (← t.join enclosing τ υ) ρ) := by
      rw [join_assoc henclosing hs hobject hτ hρ hυ, join_comm henclosing hs hρ hυ,
        join_assoc henclosing hs hobject hτ hυ hρ]
    simp only [List.foldlM_cons, ← bind_assoc]
    rw [hswap]
  | trans h _ ih ih' =>
    intro τ hτ htypes
    exact (ih hτ htypes).trans (ih' hτ fun υ hυ => htypes υ (h.mem_iff.mpr hυ))

theorem joinAll_perm (h : types.Perm types') (htypes : ∀ τ ∈ types, τ.Known t.Has) :
    t.joinAll enclosing types = t.joinAll enclosing types' := by
  induction h with
  | nil => rfl
  | cons τ h =>
    obtain ⟨hτ, htypes⟩ := List.forall_mem_cons.mp htypes
    exact foldlM_join_perm henclosing hs hobject h hτ htypes
  | swap τ υ types =>
    obtain ⟨hυ, htypes⟩ := List.forall_mem_cons.mp htypes
    have hτ := (List.forall_mem_cons.mp htypes).1
    simp only [joinAll, List.foldlM_cons]
    rw [join_comm henclosing hs hυ hτ]
  | trans h _ ih ih' =>
    exact (ih htypes).trans (ih' fun τ hτ => htypes τ (h.mem_iff.mpr hτ))

end Known

end ClassTable

/-! ## The type of a `case` -/

namespace Context

open ClassTable

variable {Γ : Context} {σ : Scope} {span : Span} {ρ : Ty}

theorem joinBranch_of_eq_ok {τ υ : Ty} (h : Γ.classes.join Γ.className υ τ = .ok ρ) :
    (Γ.joinBranch span τ (some υ)).value = ρ := by
  show (Γ.join span υ τ).value = ρ
  rw [join, h]
  rfl

/-- The types of branches are joined from left to right. -/
theorem value_branchesType_some : ∀ (branches : List (Branch × Ty)) {seen : List String} {υ : Ty},
    (branches.map Prod.snd).foldlM (Γ.classes.join Γ.className) υ = .ok ρ →
      (Γ.branchesType span seen (some υ) branches).value = some ρ
  | [], _, _, h => congrArg some (Except.ok.inj h)
  | (b, τ) :: branches, seen, υ, h => by
    rw [List.map_cons, List.foldlM_cons] at h
    obtain ⟨κ, hκ, hrest⟩ := AgreesOn.exists_of_bind_eq_ok h
    show (Γ.branchesType span (b.type :: seen)
      (some (Γ.joinBranch span τ (some υ)).value) branches).value = _
    rw [joinBranch_of_eq_ok hκ]
    exact value_branchesType_some branches hrest

/-- The type of a `case` is the join of the types of its branches. -/
theorem type_typeCase {note : Note} {scrutinee : Expr} {branches : List Branch}
    (h : Γ.classes.joinAll Γ.className (branches.map fun b => (Γ.branchBody σ b).type Γ) = .ok ρ) :
    Visit.type Γ ⟨σ, .typeCase note scrutinee branches⟩ = ρ := by
  rw [Visit.type_eq]
  show (Γ.branchesType note.span [] none _).value.getD .object = ρ
  cases branches with
  | nil => exact Except.ok.inj h
  | cons b branches =>
    have hvalue : (Γ.branchesType note.span [b.type] (some ((Γ.branchBody σ b).type Γ))
        (branches.map fun b => (b, (Γ.branchBody σ b).type Γ))).value = some ρ :=
      value_branchesType_some _ (by rw [List.map_map]; exact h)
    exact congrArg (fun joined => joined.getD Ty.object) hvalue

section Program

variable {p : Program} (hclasses : Γ.classes = p.classTable)
  (henclosing : p.classTable.Has Γ.className)
include hclasses henclosing

/-- The type of a `case` whose branches have types of the table is the join of these. -/
theorem joinAll_eq_type_typeCase (note : Note) (scrutinee : Expr) {branches : List Branch}
    (hbranches : ∀ b ∈ branches, ((Γ.branchBody σ b).type Γ).Known p.classTable.Has) :
    p.classTable.joinAll Γ.className (branches.map fun b => (Γ.branchBody σ b).type Γ) =
      .ok (Visit.type Γ ⟨σ, .typeCase note scrutinee branches⟩) := by
  obtain ⟨ρ, hρ⟩ : ∃ ρ, p.classTable.joinAll Γ.className
      (branches.map fun b => (Γ.branchBody σ b).type Γ) = .ok ρ := by
    cases branches with
    | nil => exact ⟨_, rfl⟩
    | cons b branches =>
      obtain ⟨hb, hbranches⟩ := List.forall_mem_cons.mp hbranches
      obtain ⟨ρ, hρ, -⟩ := exists_joinAll_cons henclosing (sound_ofProgram p)
        (isResolved_of_mem_basic (by decide)) _ hb (List.forall_mem_map.mpr hbranches)
      exact ⟨ρ, hρ⟩
  rw [hρ, type_typeCase (hclasses ▸ hρ)]

/-- The branches of a `case` may change places. -/
theorem type_typeCase_eq_of_perm (note : Note) (scrutinee : Expr) {branches branches' : List Branch}
    (h : branches.Perm branches')
    (hbranches : ∀ b ∈ branches, ((Γ.branchBody σ b).type Γ).Known p.classTable.Has) :
    Visit.type Γ ⟨σ, .typeCase note scrutinee branches⟩ =
      Visit.type Γ ⟨σ, .typeCase note scrutinee branches'⟩ := by
  have hperm := joinAll_perm henclosing (sound_ofProgram p) (isResolved_of_mem_basic (by decide))
    (h.map fun b => (Γ.branchBody σ b).type Γ) (List.forall_mem_map.mpr hbranches)
  have hbranches' : ∀ b ∈ branches', ((Γ.branchBody σ b).type Γ).Known p.classTable.Has :=
    fun b hb => hbranches b (h.mem_iff.mpr hb)
  rw [joinAll_eq_type_typeCase hclasses henclosing note scrutinee hbranches,
    joinAll_eq_type_typeCase hclasses henclosing note scrutinee hbranches'] at hperm
  exact Except.ok.inj hperm

/-- The branches of an `if` may change places. -/
theorem type_cond_swap {note : Note} {predicate thenBranch elseBranch : Expr}
    (hthen : (Visit.type Γ ⟨σ, thenBranch⟩).Known p.classTable.Has)
    (helse : (Visit.type Γ ⟨σ, elseBranch⟩).Known p.classTable.Has) :
    Visit.type Γ ⟨σ, .cond note predicate thenBranch elseBranch⟩ =
      Visit.type Γ ⟨σ, .cond note predicate elseBranch thenBranch⟩ := by
  have hcomm := join_comm henclosing (sound_ofProgram p) hthen helse
  rw [← hclasses] at hcomm
  rw [Visit.type_eq, Visit.type_eq]
  show (Γ.join note.span _ _).value = (Γ.join note.span _ _).value
  rw [join, join, hcomm]

end Program

end Context

/-- In the table of a program, inside any class of it, joins of types have an answer that does not
depend on the order of the types, be their classes resolved or not. So neither the order of the
branches of a `case` nor that of the branches of an `if` matters to its type. -/
theorem ClassTable.joins_ofProgram (p : Program) (enclosing : String)
    (henclosing : p.classTable.Has enclosing) :
    let t := p.classTable
    (∀ σ τ, σ.Known t.Has → τ.Known t.Has →
      ∃ υ, t.join enclosing σ τ = .ok υ ∧ t.join enclosing τ σ = .ok υ) ∧
    (∀ σ τ υ, σ.Known t.Has → τ.Known t.Has → υ.Known t.Has →
      ∃ ρ, (do t.join enclosing (← t.join enclosing σ τ) υ) = .ok ρ ∧
        (do t.join enclosing σ (← t.join enclosing τ υ)) = .ok ρ) ∧
    (∀ types types', types ≠ [] → types.Perm types' → (∀ τ ∈ types, τ.Known t.Has) →
      ∃ ρ, t.joinAll enclosing types = .ok ρ ∧ t.joinAll enclosing types' = .ok ρ) ∧
    ∀ (Γ : Context) (σ : Scope) (note : Note), Γ.classes = t → Γ.className = enclosing →
      (∀ scrutinee branches, (∀ b ∈ branches, ((Γ.branchBody σ b).type Γ).Known t.Has) →
        t.joinAll enclosing (branches.map fun b => (Γ.branchBody σ b).type Γ) =
          .ok ((Expr.typeCase note scrutinee branches).check Γ σ).value.2 ∧
        ∀ branches', branches.Perm branches' →
          ((Expr.typeCase note scrutinee branches).check Γ σ).value.2 =
            ((Expr.typeCase note scrutinee branches').check Γ σ).value.2) ∧
      ∀ predicate thenBranch elseBranch, (thenBranch.check Γ σ).value.2.Known t.Has →
        (elseBranch.check Γ σ).value.2.Known t.Has →
          ((Expr.cond note predicate thenBranch elseBranch).check Γ σ).value.2 =
            ((Expr.cond note predicate elseBranch thenBranch).check Γ σ).value.2 := by
  intro t
  have hs : t.Sound := sound_ofProgram p
  have hobject : t.isResolved Names.object = true := isResolved_of_mem_basic (by decide)
  refine ⟨fun σ τ hσ hτ => ?_, fun σ τ υ hσ hτ hυ => ?_, fun types types' hne hperm htypes => ?_,
    fun Γ σ note hclasses hname => ?_⟩
  · obtain ⟨υ, hυ, -⟩ := exists_join_of_known henclosing hs hobject hσ hτ
    exact ⟨υ, hυ, (join_comm henclosing hs hτ hσ).trans hυ⟩
  · obtain ⟨κ, hκ, hknown⟩ := exists_join_of_known henclosing hs hobject hσ hτ
    obtain ⟨ρ, hρ, -⟩ := exists_join_of_known henclosing hs hobject hknown hυ
    have hleft : (do t.join enclosing (← t.join enclosing σ τ) υ) = .ok ρ := by
      rw [hκ]
      exact hρ
    exact ⟨ρ, hleft, (join_assoc henclosing hs hobject hσ hτ hυ).symm.trans hleft⟩
  · obtain ⟨τ, types, rfl⟩ := List.exists_cons_of_ne_nil hne
    obtain ⟨hτ, hmore⟩ := List.forall_mem_cons.mp htypes
    obtain ⟨ρ, hρ, -⟩ := exists_joinAll_cons henclosing hs hobject types hτ hmore
    exact ⟨ρ, hρ, (joinAll_perm henclosing hs hobject hperm htypes).symm.trans hρ⟩
  · subst hname
    exact ⟨fun scrutinee branches hbranches =>
        ⟨Context.joinAll_eq_type_typeCase hclasses henclosing note scrutinee hbranches,
          fun branches' hperm => Context.type_typeCase_eq_of_perm hclasses henclosing note scrutinee
            hperm hbranches⟩,
      fun predicate thenBranch elseBranch hthen helse =>
        Context.type_cond_swap hclasses henclosing hthen helse⟩

/-- Inside a class that leads into a cycle, three types in two orders: `SELF_TYPE`, the class of the
cycle, and a resolved class. -/
theorem ClassTable.joins_ofProgram_unresolved :
    Sample.hierarchy.classTable.Has "D" ∧
      ∃ ρ, Sample.hierarchy.classTable.joinAll "D" [.selfType, .named "E", .named "B"] = .ok ρ ∧
        Sample.hierarchy.classTable.joinAll "D" [.named "B", .selfType, .named "E"] = .ok ρ := by
  have hd : Sample.hierarchy.classTable.contains "D" = true := by decide +kernel
  have he : Sample.hierarchy.classTable.contains "E" = true := by decide +kernel
  have hb : Sample.hierarchy.classTable.contains "B" = true := by decide +kernel
  refine ⟨hd, (joins_ofProgram Sample.hierarchy "D" hd).2.2.1 _ _ (List.cons_ne_nil _ _) ?_ ?_⟩
  · exact show ([Ty.selfType, Ty.named "E"] ++ [Ty.named "B"]).Perm
      ([Ty.named "B"] ++ [Ty.selfType, Ty.named "E"]) from List.perm_append_comm
  · intro τ hτ
    simp only [List.mem_cons, List.not_mem_nil, or_false] at hτ
    rcases hτ with rfl | rfl | rfl
    · trivial
    · exact he
    · exact hb

end Cool
