import Cool.Proofs.Hierarchy.Order
import Cool.Proofs.Hierarchy.Resolved

/-!
# The order of the resolved types

In every program, with errors or without, the resolved classes and `SELF_TYPE` are ordered by
conformance, and any two of them have a join. `SELF_TYPE` stands below the enclosing class, and
nothing stands below it.

* `IsResolvedType` : `SELF_TYPE`, and the resolved classes;
* `conforms_eq_ok`, `exists_join_resolved` : both questions have answers, and the answers are those
  of the order;
* `semilattice_ofProgram` : the laws.
-/

namespace Cool

namespace ClassTable

variable {t : ClassTable} {a b enclosing : String} {σ τ υ : Ty}

/-- `SELF_TYPE`, or a class that is resolved. -/
def IsResolvedType (t : ClassTable) : Ty → Prop
  | .selfType => True
  | .named a => t.isResolved a = true

theorem isResolved_resolve (henclosing : t.isResolved enclosing = true)
    (hσ : t.IsResolvedType σ) : t.isResolved (σ.resolve enclosing) = true := by
  cases σ with
  | named a => exact hσ
  | selfType => exact henclosing

/-- The order of the types, in the world of the table. Methods play no part in it. -/
abbrev Below (t : ClassTable) (enclosing : String) : Ty → Ty → Prop :=
  (World.ofTables t .empty).Conforms enclosing

theorem below_named_iff : t.Below enclosing σ (.named b) ↔
    t.contains (σ.resolve enclosing) = true ∧ t.Inherits (σ.resolve enclosing) b :=
  World.conforms_named_iff

theorem below_selfType_iff : t.Below enclosing σ .selfType ↔ σ = .selfType :=
  World.conforms_selfType_iff

theorem isType_of_isResolvedType (hσ : t.IsResolvedType σ) :
    (World.ofTables t .empty).IsType σ := by
  cases σ with
  | named a => exact contains_of_isResolved hσ
  | selfType => trivial

section Sound

variable (hs : t.Sound) (henclosing : t.isResolved enclosing = true)
include hs henclosing

/-- Whether one resolved type conforms to another is always answered, as the order has it. -/
theorem conforms_eq_ok (hσ : t.IsResolvedType σ) (hτ : t.IsResolvedType τ) :
    ∃ answer, t.conforms enclosing σ τ = .ok answer ∧
      (answer = true ↔ t.Below enclosing σ τ) := by
  have hresolved := isResolved_resolve henclosing hσ
  cases τ with
  | named b =>
    refine ⟨_, conforms_of_isResolved hresolved hτ, ?_⟩
    rw [hs.any_ancestors_iff hresolved, below_named_iff]
    exact ⟨fun h => ⟨contains_of_isResolved hresolved, h⟩, fun h => h.2⟩
  | selfType =>
    simp only [below_selfType_iff]
    cases σ with
    | named a =>
      refine ⟨false, ?_, nofun, nofun⟩
      show (t.known a >>= fun _ => pure false) = _
      rw [known_eq_ok (contains_of_isResolved hσ)]
      rfl
    | selfType => exact ⟨true, rfl, fun _ => rfl, fun _ => rfl⟩

theorem conforms_eq_ok_true_iff (hσ : t.IsResolvedType σ) (hτ : t.IsResolvedType τ) :
    t.conforms enclosing σ τ = .ok true ↔ t.Below enclosing σ τ := by
  obtain ⟨answer, hanswer, hiff⟩ := conforms_eq_ok hs henclosing hσ hτ
  rw [hanswer, ← hiff, Except.ok.injEq]

omit henclosing in
theorem antisymm_below (hσ : t.IsResolvedType σ) (h : t.Below enclosing σ τ)
    (h' : t.Below enclosing τ σ) : σ = τ := by
  cases h with
  | selfType => rfl
  | below => cases h'
  | named _ hab =>
    cases h' with
    | named _ hba => rw [hs.antisymm hσ hab hba]

/-- Two resolved types have a join, and it is resolved. -/
theorem exists_join_resolved (hσ : t.IsResolvedType σ) (hτ : t.IsResolvedType τ) :
    ∃ υ, t.join enclosing σ τ = .ok υ ∧ t.IsResolvedType υ ∧
      (World.ofTables t .empty).IsJoin enclosing [σ, τ] υ := by
  by_cases hself : (σ.isSelfType && τ.isSelfType) = true
  · obtain ⟨rfl, rfl⟩ : σ = .selfType ∧ τ = .selfType := by
      cases σ <;> cases τ <;> simp_all [Ty.isSelfType]
    refine ⟨.selfType, rfl, trivial, fun ρ hρ => ?_, fun υ hυ => hυ _ List.mem_cons_self⟩
    simp_all [World.conforms_selfType_iff]
  · rw [Bool.not_eq_true] at hself
    have ha := isResolved_resolve henclosing hσ
    obtain ⟨c, hc, hjoin⟩ :=
      hs.exists_join (f := .empty) hself ha (isResolved_resolve henclosing hτ)
    refine ⟨.named c, hc, ?_, hjoin⟩
    have hupper := World.conforms_named_iff.mp (hjoin.upper σ List.mem_cons_self)
    exact hs.isResolved_of_inherits ha hupper.2

end Sound

/-- Conformance inside a resolved class, between `SELF_TYPE` and the resolved classes of a program:
it is an order, between classes that of the chains of ancestors, with `SELF_TYPE` below the
enclosing class, above itself only; and the join of two types is the least type above both. -/
theorem semilattice_ofProgram (p : Program) (enclosing : String)
    (henclosing : (ofProgram p).value.isResolved enclosing = true) :
    let t := (ofProgram p).value
    (∀ σ τ, t.IsResolvedType σ → t.IsResolvedType τ →
      ∃ answer, t.conforms enclosing σ τ = .ok answer) ∧
    (∀ σ, t.IsResolvedType σ → t.conforms enclosing σ σ = .ok true) ∧
    (∀ σ τ υ, t.IsResolvedType σ → t.IsResolvedType τ → t.IsResolvedType υ →
      t.conforms enclosing σ τ = .ok true → t.conforms enclosing τ υ = .ok true →
        t.conforms enclosing σ υ = .ok true) ∧
    (∀ σ τ, t.IsResolvedType σ → t.IsResolvedType τ → t.conforms enclosing σ τ = .ok true →
      t.conforms enclosing τ σ = .ok true → σ = τ) ∧
    (∀ a b, t.isResolved a = true → t.isResolved b = true →
      (t.conforms enclosing (.named a) (.named b) = .ok true ↔
        b ∈ (t.ancestors a).map ClassInfo.name)) ∧
    (t.conforms enclosing .selfType (.named enclosing) = .ok true ∧
      t.conforms enclosing (.named enclosing) .selfType = .ok false) ∧
    (∀ σ, t.IsResolvedType σ → t.conforms enclosing σ .selfType = .ok true → σ = .selfType) ∧
    ∀ σ τ, t.IsResolvedType σ → t.IsResolvedType τ →
      ∃ υ, t.join enclosing σ τ = .ok υ ∧ t.IsResolvedType υ ∧
        t.conforms enclosing σ υ = .ok true ∧ t.conforms enclosing τ υ = .ok true ∧
        ∀ ρ, t.IsResolvedType ρ → t.conforms enclosing σ ρ = .ok true →
          t.conforms enclosing τ ρ = .ok true → t.conforms enclosing υ ρ = .ok true := by
  intro t
  have hs : t.Sound := sound_ofProgram p
  have hiff : ∀ {σ τ}, t.IsResolvedType σ → t.IsResolvedType τ →
      (t.conforms enclosing σ τ = .ok true ↔ t.Below enclosing σ τ) :=
    conforms_eq_ok_true_iff hs henclosing
  have hself : t.IsResolvedType .selfType := trivial
  refine ⟨fun σ τ hσ hτ => ?_, fun σ hσ => ?_, fun σ τ υ hσ hτ hυ h h' => ?_,
    fun σ τ hσ hτ h h' => ?_, fun a b ha hb => ?_, ⟨?_, ?_⟩, fun σ hσ h => ?_,
    fun σ τ hσ hτ => ?_⟩
  · obtain ⟨answer, hanswer, -⟩ := conforms_eq_ok hs henclosing hσ hτ
    exact ⟨answer, hanswer⟩
  · exact (hiff hσ hσ).mpr (.refl (isType_of_isResolvedType hσ))
  · exact (hiff hσ hυ).mpr (((hiff hσ hτ).mp h).trans ((hiff hτ hυ).mp h'))
  · exact antisymm_below hs hσ ((hiff hσ hτ).mp h) ((hiff hτ hσ).mp h')
  · have ha' : t.IsResolvedType (.named a) := ha
    have hb' : t.IsResolvedType (.named b) := hb
    rw [hiff ha' hb', below_named_iff, hs.mem_ancestors_iff ha]
    exact ⟨fun h => h.2, fun h => ⟨contains_of_isResolved ha, h⟩⟩
  · exact (hiff (τ := .named enclosing) hself henclosing).mpr
      (.below (contains_of_isResolved henclosing) .refl)
  · obtain ⟨answer, hanswer, hbelow⟩ :=
      conforms_eq_ok (σ := .named enclosing) hs henclosing henclosing hself
    have hnot : ¬answer = true := fun h => nomatch below_selfType_iff.mp (hbelow.mp h)
    rw [hanswer, Bool.eq_false_iff.mpr hnot]
  · exact below_selfType_iff.mp ((hiff hσ hself).mp h)
  · obtain ⟨υ, hυ, hresolved, hjoin⟩ := exists_join_resolved hs henclosing hσ hτ
    refine ⟨υ, hυ, hresolved, (hiff hσ hresolved).mpr (hjoin.upper σ List.mem_cons_self),
      (hiff hτ hresolved).mpr (hjoin.upper τ (by simp)), fun ρ hρ h h' => ?_⟩
    refine (hiff hresolved hρ).mpr (hjoin.least ρ fun κ hκ => ?_)
    rcases List.mem_cons.mp hκ with rfl | hκ
    · exact (hiff hσ hρ).mp h
    · rw [List.mem_singleton.mp hκ]
      exact (hiff hτ hρ).mp h'

/-- Inside a class of a program with a cycle elsewhere, `SELF_TYPE` has a join with a sister of the
class. -/
theorem semilattice_ofProgram_sample :
    (ofProgram Sample.hierarchy).value.isResolved "B" = true ∧
      (ofProgram Sample.hierarchy).value.isResolved "C" = true ∧
      ∃ υ, (ofProgram Sample.hierarchy).value.join "B" .selfType (.named "C") = .ok υ ∧
        (ofProgram Sample.hierarchy).value.conforms "B" .selfType υ = .ok true ∧
        (ofProgram Sample.hierarchy).value.conforms "B" (.named "C") υ = .ok true := by
  have hb : (ofProgram Sample.hierarchy).value.isResolved "B" = true := by decide +kernel
  have hc : (ofProgram Sample.hierarchy).value.isResolved "C" = true := by decide +kernel
  obtain ⟨-, -, -, -, -, -, -, hjoin⟩ := semilattice_ofProgram Sample.hierarchy "B" hb
  obtain ⟨υ, hυ, -, hself, hsister, -⟩ := hjoin .selfType (.named "C") trivial hc
  exact ⟨hb, hc, υ, hυ, hself, hsister⟩

end ClassTable

end Cool
