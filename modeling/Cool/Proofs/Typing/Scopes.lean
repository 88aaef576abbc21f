import Cool.Proofs.Typing.Rules
import Cool.Scope

/-!
# Scopes and environments

A scope is an environment, in which frames and binders have their effect. What is bound later leaves
the variables of other names as they are.

* `Scope.lookup?_push_declare`, `Scope.valid_push_declare` : binders;
* `Scope.Within` : a scope knows the variables of another;
* `Scope.Within.frame`, `Scope.lookup?_foldl_declare_cases` : further variables.
-/

namespace Cool

/-! ## Binders -/

theorem Scope.lookup?_push_declare (σ : Scope) {name : String} (τ : Ty)
    (hne : name ≠ Names.self) :
    (σ.push.declare name τ).lookup? = Env.bind σ.lookup? name τ := by
  funext x
  unfold Env.bind Scope.lookup? Scope.declare Scope.push
  rw [if_neg hne]
  by_cases hx : x = name
  · subst hx
    simp [hne]
  · have hbeq : (x == name) = false := by simpa using hx
    simp [hx, List.lookup_cons, hbeq]

theorem Scope.valid_push_declare {W : World} {σ : Scope} {name : String} {τ : Ty}
    (h : Env.Valid W σ.lookup?) (hne : name ≠ Names.self) (hτ : W.IsType τ) :
    Env.Valid W (σ.push.declare name τ).lookup? := by
  rw [Scope.lookup?_push_declare σ τ hne]
  exact h.bind hτ

/-! ## Scopes that know the same variables -/

/-- Every variable of the first scope has the same type in the second. -/
def Scope.Within (σ σ' : Scope) : Prop :=
  ∀ x τ, σ.lookup? x = some τ → σ'.lookup? x = some τ

namespace Scope

variable {σ σ' : Scope}

theorem lookup?_frame (F : Frame) (σ : Scope) (x : String) :
    lookup? ⟨F :: σ.inner, σ.base⟩ x =
      if x = Names.self then some .selfType else (F.lookup x).or (σ.lookup? x) := by
  unfold lookup?
  split_ifs with hself
  · rfl
  · rw [List.cons_append, List.findSome?_cons]
    cases F.lookup x <;> rfl

/-- The same variables on top of both scopes. -/
theorem Within.frame (h : σ.Within σ') (F : Frame) :
    Within ⟨F :: σ.inner, σ.base⟩ ⟨F :: σ'.inner, σ'.base⟩ := by
  intro x τ hx
  rw [lookup?_frame] at hx ⊢
  split_ifs at hx ⊢ with hself
  · exact hx
  · cases hF : F.lookup x with
    | some υ =>
      rw [hF] at hx
      exact hx
    | none =>
      rw [hF] at hx
      exact h x τ hx

theorem Within.push_declare (h : σ.Within σ') (name : String) (τ : Ty) :
    (σ.push.declare name τ).Within (σ'.push.declare name τ) := by
  unfold declare push
  split_ifs with hself
  · exact h.frame []
  · exact h.frame [(name, τ)]

/-! ## Attributes -/

variable {x name : String} {τ : Ty} {attributes : List AttributeSig}

theorem lookup?_declare_of_ne (σ : Scope) (τ : Ty) (hx : x ≠ name) :
    (σ.declare name τ).lookup? x = σ.lookup? x := by
  have hbeq : (x == name) = false := by simpa using hx
  unfold declare
  split_ifs with hself
  · rfl
  · obtain ⟨inner, base⟩ := σ
    cases inner <;> simp [lookup?, List.findSome?_cons, List.lookup_cons, hbeq]

theorem lookup?_declare (σ : Scope) (τ : Ty) (hself : name ≠ Names.self) :
    (σ.declare name τ).lookup? name = some τ := by
  obtain ⟨inner, base⟩ := σ
  cases inner <;> simp [lookup?, declare, hself]

theorem lookup?_foldl_declare_of_ne : ∀ {attributes : List AttributeSig} (σ : Scope),
    (∀ a ∈ attributes, x ≠ a.name) →
      (attributes.foldl (fun s a => s.declare a.name a.type) σ).lookup? x = σ.lookup? x
  | [], _, _ => rfl
  | a :: attributes, σ, h => by
    rw [List.forall_mem_cons] at h
    rw [List.foldl_cons, lookup?_foldl_declare_of_ne _ h.2, lookup?_declare_of_ne σ a.type h.1]

/-- A variable is an attribute, or was there before. -/
theorem lookup?_foldl_declare_cases : ∀ {attributes : List AttributeSig} {σ : Scope},
    (attributes.foldl (fun s a => s.declare a.name a.type) σ).lookup? x = some τ →
      σ.lookup? x = some τ ∨ ∃ a ∈ attributes, a.name = x ∧ a.type = τ
  | [], _, h => Or.inl h
  | a :: attributes, σ, h => by
    have hrest : (σ.declare a.name a.type).lookup? x = some τ ∨
        ∃ b ∈ attributes, b.name = x ∧ b.type = τ := lookup?_foldl_declare_cases h
    rcases hrest with h | ⟨b, hb, hx⟩
    · by_cases hx : x = a.name
      · subst hx
        by_cases hself : a.name = Names.self
        · rw [declare, if_pos hself] at h
          exact Or.inl h
        · rw [lookup?_declare σ a.type hself] at h
          exact Or.inr ⟨a, List.mem_cons_self, rfl, Option.some.inj h⟩
      · rw [lookup?_declare_of_ne σ a.type hx] at h
        exact Or.inl h
    · exact Or.inr ⟨b, List.mem_cons_of_mem a hb, hx⟩

end Scope

end Cool
