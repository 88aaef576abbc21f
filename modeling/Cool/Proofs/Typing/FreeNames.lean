import Cool.Proofs.Typing.Scopes
import Cool.Proofs.Typing.Walk

/-!
# Free names

An expression asks its scope about the names that occur free in it, and about no others. Two scopes
may have different frames, and any number of them: if they have the same answers for the free names,
then the check finds the same types and has the same reports. A binder hides its name in its own
body or branch, so what the scopes say about that name outside does not matter there; the initial
value of a `let` is still outside, and `self` cannot be hidden.

* `Expr.free` : the names that occur free in an expression;
* `Scope.AgreeOn` : scopes that have the same answers for some names;
* `Scope.AgreeOn.push_declare` : the same binder on top of both;
* `Expr.check_eq_of_agreeOn` : the same check.
-/

namespace Cool

/-! ## Names -/

/-- The names that are not those of a binder. The name `self` binds nothing. -/
def unbound (name : String) (names : List String) : List String :=
  if name = Names.self then names else names.filter (· ≠ name)

mutual

/-- The names that are used or assigned in an expression, and not bound around that place. -/
def Expr.free : Expr → List String
  | .int .. | .string .. | .bool .. | .new .. => []
  | .object _ name => [name]
  | .assign _ name value => name :: value.free
  | .selfDispatch _ _ args => Expr.freeAll args
  | .dispatch _ receiver _ args | .staticDispatch _ receiver _ _ args =>
    receiver.free ++ Expr.freeAll args
  | .cond _ predicate thenBranch elseBranch =>
    predicate.free ++ (thenBranch.free ++ elseBranch.free)
  | .loop _ left right | .binary _ _ left right => left.free ++ right.free
  | .block _ body => Expr.freeAll body
  | .letIn _ name _ init body => Expr.freeInit init ++ unbound name body.free
  | .typeCase _ scrutinee branches => scrutinee.free ++ Branch.freeAll branches
  | .unary _ _ operand | .isVoid _ operand => operand.free

def Expr.freeAll : List Expr → List String
  | [] => []
  | e :: es => e.free ++ Expr.freeAll es

def Expr.freeInit : Option Expr → List String
  | none => []
  | some e => e.free

def Branch.freeAll : List Branch → List String
  | [] => []
  | ⟨name, _, body, _⟩ :: branches => unbound name body.free ++ Branch.freeAll branches

end

/-! ## Scopes -/

namespace Scope

variable {names names' : List String} {name : String} {σ σ' : Scope}

/-- The scopes have the same answers for some names. -/
def AgreeOn (names : List String) (σ σ' : Scope) : Prop :=
  ∀ x ∈ names, σ.lookup? x = σ'.lookup? x

theorem agreeOn_append_iff :
    AgreeOn (names ++ names') σ σ' ↔ AgreeOn names σ σ' ∧ AgreeOn names' σ σ' :=
  List.forall_mem_append

/-- A new frame hides nothing. -/
theorem lookup?_push (σ : Scope) (x : String) : σ.push.lookup? x = σ.lookup? x := by
  unfold push
  rw [lookup?_frame]
  split_ifs with hself
  · rw [lookup?, if_pos hself]
  · rfl

/-- Below a binder, nothing is asked about its name outside. -/
theorem AgreeOn.push_declare (h : AgreeOn (unbound name names) σ σ') (τ : Ty) :
    AgreeOn names (σ.push.declare name τ) (σ'.push.declare name τ) := by
  intro x hx
  unfold unbound at h
  by_cases hself : name = Names.self
  · rw [if_pos hself] at h
    rw [declare, if_pos hself, declare, if_pos hself, lookup?_push, lookup?_push]
    exact h x hx
  · rw [if_neg hself] at h
    by_cases hname : x = name
    · rw [hname, lookup?_declare _ τ hself, lookup?_declare _ τ hself]
    · rw [lookup?_declare_of_ne _ τ hname, lookup?_declare_of_ne _ τ hname, lookup?_push,
        lookup?_push]
      exact h x (List.mem_filter.mpr ⟨hx, decide_eq_true hname⟩)

end Scope

/-! ## Checks -/

open Scope

variable {Γ : Context} {σ σ' : Scope}

mutual

/-- In two scopes that have the same answers for the free names of an expression, the check writes
the same types and has the same reports. -/
theorem Expr.check_congr_free : ∀ (e : Expr) {σ σ' : Scope}, AgreeOn e.free σ σ' →
    e.check Γ σ = e.check Γ σ'
  | .int .., _, _, _ | .string .., _, _, _ | .bool .., _, _, _ | .new .., _, _, _ => rfl
  | .object note name, σ, σ', h => by
    have hname : σ.lookup? name = σ'.lookup? name := h name List.mem_cons_self
    simp only [Expr.check, Context.objectType, hname]
  | .assign note name value, σ, σ', h => by
    obtain ⟨hname, hvalue⟩ := List.forall_mem_cons.mp h
    simp only [Expr.check, Context.assignType, hname, value.check_congr_free hvalue]
  | .selfDispatch note method args, σ, σ', h => by
    simp only [Expr.check, Expr.checkAll_congr_free args h]
  | .dispatch note receiver method args, σ, σ', h => by
    obtain ⟨hreceiver, hargs⟩ := agreeOn_append_iff.mp h
    simp only [Expr.check, receiver.check_congr_free hreceiver, Expr.checkAll_congr_free args hargs]
  | .staticDispatch note receiver named method args, σ, σ', h => by
    obtain ⟨hreceiver, hargs⟩ := agreeOn_append_iff.mp h
    simp only [Expr.check, receiver.check_congr_free hreceiver, Expr.checkAll_congr_free args hargs]
  | .cond note predicate thenBranch elseBranch, σ, σ', h => by
    obtain ⟨hpredicate, hbranches⟩ := agreeOn_append_iff.mp h
    obtain ⟨hthen, helse⟩ := agreeOn_append_iff.mp hbranches
    simp only [Expr.check, predicate.check_congr_free hpredicate,
      thenBranch.check_congr_free hthen, elseBranch.check_congr_free helse]
  | .loop note predicate body, σ, σ', h => by
    obtain ⟨hpredicate, hbody⟩ := agreeOn_append_iff.mp h
    simp only [Expr.check, predicate.check_congr_free hpredicate, body.check_congr_free hbody]
  | .block note body, σ, σ', h => by
    simp only [Expr.check, Expr.checkAll_congr_free body h]
  | .letIn note name named init body, σ, σ', h => by
    obtain ⟨hinit, hbody⟩ := agreeOn_append_iff.mp h
    have hinside (τ : Ty) : body.check Γ (σ.push.declare name τ) =
        body.check Γ (σ'.push.declare name τ) := body.check_congr_free (hbody.push_declare τ)
    simp only [Expr.check, Expr.checkInit_congr_free init hinit, hinside]
  | .typeCase note scrutinee branches, σ, σ', h => by
    obtain ⟨hscrutinee, hbranches⟩ := agreeOn_append_iff.mp h
    simp only [Expr.check, scrutinee.check_congr_free hscrutinee,
      Branch.checkAll_congr_free branches hbranches]
  | .binary note op left right, σ, σ', h => by
    obtain ⟨hleft, hright⟩ := agreeOn_append_iff.mp h
    simp only [Expr.check, left.check_congr_free hleft, right.check_congr_free hright]
  | .unary note op operand, σ, σ', h => by
    have hoperand : operand.check Γ σ = operand.check Γ σ' := operand.check_congr_free h
    simp only [Expr.check, hoperand]
  | .isVoid note operand, σ, σ', h => by
    have hoperand : operand.check Γ σ = operand.check Γ σ' := operand.check_congr_free h
    simp only [Expr.check, hoperand]

theorem Expr.checkAll_congr_free : ∀ (es : List Expr) {σ σ' : Scope},
    AgreeOn (Expr.freeAll es) σ σ' → Expr.checkAll Γ σ es = Expr.checkAll Γ σ' es
  | [], _, _, _ => rfl
  | e :: es, σ, σ', h => by
    obtain ⟨he, hes⟩ := agreeOn_append_iff.mp h
    simp only [Expr.checkAll, e.check_congr_free he, Expr.checkAll_congr_free es hes]

theorem Expr.checkInit_congr_free : ∀ (init : Option Expr) {σ σ' : Scope},
    AgreeOn (Expr.freeInit init) σ σ' → Expr.checkInit Γ σ init = Expr.checkInit Γ σ' init
  | none, _, _, _ => rfl
  | some e, σ, σ', h => by
    have he : e.check Γ σ = e.check Γ σ' := e.check_congr_free h
    simp only [Expr.checkInit, he]

theorem Branch.checkAll_congr_free : ∀ (branches : List Branch) {σ σ' : Scope} {span : Span}
    {seen : List String} {joined : Option Ty}, AgreeOn (Branch.freeAll branches) σ σ' →
      Branch.checkAll Γ σ span seen joined branches = Branch.checkAll Γ σ' span seen joined branches
  | [], _, _, _, _, _, _ => rfl
  | ⟨name, named, body, place⟩ :: branches, σ, σ', span, seen, joined, h => by
    obtain ⟨hbody, hbranches⟩ := agreeOn_append_iff.mp h
    have hinside (τ : Ty) : body.check Γ (σ.push.declare name τ) =
        body.check Γ (σ'.push.declare name τ) := body.check_congr_free (hbody.push_declare τ)
    simp only [Branch.checkAll, hinside, Branch.checkAll_congr_free branches hbranches]

end

/-- Only the free names of an expression matter. In two scopes that have the same answers for them,
the types and the reports are the same; and so it is for a walk that binds and closes by hand. -/
theorem Expr.check_eq_of_agreeOn (e : Expr) (h : AgreeOn e.free σ σ') :
    e.check Γ σ = e.check Γ σ' ∧ ∀ (C : Closing) (collector : Collector),
      ((e.walk C).run ⟨Γ, σ, collector⟩).1 = ((e.walk C).run ⟨Γ, σ', collector⟩).1 ∧
      ((e.walk C).run ⟨Γ, σ, collector⟩).2.collector =
        ((e.walk C).run ⟨Γ, σ', collector⟩).2.collector := by
  have hcheck := e.check_congr_free (Γ := Γ) h
  refine ⟨hcheck, fun C collector => ?_⟩
  rw [e.runs_walk C σ collector, e.runs_walk C σ' collector, hcheck]
  exact ⟨rfl, rfl⟩

/-- The initial value of `x` is the outer `y`, and the body is the inner `x`: of the outer `x` the
two scopes know different things, and `y` they know in different frames. -/
theorem Expr.check_eq_of_agreeOn_let :
    let e := Expr.letIn default "x" "Int" (some (.object default "y")) (.object default "x")
    let σ : Scope := ⟨[[("x", .bool)]], [("y", .int)]⟩
    let σ' : Scope := ⟨[], [("y", .int), ("x", .string)]⟩
    e.free = ["y"] ∧ σ.lookup? "x" ≠ σ'.lookup? "x" ∧ AgreeOn e.free σ σ' ∧
      ∀ Γ : Context, e.check Γ σ = e.check Γ σ' := by
  intro e σ σ'
  have hfree : e.free = ["y"] := by decide
  have hagree : AgreeOn e.free σ σ' := by
    rw [hfree]
    exact List.forall_mem_singleton.mpr (by decide)
  exact ⟨hfree, by decide, hagree, fun Γ => (e.check_eq_of_agreeOn hagree).1⟩

end Cool
