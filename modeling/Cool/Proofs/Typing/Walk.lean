import Cool.Check.Walk
import Mathlib.Tactic.SplitIfs

/-!
# A walk leaves its place as it was

A walk opens, binds and closes frames by hand. It comes back to the scope from which it started,
with the values and the reports of the check that hands its scopes down; so what is checked next
cannot see what was bound on the way. As nothing is said about how the outermost frame is closed,
this frame is never closed.

* `Scope.InFrame` : a scope with one more frame;
* `Walk.Runs` : the walk from one scope to another, with a value and reports;
* `Walk.Runs.bind`, `Walk.Runs.then` : one walk behind another;
* `Expr.runs_walk`, `Feature.runs_walk` : expressions and features;
* `Feature.run_walkAll` : features one after the other.
-/

namespace Cool

open Diagnosed

namespace Scope

/-- The second scope is the first with one more frame. -/
def InFrame (σ σ' : Scope) : Prop :=
  ∃ frame, σ' = ⟨frame :: σ.inner, σ.base⟩

variable {σ σ' : Scope}

theorem inFrame_push (σ : Scope) : InFrame σ σ.push :=
  ⟨[], rfl⟩

theorem InFrame.declare (h : InFrame σ σ') (name : String) (τ : Ty) :
    InFrame σ (σ'.declare name τ) := by
  obtain ⟨frame, rfl⟩ := h
  unfold Scope.declare
  split_ifs with hself
  · exact ⟨frame, rfl⟩
  · exact ⟨(name, τ) :: frame, rfl⟩

theorem InFrame.close_eq (h : InFrame σ σ') (C : Closing) : C.close σ' = σ := by
  obtain ⟨frame, rfl⟩ := h
  exact C.close_inner frame σ.inner σ.base

theorem InFrame.declareFormals {Γ : Context} : ∀ (fs : List Formal) (signatures : List FormalSig)
    {σ' : Scope}, InFrame σ σ' → InFrame σ (Γ.declareFormals σ' signatures fs)
  | [], _, _, h => h
  | f :: fs, signatures, σ', h => by
    rw [Context.declareFormals]
    split_ifs with hskip
    · exact InFrame.declareFormals fs signatures.tail h
    · exact InFrame.declareFormals fs signatures.tail (h.declare _ _)

end Scope

theorem Collector.extend_append (collector : Collector) (ds es : List Diagnostic) :
    collector.extend (ds ++ es) = (collector.extend ds).extend es :=
  List.foldl_append

/-! ## Runs -/

namespace Walk

variable {α β : Type} {Γ : Context} {σ σ₁ σ₂ : Scope} {w : Walk α} {next : α → Walk β}
  {x : Diagnosed α} {f : α → Diagnosed β}

/-- From one scope the walk comes to another, with the value of a check, and its reports have been
collected. -/
def Runs (Γ : Context) (σ σ' : Scope) (w : Walk α) (x : Diagnosed α) : Prop :=
  ∀ collector, w.run ⟨Γ, σ, collector⟩ = (x.value, ⟨Γ, σ', collector.extend x.reports⟩)

theorem runs_pure (a : α) : Runs Γ σ σ (pure a) (pure a) :=
  fun _ => rfl

theorem Runs.bind (hw : Runs Γ σ σ₁ w x) (hnext : Runs Γ σ₁ σ₂ (next x.value) (f x.value)) :
    Runs Γ σ σ₂ (w >>= next) (x >>= f) := by
  intro collector
  rw [StateT.run_bind, hw collector, reports_bind, Collector.extend_append]
  exact hnext _

/-- A step that reports nothing leaves no trace in the check. -/
theorem Runs.then {u : Walk Unit} {v : Walk β} {y : Diagnosed β}
    (hu : Runs Γ σ σ₁ u (pure ())) (hv : Runs Γ σ₁ σ₂ v y) :
    Runs Γ σ σ₂ (u >>= fun _ => v) y :=
  hu.bind (f := fun _ => y) hv

theorem runs_rule (f : Context → Scope → Diagnosed α) : Runs Γ σ σ (rule f) (f Γ σ) :=
  fun _ => rfl

theorem runs_context : Runs Γ σ σ context (pure Γ) :=
  fun _ => rfl

theorem runs_openFrame : Runs Γ σ σ.push openFrame (pure ()) :=
  fun _ => rfl

theorem runs_bindName (name : String) (τ : Ty) :
    Runs Γ σ (σ.declare name τ) (bindName name τ) (pure ()) :=
  fun _ => rfl

theorem runs_closeFrame (C : Closing) (h : Scope.InFrame σ σ₁) :
    Runs Γ σ₁ σ (closeFrame C) (pure ()) :=
  fun _ => by
    show ((), Checker.mk Γ (C.close σ₁) _) = _
    rw [h.close_eq]
    rfl

theorem runs_bindFormals : ∀ (fs : List Formal) (signatures : List FormalSig) (σ : Scope),
    Runs Γ σ (Γ.declareFormals σ signatures fs) (bindFormals signatures fs) (pure ())
  | [], _, _ => runs_pure ()
  | f :: fs, signatures, σ => by
    intro collector
    rw [Context.declareFormals]
    show (if f.name = Names.self || σ.declaredLocally f.name then bindFormals signatures.tail fs
      else do
        bindName f.name (Γ.formalType signatures.head? f)
        bindFormals signatures.tail fs).run ⟨Γ, σ, collector⟩ = _
    split_ifs with hskip
    · exact runs_bindFormals fs signatures.tail σ collector
    · exact ((runs_bindName _ _).then (runs_bindFormals fs signatures.tail _)) collector

end Walk

/-! ## Expressions -/

open Walk

variable {Γ : Context}

mutual

/-- A walk through an expression is its check in the scope of the walk, and ends in this scope. -/
theorem Expr.runs_walk (C : Closing) : ∀ (e : Expr) (σ : Scope),
    Runs Γ σ σ (e.walk C) (e.check Γ σ)
  | .int .., _ | .string .., _ | .bool .., _ => runs_pure _
  | .object .., _ | .new .., _ => (runs_rule _).bind (runs_pure _)
  | .assign _ _ value, σ => (value.runs_walk C σ).bind ((runs_rule _).bind (runs_pure _))
  | .selfDispatch _ _ args, σ =>
    (Expr.runs_walkAll C args σ).bind ((runs_rule _).bind (runs_pure _))
  | .dispatch _ receiver _ args, σ | .staticDispatch _ receiver _ _ args, σ =>
    (receiver.runs_walk C σ).bind
      ((Expr.runs_walkAll C args σ).bind ((runs_rule _).bind (runs_pure _)))
  | .cond _ predicate thenBranch elseBranch, σ =>
    (predicate.runs_walk C σ).bind ((runs_rule _).bind ((thenBranch.runs_walk C σ).bind
      ((elseBranch.runs_walk C σ).bind ((runs_rule _).bind (runs_pure _)))))
  | .loop _ predicate body, σ =>
    (predicate.runs_walk C σ).bind ((runs_rule _).bind
      ((body.runs_walk C σ).bind (runs_pure _)))
  | .block _ body, σ => (Expr.runs_walkAll C body σ).bind (runs_pure _)
  | .letIn note name named init body, σ => by
    -- the frame that is closed behind the body is the one that was opened for the binder
    have hframe := (Scope.inFrame_push σ).declare name (Γ.letType note.span name named).value
    refine (runs_rule _).bind ((runs_rule _).bind ((Expr.runs_walkInit C init σ).bind
      ((runs_rule _).bind (runs_openFrame.then ((runs_bindName _ _).then ?_)))))
    exact (body.runs_walk C _).bind ((runs_closeFrame C hframe).then (runs_pure _))
  | .typeCase _ scrutinee branches, σ =>
    (scrutinee.runs_walk C σ).bind ((Branch.runs_walkAll C branches σ).bind (runs_pure _))
  | .binary _ _ left right, σ =>
    (left.runs_walk C σ).bind ((right.runs_walk C σ).bind ((runs_rule _).bind (runs_pure _)))
  | .unary _ _ operand, σ => (operand.runs_walk C σ).bind ((runs_rule _).bind (runs_pure _))
  | .isVoid _ operand, σ => (operand.runs_walk C σ).bind (runs_pure _)

theorem Expr.runs_walkAll (C : Closing) : ∀ (es : List Expr) (σ : Scope),
    Runs Γ σ σ (Expr.walkAll C es) (Expr.checkAll Γ σ es)
  | [], _ => runs_pure _
  | e :: es, σ => (e.runs_walk C σ).bind ((Expr.runs_walkAll C es σ).bind (runs_pure _))

theorem Expr.runs_walkInit (C : Closing) : ∀ (init : Option Expr) (σ : Scope),
    Runs Γ σ σ (Expr.walkInit C init) (Expr.checkInit Γ σ init)
  | none, _ => runs_pure _
  | some e, σ => (e.runs_walk C σ).bind (runs_pure _)

theorem Branch.runs_walkAll (C : Closing) : ∀ (branches : List Branch) (σ : Scope) {span : Span}
    {seen : List String} {joined : Option Ty},
    Runs Γ σ σ (Branch.walkAll C span seen joined branches)
      (Branch.checkAll Γ σ span seen joined branches)
  | [], _, _, _, _ => runs_pure _
  | ⟨name, named, body, place⟩ :: branches, σ, span, seen, joined => by
    have hframe := (Scope.inFrame_push σ).declare name (Γ.branchType place name named).value
    refine (runs_rule _).bind ((runs_rule _).bind ((runs_rule _).bind
      (runs_openFrame.then ((runs_bindName _ _).then ?_))))
    refine (body.runs_walk C _).bind ((runs_closeFrame C hframe).then ?_)
    exact (runs_rule _).bind ((Branch.runs_walkAll C branches σ).bind (runs_pure _))

end

/-! ## Features -/

theorem Attribute.runs_walk (C : Closing) (a : Attribute) (σ : Scope) :
    Runs Γ σ σ (a.walk C) (a.check Γ σ) := by
  obtain ⟨name, type, init, span⟩ := a
  cases init with
  | none => exact runs_pure _
  | some init =>
    exact runs_context.bind (f := fun _ => Attribute.check Γ σ ⟨name, type, some init, span⟩)
      ((init.runs_walk C σ).bind ((runs_rule _).bind (runs_pure _)))

theorem Method.runs_walk (C : Closing) (again : Bool) (m : Method) (σ : Scope) :
    Runs Γ σ σ (m.walk C again) (m.check Γ σ again) := by
  have hframe := (Scope.inFrame_push σ).declareFormals (Γ := Γ) m.formals
    ((if again then none else Γ.features.ownMethod? Γ.className m.name).elim []
      MethodSig.formals)
  refine runs_context.bind (f := fun _ => m.check Γ σ again) (runs_openFrame.then
    ((runs_bindFormals _ _ _).then ?_))
  exact (m.body.runs_walk C _).bind ((runs_rule _).bind
    ((runs_closeFrame C hframe).then (runs_pure _)))

theorem Feature.runs_walk (C : Closing) (seen : List String) (f : Feature) (σ : Scope) :
    Runs Γ σ σ (f.walk C seen) (f.check Γ σ seen) := by
  cases f with
  | attr a => exact (a.runs_walk C σ).bind (runs_pure _)
  | method m => exact (m.runs_walk C _ σ).bind (runs_pure _)

/-- A walk through features stays in the scope of the class, whether or not it is halted. -/
theorem Feature.run_walkAll (C : Closing) (Γ : Context) (σ : Scope) :
    ∀ (fs : List Feature) (seen : List String) (collector : Collector),
      (Feature.walkAll C seen fs).run ⟨Γ, σ, collector⟩ =
        ((Feature.checkAll Γ σ seen collector fs).1,
          ⟨Γ, σ, (Feature.checkAll Γ σ seen collector fs).2⟩)
  | [], _, _ => rfl
  | f :: fs, seen, collector => by
    rw [Feature.checkAll]
    show (if collector.halted then pure (f :: fs) else do
        let checked ← f.walk C seen
        let fs ← Feature.walkAll C (f.seenBehind seen) fs
        return checked :: fs).run ⟨Γ, σ, collector⟩ = _
    split_ifs with hhalted
    · rfl
    · rw [StateT.run_bind, f.runs_walk C seen σ collector]
      show (StateT.run (Feature.walkAll C (f.seenBehind seen) fs >>= _) _) = _
      rw [StateT.run_bind, Feature.run_walkAll C Γ σ fs]
      rfl

end Cool
