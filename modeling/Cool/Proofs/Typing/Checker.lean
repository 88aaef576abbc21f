import Cool.Check.Class
import Cool.Proofs.Collector
import Cool.Proofs.Signature.World
import Cool.Proofs.Typing.Check

/-!
# Expressions in a well-declared program

Where the hierarchy and the features of a program are without defects, an expression in one of its
classes is checked without a diagnostic exactly if it can be annotated by the rules of typing, in
the world that the program declares; and the check finds the one annotation that there is.

* `Program.WellDeclared.lawful_world`, `Program.WellDeclared.lawful` : the tables of the program are
  lawful;
* `checkExpr_iff_hasType` : the check decides the rules;
* `Sample.program` : a program for examples.
-/

namespace Cool

variable {p : Program}

theorem Program.WellDeclared.lawful_world (h : p.WellDeclared) :
    (World.ofTables p.classTable p.featureTable).Lawful where
  basic _ ha := ClassTable.contains_of_isResolved (ClassTable.isResolved_of_mem_basic ha)
  parent a b ha hb :=
    ClassTable.contains_of_isResolved
      ((ClassTable.sound_ofProgram p).parent a b (h.isResolved ha) hb)
  antisymm := ClassTable.antisymm_ofTables (ClassTable.sound_ofProgram p) fun _ => h.isResolved
  returnType _ _ hm := (h.isType_of_declares hm).2

/-- A place in a class of a well-declared program. -/
theorem Program.WellDeclared.lawful (h : p.WellDeclared) {Γ : Context}
    (hclasses : Γ.classes = p.classTable) (hfeatures : Γ.features = p.featureTable)
    (hdeclared : p.classTable.contains Γ.className = true) : Γ.Lawful := by
  obtain ⟨classes, features, className, file⟩ := Γ
  cases hclasses
  cases hfeatures
  exact ⟨ClassTable.sound_ofProgram p, fun _ => h.isResolved, hdeclared, h.lawful_world⟩

/-- In a class of a program whose tables are built without a diagnostic, the check of an expression
adds no diagnostic exactly if the types of some annotation of the expression obey the rules; there
is only one such annotation, and it is the one that the check writes. -/
theorem checkExpr_iff_hasType (p : Program) (k : Checker) (e : Expr)
    (hclasses : ClassTable.ofProgram p = ⟨k.context.classes, []⟩)
    (hfeatures : FeatureTable.ofProgram p k.context.classes = ⟨k.context.features, []⟩)
    (hdeclared : p.world.IsClass k.context.className)
    (hscope : Env.Valid p.world k.scope.lookup?) (hlimit : k.collector.limit = none)
    (hne : e.NonEmpty) :
    ((k.checkExpr e).2.collector.entries = k.collector.entries ↔
      ∃ a τ, a.erase = e.erase ∧
        HasType p.world k.context.className k.scope.lookup? a τ) ∧
    ∀ a τ, a.erase = e.erase → HasType p.world k.context.className k.scope.lookup? a τ →
      (k.checkExpr e).1 = (a, τ) := by
  obtain ⟨Γ, σ, collector⟩ := k
  dsimp only at hclasses hfeatures hdeclared hscope hlimit ⊢
  have hc : Γ.classes = p.classTable := (congrArg Diagnosed.value hclasses).symm
  rw [hc] at hfeatures
  have hf : Γ.features = p.featureTable := (congrArg Diagnosed.value hfeatures).symm
  have hp : p.WellDeclared :=
    ⟨congrArg Diagnosed.reports hclasses, congrArg Diagnosed.reports hfeatures⟩
  have hworld : Γ.world = p.world := by
    rw [Context.world, hc, hf]
    exact hp.ofTables_eq_world
  rw [← hworld] at hdeclared hscope ⊢
  have hΓ : Γ.Lawful := hp.lawful hc hf (hc ▸ hdeclared)
  -- the check sees the same text in an annotation, and accepts it as it is
  have hunique : ∀ a τ, a.erase = e.erase →
      HasType Γ.world Γ.className σ.lookup? a τ → e.check Γ σ = pure (a, τ) := by
    intro a τ herase ha
    rw [← Expr.check_eq_of_erase_eq herase]
    exact ha.check_eq hΓ hscope
  have hreports : (Checker.checkExpr ⟨Γ, σ, collector⟩ e).2.collector.entries = collector.entries ↔
      (e.check Γ σ).reports = [] := by
    unfold Checker.checkExpr
    dsimp only
    rw [Collector.entries_extend hlimit, List.append_right_eq_self]
  refine ⟨?_, fun a τ herase ha => congrArg Diagnosed.value (hunique a τ herase ha)⟩
  rw [hreports]
  constructor
  · intro hnil
    have hchecked := Diagnosed.eq_pure_of_reports hnil
    exact ⟨_, _, Expr.erase_check Γ σ e, Expr.hasType_of_check hΓ hne hscope hchecked⟩
  · rintro ⟨a, τ, herase, ha⟩
    exact congrArg Diagnosed.reports (hunique a τ herase ha)

/-! ## A program -/

namespace Sample

/-- The note of a node of the program. -/
def note : Note :=
  .untyped ⟨0, 0, 1⟩

def pick : Method where
  name := "pick"
  formals := [⟨"o", "A", note.span⟩]
  returnType := "A"
  body := .cond note (.binary note .eq (.object note "x") (.int note 1)) (.object note "self")
    (.object note "o")
  span := note.span

/-- A class with an attribute and a method. -/
def base : ClassDecl where
  name := "A"
  parent := "Object"
  features := [.attr ⟨"x", "Int", some (.int note 1), note.span⟩, .method pick]
  file := "a.cl"
  span := note.span

/-- The class, one that inherits from it, and one to start in. -/
def program : Program where
  classes := [
    base,
    ⟨"B", "A", [], "a.cl", note.span⟩,
    ⟨"Main", "IO", [.method ⟨"main", [], "Object",
      .dispatch note (.new note "B") "pick" [.new note "A"], note.span⟩], "b.cl", note.span⟩]

/-- A place at the features of the class that inherits. -/
def checker : Checker :=
  ⟨⟨program.classTable, program.featureTable, "B", "a.cl"⟩, ⟨[], [("x", .int)]⟩, .empty none⟩

/-- The call of an inherited method with `self`, on a variable of the class above. -/
def call : Expr :=
  .letIn note "y" "A" (some (.new note "B"))
    (.dispatch note (.object note "y") "pick" [.object note "self"])

end Sample

/-- The call obeys the rules. -/
theorem checkExpr_iff_hasType_call :
    ClassTable.ofProgram Sample.program = ⟨Sample.program.classTable, []⟩ ∧
      FeatureTable.ofProgram Sample.program Sample.program.classTable =
        ⟨Sample.program.featureTable, []⟩ ∧ Sample.call.NonEmpty ∧
      ∃ a τ, a.erase = Sample.call.erase ∧
        HasType Sample.program.world "B" Sample.checker.scope.lookup? a τ := by
  have hclasses : ClassTable.ofProgram Sample.program = ⟨Sample.program.classTable, []⟩ :=
    Diagnosed.eq_pure_of_reports (by decide +kernel)
  have hfeatures : FeatureTable.ofProgram Sample.program Sample.program.classTable =
      ⟨Sample.program.featureTable, []⟩ :=
    Diagnosed.eq_pure_of_reports (by decide +kernel)
  have hdeclared : Sample.program.world.IsClass "B" :=
    Or.inr ⟨_, List.mem_cons_of_mem _ List.mem_cons_self, rfl⟩
  have hscope : Env.Valid Sample.program.world Sample.checker.scope.lookup? := by
    intro x τ hx
    have hint : Sample.program.world.IsType .int := Or.inl (by decide)
    by_cases hself : x = Names.self
    · subst hself
      cases hx
      trivial
    · by_cases hattr : x = "x"
      · subst hattr
        cases hx
        exact hint
      · have hbeq : (x == "x") = false := by simpa using hattr
        simp [Sample.checker, Scope.lookup?, hself, List.lookup_cons, hbeq] at hx
  have hne : Sample.call.NonEmpty := by simp [Sample.call, Expr.NonEmpty, Expr.NonEmptyInit,
    Expr.NonEmptyAll]
  refine ⟨hclasses, hfeatures, hne, ?_⟩
  exact (checkExpr_iff_hasType Sample.program Sample.checker Sample.call hclasses hfeatures
    hdeclared hscope rfl hne).1.mp (by decide +kernel)

end Cool
