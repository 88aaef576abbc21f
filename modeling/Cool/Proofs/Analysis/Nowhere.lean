import Cool.Proofs.Analysis.Run
import Cool.Proofs.Typing.Nowhere

/-!
# The analysis and the places

An analysis finds the same wherever the program stands: the same defects in the same order, with
and without a limit, and the same types. Programs that differ in nothing but their places have
analyses that differ in nothing but places.

* `Collector.nowhere`, `Analysis.nowhere` : diagnostics and analyses without places;
* `Checker.checkDecls_nowhere` : the check of declarations up to a limit;
* `Program.analyze_nowhere`, `Program.analyze_of_nowhere_eq` : the analysis.
-/

namespace Cool

/-- The collector with its diagnostics at no place. -/
def Collector.nowhere (c : Collector) : Collector :=
  { c with entries := c.entries.map Diagnostic.nowhere }

/-- The analysis without places. -/
def Analysis.nowhere (a : Analysis) : Analysis :=
  { a with
    classes := a.classes.nowhere
    diagnostics := a.diagnostics.map Diagnostic.nowhere
    program := a.program.nowhere }

namespace Collector

variable (c : Collector)

theorem halted_nowhere : c.nowhere.halted = c.halted := by
  rw [halted, halted, nowhere, List.length_map]

theorem push_nowhere (d : Diagnostic) : c.nowhere.push d.nowhere = (c.push d).nowhere := by
  rw [push, push, halted_nowhere]
  split_ifs
  · rfl
  · rw [nowhere, nowhere, List.map_append]
    rfl

theorem extend_nowhere (ds : List Diagnostic) :
    c.nowhere.extend (ds.map Diagnostic.nowhere) = (c.extend ds).nowhere := by
  induction ds generalizing c with
  | nil => rfl
  | cons d ds ih =>
    show (c.nowhere.push d.nowhere).extend (ds.map Diagnostic.nowhere) = _
    rw [push_nowhere, ih]
    rfl

end Collector

/-! ## Features and declarations -/

theorem Feature.seenBehind_unplaced (seen : List String) (f : Feature) :
    f.unplaced.seenBehind seen = f.seenBehind seen := by
  cases f <;> rfl

theorem Feature.checkAll_nowhere (Γ : Context) (σ : Scope) (fs : List Feature)
    (seen : List String) (c : Collector) :
    Feature.checkAll Γ.nowhere σ seen c.nowhere (fs.map Feature.unplaced) =
      Prod.map (List.map Feature.unplaced) Collector.nowhere
        (Feature.checkAll Γ σ seen c fs) := by
  induction fs generalizing seen c with
  | nil => rfl
  | cons f fs ih =>
    rw [List.map_cons, checkAll, checkAll, Collector.halted_nowhere]
    split_ifs with hhalted
    · rfl
    · dsimp only
      rw [Feature.check_nowhere, Feature.seenBehind_unplaced]
      dsimp only [Diagnosed.nowhere]
      rw [Collector.extend_nowhere, ih]
      rfl

theorem Scope.forClass_nowhere (classes : ClassTable) (features : FeatureTable) (name : String) :
    forClass classes.nowhere features name = forClass classes features name := by
  rw [forClass, forClass, FeatureTable.visibleAttributes_nowhere]

theorem ClassDecl.check_nowhere (classes : ClassTable) (features : FeatureTable)
    (collector : Collector) (c : ClassDecl) :
    c.nowhere.check classes.nowhere features collector.nowhere =
      Prod.map ClassDecl.nowhere Collector.nowhere (c.check classes features collector) := by
  have hall := Feature.checkAll_nowhere (c.context classes features)
    (.forClass classes features c.name) c.features [] collector
  have hscope : Scope.forClass classes.nowhere features c.nowhere.name =
      .forClass classes features c.name := Scope.forClass_nowhere classes features c.name
  have hcontext : c.nowhere.context classes.nowhere features =
      (c.context classes features).nowhere := rfl
  have hfeatures : c.nowhere.features = c.features.map Feature.unplaced := rfl
  unfold check
  dsimp only
  rw [hscope, hcontext, hfeatures, hall]
  rfl

theorem ClassTable.isChecked_nowhere (classes : ClassTable) (index : Nat) (c : ClassDecl) :
    classes.nowhere.isChecked index c.nowhere = classes.isChecked index c := by
  have hname : c.nowhere.name = c.name := rfl
  rw [isChecked, isChecked, hname, find?_nowhere, isResolved_nowhere, Option.any_map]
  rfl

namespace Checker

/-- A checker has the tables and the diagnostics of another without their places. -/
structure Nowhere (k k' : Checker) : Prop where
  classes : k'.context.classes = k.context.classes.nowhere
  features : k'.context.features = k.context.features
  collector : k'.collector = k.collector.nowhere

variable {k k' : Checker}

theorem checkDecls_nowhere (cs : List ClassDecl) (h : k.Nowhere k') (index : Nat) :
    (k'.checkDecls index (cs.map ClassDecl.nowhere)).1 =
        (k.checkDecls index cs).1.map ClassDecl.nowhere ∧
      (k.checkDecls index cs).2.Nowhere (k'.checkDecls index (cs.map ClassDecl.nowhere)).2 := by
  induction cs generalizing k k' index with
  | nil => exact ⟨rfl, h⟩
  | cons c cs ih =>
    have hhalted : k'.collector.halted = k.collector.halted := by
      rw [h.collector, Collector.halted_nowhere]
    have hdecl : (k'.checkDecl index c.nowhere).1 = (k.checkDecl index c).1.nowhere ∧
        (k.checkDecl index c).2.Nowhere (k'.checkDecl index c.nowhere).2 := by
      have hchecked : k'.context.classes.isChecked index c.nowhere =
          k.context.classes.isChecked index c := by
        rw [h.classes, ClassTable.isChecked_nowhere]
      rw [checkDecl, checkDecl, hchecked]
      split_ifs
      · have hcheck := c.check_nowhere k.context.classes k.context.features k.collector
        rw [← h.classes, ← h.collector] at hcheck
        unfold checkClass
        dsimp only
        rw [h.features, hcheck]
        exact ⟨rfl, h.classes, h.features, rfl⟩
      · exact ⟨rfl, h⟩
    obtain ⟨hc, hk⟩ := hdecl
    obtain ⟨hcs, hrest⟩ := ih hk (index + 1)
    rw [List.map_cons, checkDecls_cons, checkDecls_cons, hhalted]
    split_ifs
    · exact ⟨rfl, h⟩
    · exact ⟨congrArg₂ List.cons hc hcs, hrest⟩

theorem checkProgram_nowhere (p : Program) (h : k.Nowhere k') :
    (k'.checkProgram p.nowhere).1 = (k.checkProgram p).1.nowhere ∧
      (k.checkProgram p).2.Nowhere (k'.checkProgram p.nowhere).2 := by
  obtain ⟨hdecls, hend⟩ := checkDecls_nowhere p.classes h 0
  rw [← Program.classes_nowhere] at hdecls hend
  refine ⟨?_, hend⟩
  show Program.mk (k'.checkDecls 0 p.nowhere.classes).1 = _
  rw [hdecls, ← Program.classes_nowhere ⟨(k.checkDecls 0 p.classes).1⟩]
  rfl

end Checker

/-! ## The analysis -/

theorem Analysis.nowhere_ofCollector (classes : ClassTable) (features : FeatureTable)
    (c : Collector) (p : Program) :
    Analysis.ofCollector classes.nowhere features c.nowhere p.nowhere =
      (Analysis.ofCollector classes features c p).nowhere := by
  rw [ofCollector, ofCollector, Collector.halted_nowhere]
  rfl

/-- A program without places has the analysis of the program without its places. -/
theorem Program.analyze_nowhere (limit : Option Nat) (p : Program) :
    p.nowhere.analyze limit = (p.analyze limit).nowhere := by
  have hclasses := ClassTable.ofProgram_nowhere p
  have hfeatures := FeatureTable.ofProgram_nowhere (ClassTable.ofProgram p).value p
  have hfirst : (Collector.empty limit).extend (ClassTable.ofProgram p.nowhere).reports =
      ((Collector.empty limit).extend (ClassTable.ofProgram p).reports).nowhere := by
    rw [hclasses]
    exact Collector.extend_nowhere (.empty limit) _
  unfold analyze
  dsimp only
  rw [hfirst]
  simp only [hclasses, hfeatures, Diagnosed.nowhere, Collector.extend_nowhere,
    Collector.halted_nowhere, id]
  generalize (Collector.empty limit).extend (ClassTable.ofProgram p).reports = first
  generalize (ClassTable.ofProgram p).value = classes
  generalize FeatureTable.ofProgram p classes = features
  split_ifs
  · exact Analysis.nowhere_ofCollector ..
  · exact Analysis.nowhere_ofCollector ..
  · -- the checkers start in no class and no file
    have hstart : Checker.Nowhere
        { Checker.start classes features.value limit with
          collector := first.extend features.reports }
        { Checker.start classes.nowhere features.value limit with
          collector := (first.extend features.reports).nowhere } := ⟨rfl, rfl, rfl⟩
    obtain ⟨hprogram, hend⟩ := Checker.checkProgram_nowhere p hstart
    rw [hprogram, hend.collector]
    exact Analysis.nowhere_ofCollector ..

/-- Programs that differ in their places only have analyses that differ in places only. -/
theorem Program.analyze_of_nowhere_eq {p q : Program} (h : p.nowhere = q.nowhere)
    (limit : Option Nat) : (p.analyze limit).nowhere = (q.analyze limit).nowhere := by
  rw [← analyze_nowhere, ← analyze_nowhere, h]

end Cool
