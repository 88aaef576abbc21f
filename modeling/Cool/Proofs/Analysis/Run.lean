import Cool.Analysis
import Cool.Proofs.Collector
import Cool.Proofs.Signature.Built
import Cool.Proofs.Tree.Notes

/-!
# An analysis with and without a limit

Without a limit, the passes are nothing but checks one after the other, each with its reports. A
limited analysis does the same until its collector is halted, and then leaves everything as it is.

* `Feature.checkEach`, `ClassDecl.checkAt`, `ClassDecl.checkFrom`, `Program.checked` : the checks
  without a collector;
* `Program.reports` : all that there is to report on a program;
* `checkAll_offered`, `checkDecls_offered` : what a collector makes of them;
* `analyze_eq` : the analysis under any limit.
-/

namespace Cool

/-! ## The checks without a collector -/

/-- Features checked one after the other, behind methods with the names of `seen`. -/
def Feature.checkEach (Γ : Context) (σ : Scope) (seen : List String) :
    List Feature → Diagnosed (List Feature)
  | [] => return []
  | f :: fs => do
    let g ← f.check Γ σ seen
    let gs ← Feature.checkEach Γ σ (f.seenBehind seen) fs
    return g :: gs

namespace ClassDecl

variable (classes : ClassTable) (features : FeatureTable)

def checkEach (c : ClassDecl) : Diagnosed ClassDecl := do
  let fs ← Feature.checkEach (c.context classes features) (.forClass classes features c.name) []
    c.features
  return { c with features := fs }

/-- The declaration at a position, checked if it is accepted and resolved. -/
def checkAt (index : Nat) (c : ClassDecl) : Diagnosed ClassDecl :=
  if classes.isChecked index c then c.checkEach classes features else pure c

/-- Declarations from a position on. -/
def checkFrom (index : Nat) : List ClassDecl → Diagnosed (List ClassDecl)
  | [] => return []
  | c :: cs => do
    let d ← c.checkAt classes features index
    let ds ← checkFrom (index + 1) cs
    return d :: ds

end ClassDecl

namespace Program

/-- The accepted and resolved declarations of a program, checked. -/
def checked (p : Program) : Diagnosed Program := do
  let cs ← ClassDecl.checkFrom p.classTable p.featureTable 0 p.classes
  return ⟨cs⟩

/-- What the passes report, one behind the other. -/
def reports (p : Program) : List Diagnostic :=
  (ClassTable.ofProgram p).reports ++ (FeatureTable.ofProgram p p.classTable).reports ++
    p.checked.reports

end Program

/-! ## The checks with a collector -/

open Collector

variable {Γ : Context} {σ : Scope} {limit : Option Nat} {all : List Diagnostic}

theorem Feature.length_checkEach : ∀ (fs : List Feature) (seen : List String),
    (Feature.checkEach Γ σ seen fs).value.length = fs.length
  | [], _ => rfl
  | f :: fs, seen => by
    show (Feature.checkEach Γ σ (f.seenBehind seen) fs).value.length + 1 = fs.length + 1
    rw [Feature.length_checkEach fs]

/-- The features up to some position are checked, and those behind it are left as they are. -/
theorem Feature.checkAll_offered (Γ : Context) (σ : Scope) (limit : Option Nat) :
    ∀ (fs : List Feature) (seen : List String) (all : List Diagnostic), ∃ m ≤ fs.length,
      Feature.checkAll Γ σ seen (offered limit all) fs =
        ((Feature.checkEach Γ σ seen fs).value.take m ++ fs.drop m,
          offered limit (all ++ (Feature.checkEach Γ σ seen fs).reports)) ∧
      ((offered limit (all ++ (Feature.checkEach Γ σ seen fs).reports)).halted = false →
        m = fs.length)
  | [], seen, all => by
    refine ⟨0, Nat.le_refl 0, ?_, fun _ => rfl⟩
    show ([], offered limit all) = ([], offered limit (all ++ []))
    rw [List.append_nil]
  | f :: fs, seen, all => by
    rw [Feature.checkAll]
    by_cases hhalted : (offered limit all).halted = true
    · rw [if_pos hhalted, offered_append_of_halted hhalted]
      refine ⟨0, Nat.zero_le _, rfl, fun h => ?_⟩
      rw [hhalted] at h
      cases h
    · rw [if_neg hhalted]
      obtain ⟨m, hm, heq, hend⟩ := Feature.checkAll_offered Γ σ limit fs (f.seenBehind seen)
        (all ++ (f.check Γ σ seen).reports)
      have hreports : all ++ (Feature.checkEach Γ σ seen (f :: fs)).reports =
          all ++ (f.check Γ σ seen).reports ++
            (Feature.checkEach Γ σ (f.seenBehind seen) fs).reports := by
        rw [List.append_assoc]
        simp only [Feature.checkEach, Diagnosed.reports_bind, Diagnosed.reports_pure,
          List.append_nil]
      refine ⟨m + 1, by simpa using hm, ?_, fun h => ?_⟩
      · dsimp only
        rw [hreports, extend_offered, heq]
        rfl
      · rw [hreports] at h
        rw [hend h, List.length_cons]

namespace ClassDecl

variable (classes : ClassTable) (features : FeatureTable)

theorem length_features_checkAt (index : Nat) (c : ClassDecl) :
    (c.checkAt classes features index).value.features.length = c.features.length := by
  unfold checkAt
  split_ifs with hchecked
  · exact Feature.length_checkEach c.features []
  · rfl

end ClassDecl

namespace Checker

/-- Checks the declaration at a position, if it is accepted and resolved. -/
def checkDecl (k : Checker) (index : Nat) (c : ClassDecl) : ClassDecl × Checker :=
  if k.context.classes.isChecked index c then k.checkClass c else (c, k)

theorem checkDecls_cons (k : Checker) (index : Nat) (c : ClassDecl) (cs : List ClassDecl) :
    k.checkDecls index (c :: cs) = if k.collector.halted then (c :: cs, k) else
      ((k.checkDecl index c).1 :: ((k.checkDecl index c).2.checkDecls (index + 1) cs).1,
        ((k.checkDecl index c).2.checkDecls (index + 1) cs).2) := rfl

variable {k : Checker}

/-- The tables stay the same. -/
theorem checkDecl_context (k : Checker) (index : Nat) (c : ClassDecl) :
    (k.checkDecl index c).2.context.classes = k.context.classes ∧
      (k.checkDecl index c).2.context.features = k.context.features := by
  unfold checkDecl
  split_ifs with hchecked
  · exact ⟨rfl, rfl⟩
  · exact ⟨rfl, rfl⟩

theorem checkClass_eq (k : Checker) (c : ClassDecl) :
    k.checkClass c =
      ({ c with features := (Feature.checkAll (c.context k.context.classes k.context.features)
          (.forClass k.context.classes k.context.features c.name) [] k.collector c.features).1 },
        { k.enter c with
          collector := (Feature.checkAll (c.context k.context.classes k.context.features)
            (.forClass k.context.classes k.context.features c.name) [] k.collector
            c.features).2 }) := rfl

/-- Without a limit, a class is checked to its end. -/
theorem checkClass_of_limit_eq_none (h : k.collector.limit = none) (c : ClassDecl) :
    (k.checkClass c).1 = (c.checkEach k.context.classes k.context.features).value ∧
      (k.checkClass c).2.collector.entries = k.collector.entries ++
        (c.checkEach k.context.classes k.context.features).reports := by
  obtain ⟨m, -, heq, hend⟩ := Feature.checkAll_offered
    (c.context k.context.classes k.context.features)
    (.forClass k.context.classes k.context.features c.name) none c.features [] k.collector.entries
  rw [← eq_offered h] at heq
  rw [checkClass_eq, heq, hend rfl, List.drop_length, List.append_nil, List.take_of_length_le]
  · refine ⟨rfl, ?_⟩
    simp only [offered, keep, ClassDecl.checkEach, Diagnosed.reports_bind,
      Diagnosed.reports_pure, List.append_nil]
  · rw [Feature.length_checkEach]

theorem checkDecl_offered (hk : k.collector = offered limit all) (index : Nat) (c : ClassDecl) :
    ∃ m ≤ c.features.length,
      (k.checkDecl index c).1.features =
        (c.checkAt k.context.classes k.context.features index).value.features.take m ++
          c.features.drop m ∧
      (k.checkDecl index c).2.collector =
        offered limit (all ++ (c.checkAt k.context.classes k.context.features index).reports) ∧
      ((k.checkDecl index c).2.collector.halted = false → m = c.features.length ∧
        (k.checkDecl index c).1 =
          (c.checkAt k.context.classes k.context.features index).value) := by
  unfold checkDecl ClassDecl.checkAt
  split_ifs with hchecked
  · obtain ⟨m, hm, heq, hend⟩ := Feature.checkAll_offered
      (c.context k.context.classes k.context.features)
      (.forClass k.context.classes k.context.features c.name) limit c.features [] all
    rw [← hk] at heq
    have hreports : (c.checkEach k.context.classes k.context.features).reports =
        (Feature.checkEach (c.context k.context.classes k.context.features)
          (.forClass k.context.classes k.context.features c.name) [] c.features).reports := by
      simp only [ClassDecl.checkEach, Diagnosed.reports_bind, Diagnosed.reports_pure,
        List.append_nil]
    rw [checkClass_eq, heq, hreports]
    refine ⟨m, hm, rfl, rfl, fun h => ⟨hend h, ?_⟩⟩
    dsimp only
    rw [hend h, List.drop_length, List.append_nil, List.take_of_length_le]
    · rfl
    · rw [Feature.length_checkEach]
  · refine ⟨c.features.length, Nat.le_refl _, ?_, ?_, fun _ => ⟨rfl, rfl⟩⟩
    · rw [Diagnosed.value_pure, List.take_length, List.drop_length, List.append_nil]
    · rw [Diagnosed.reports_pure, List.append_nil]
      exact hk

theorem checkDecls_of_halted (h : k.collector.halted = true) (index : Nat)
    (cs : List ClassDecl) : k.checkDecls index cs = (cs, k) := by
  cases cs with
  | nil => rfl
  | cons c cs => rw [checkDecls_cons, if_pos h]

/-- All features up to some position are checked, and those behind it are left as they are. -/
theorem checkDecls_offered : ∀ (cs : List ClassDecl) {k : Checker} {all : List Diagnostic}
    (index : Nat), k.collector = offered limit all →
      ∃ m ≤ (cs.flatMap ClassDecl.features).length,
        (k.checkDecls index cs).1.flatMap ClassDecl.features =
          ((ClassDecl.checkFrom k.context.classes k.context.features index cs).value.flatMap
            ClassDecl.features).take m ++ (cs.flatMap ClassDecl.features).drop m ∧
        (k.checkDecls index cs).2.collector = offered limit
          (all ++ (ClassDecl.checkFrom k.context.classes k.context.features index cs).reports) ∧
        ((k.checkDecls index cs).2.collector.halted = false → (k.checkDecls index cs).1 =
          (ClassDecl.checkFrom k.context.classes k.context.features index cs).value)
  | [], k, all, index, hk => by
    refine ⟨0, Nat.le_refl 0, rfl, ?_, fun _ => rfl⟩
    show k.collector = offered limit (all ++ [])
    rw [List.append_nil, hk]
  | c :: cs, k, all, index, hk => by
    obtain ⟨hclasses, hfeatures⟩ := checkDecl_context k index c
    obtain ⟨m, hm, hprefix, hcollector, hend⟩ := checkDecl_offered hk index c
    obtain ⟨n, hn, hrest, hfinal, hendrest⟩ := checkDecls_offered cs (index + 1) hcollector
    rw [hclasses, hfeatures] at hrest hfinal hendrest
    have hvalue : (ClassDecl.checkFrom k.context.classes k.context.features index
        (c :: cs)).value = (c.checkAt k.context.classes k.context.features index).value ::
          (ClassDecl.checkFrom k.context.classes k.context.features (index + 1) cs).value := rfl
    have hreports : all ++ (ClassDecl.checkFrom k.context.classes k.context.features index
        (c :: cs)).reports =
          all ++ (c.checkAt k.context.classes k.context.features index).reports ++
            (ClassDecl.checkFrom k.context.classes k.context.features (index + 1) cs).reports := by
      rw [List.append_assoc]
      simp only [ClassDecl.checkFrom, Diagnosed.reports_bind, Diagnosed.reports_pure,
        List.append_nil]
    have hlength := ClassDecl.length_features_checkAt k.context.classes k.context.features index c
    rw [checkDecls_cons, hvalue, hreports]
    by_cases hhalted : k.collector.halted = true
    · rw [if_pos hhalted]
      refine ⟨0, Nat.zero_le _, rfl, ?_, fun h => ?_⟩
      · rw [hk] at hhalted
        rw [List.append_assoc, offered_append_of_halted hhalted]
        exact hk
      · rw [hhalted] at h
        cases h
    · rw [if_neg hhalted]
      dsimp only
      rw [List.flatMap_cons, List.flatMap_cons, List.flatMap_cons]
      by_cases hfirst : (k.checkDecl index c).2.collector.halted = true
      · -- the class is left somewhere, and nothing behind it is looked at
        have hstop := checkDecls_of_halted hfirst (index + 1) cs
        refine ⟨m, by rw [List.length_append]; omega, ?_, hfinal, fun h => ?_⟩
        · rw [hstop, hprefix, List.take_append_of_le_length (by omega),
            List.drop_append_of_le_length hm, List.append_assoc]
        · rw [hstop, hfirst] at h
          cases h
      · rw [Bool.not_eq_true] at hfirst
        obtain ⟨-, hdecl⟩ := hend hfirst
        refine ⟨c.features.length + n, by rw [List.length_append]; omega, ?_, hfinal, fun h => ?_⟩
        · rw [hrest, hdecl, ← hlength, List.take_length_add_append, hlength,
            List.drop_length_add_append, List.append_assoc]
        · rw [hdecl, hendrest h]

end Checker

/-! ## The analysis -/

theorem Program.reports_checked (p : Program) : p.checked.reports =
    (ClassDecl.checkFrom p.classTable p.featureTable 0 p.classes).reports := by
  simp only [checked, Diagnosed.reports_bind, Diagnosed.reports_pure, List.append_nil]

/-- The collector of an analysis was offered all that there is to report; and the program that comes
out is checked up to some feature, which is the last one unless the collector is halted. -/
theorem analyze_eq (limit : Option Nat) (p : Program) :
    ∃ features q, p.analyze limit =
        .ofCollector p.classTable features (offered limit p.reports) q ∧
      (∃ m ≤ p.features.length,
        q.features = p.checked.value.features.take m ++ p.features.drop m) ∧
      ((offered limit p.reports).halted = false →
        features = p.featureTable ∧ q = p.checked.value) := by
  unfold Program.analyze
  dsimp only
  rw [empty_eq_offered, extend_offered, List.nil_append]
  by_cases hclasses : (offered limit (ClassTable.ofProgram p).reports).halted = true
  · have hstop : offered limit p.reports = offered limit (ClassTable.ofProgram p).reports := by
      rw [Program.reports, List.append_assoc, offered_append_of_halted hclasses]
    rw [if_pos hclasses, hstop]
    refine ⟨.empty, p, rfl, ⟨0, Nat.zero_le _, rfl⟩, fun h => ?_⟩
    rw [hclasses] at h
    cases h
  · rw [if_neg hclasses, extend_offered]
    by_cases hfeatures : (offered limit ((ClassTable.ofProgram p).reports ++
        (FeatureTable.ofProgram p p.classTable).reports)).halted = true
    · have hstop : offered limit p.reports = offered limit ((ClassTable.ofProgram p).reports ++
          (FeatureTable.ofProgram p p.classTable).reports) := by
        rw [Program.reports, offered_append_of_halted hfeatures]
      rw [if_pos hfeatures, hstop]
      refine ⟨p.featureTable, p, rfl, ⟨0, Nat.zero_le _, rfl⟩, fun h => ?_⟩
      rw [hfeatures] at h
      cases h
    · rw [if_neg hfeatures]
      obtain ⟨m, hm, hprefix, hcollector, hend⟩ := Checker.checkDecls_offered p.classes
        (k := { Checker.start p.classTable p.featureTable limit with
          collector := offered limit ((ClassTable.ofProgram p).reports ++
            (FeatureTable.ofProgram p p.classTable).reports) }) 0 rfl
      rw [Program.reports, Program.reports_checked]
      refine ⟨p.featureTable, _, congrArg (Analysis.ofCollector p.classTable p.featureTable · _)
        hcollector, ⟨m, hm, hprefix⟩, fun h => ⟨rfl, ?_⟩⟩
      exact congrArg Program.mk (hend (hcollector ▸ h))

theorem classes_analyze (limit : Option Nat) (p : Program) :
    (p.analyze limit).classes = p.classTable := by
  obtain ⟨features, q, heq, -⟩ := analyze_eq limit p
  rw [heq]
  rfl

theorem diagnostics_analyze (limit : Option Nat) (p : Program) :
    (p.analyze limit).diagnostics = keep limit p.reports := by
  obtain ⟨features, q, heq, -⟩ := analyze_eq limit p
  rw [heq]
  rfl

theorem halted_analyze (limit : Option Nat) (p : Program) :
    (p.analyze limit).halted = (offered limit p.reports).halted := by
  obtain ⟨features, q, heq, -⟩ := analyze_eq limit p
  rw [heq]
  rfl

theorem halted_analyze_iff {p : Program} : (p.analyze limit).halted = true ↔
    ∃ k, limit = some k ∧ k < p.reports.length := by
  rw [halted_analyze, halted_offered_iff]

/-- An analysis that is not halted is the whole analysis. -/
theorem analyze_of_not_halted {p : Program} (h : (p.analyze limit).halted = false) :
    p.analyze limit =
      ⟨p.classTable, p.featureTable, p.reports, false, p.checked.value⟩ := by
  obtain ⟨features, q, heq, -, hend⟩ := analyze_eq limit p
  have hhalted : (offered limit p.reports).halted = false := by rw [← halted_analyze, h]
  obtain ⟨rfl, rfl⟩ := hend hhalted
  rw [heq, Analysis.ofCollector, hhalted]
  congr 1
  cases limit with
  | none => rfl
  | some k =>
    have hk : ¬k < p.reports.length := fun hlt => by
      rw [halted_offered_iff.mpr ⟨k, rfl, hlt⟩] at hhalted
      cases hhalted
    exact List.take_of_length_le (by omega)

theorem analyze_none (p : Program) :
    p.analyze none = ⟨p.classTable, p.featureTable, p.reports, false, p.checked.value⟩ := by
  refine analyze_of_not_halted ?_
  rw [halted_analyze]
  rfl

theorem features_analyze (limit : Option Nat) (p : Program) : ∃ m ≤ p.features.length,
    (p.analyze limit).program.features =
      p.checked.value.features.take m ++ p.features.drop m := by
  obtain ⟨features, q, heq, hprefix, -⟩ := analyze_eq limit p
  rw [heq]
  exact hprefix

end Cool
