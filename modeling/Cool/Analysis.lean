import Cool.Check.Class
import Cool.ClassTable.Build
import Cool.FeatureTable.Build

/-!
# The analysis of a program

Three passes, each of which relies on the one before: the class hierarchy, the declared features,
the types of expressions. All report to one collector, and a pass is left out once its limit is
exceeded.

* `Analysis`, `Program.analyze` : the result of the passes;
* `Analysis.ok` : whether there is nothing to report.
-/

namespace Cool

structure Analysis where
  classes : ClassTable
  features : FeatureTable
  /-- In the order of reporting. -/
  diagnostics : List Diagnostic
  /-- Whether the limit cut the analysis short. -/
  halted : Bool
  /-- The program with the types of its expressions. -/
  program : Program

/-- Whether the program is correct. Then all its expressions have types. -/
def Analysis.ok (a : Analysis) : Bool :=
  a.diagnostics.isEmpty

def Analysis.ofCollector (classes : ClassTable) (features : FeatureTable) (c : Collector)
    (p : Program) : Analysis :=
  ⟨classes, features, c.entries, c.halted, p⟩

/-- Analyzes a program until more diagnostics than a limit are found. -/
def Program.analyze (limit : Option Nat) (p : Program) : Analysis :=
  let classes := ClassTable.ofProgram p
  let collector := (Collector.empty limit).extend classes.reports
  if collector.halted then .ofCollector classes.value .empty collector p
  else
    let features := FeatureTable.ofProgram p classes.value
    let collector := collector.extend features.reports
    if collector.halted then .ofCollector classes.value features.value collector p
    else
      let start := { Checker.start classes.value features.value limit with collector }
      let (p, checker) := start.checkProgram p
      .ofCollector classes.value features.value checker.collector p

end Cool
