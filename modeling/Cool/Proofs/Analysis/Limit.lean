import Cool.Proofs.Analysis.Erase

/-!
# The limit of an analysis

A limit cuts an analysis short and changes nothing else: no pass looks at what the collector holds
already, only at whether it is halted, and a collector that is halted drops what it is offered.

* `analyze_limit` : the limited analysis, in terms of the unlimited one.
-/

namespace Cool

/-- An analysis under a limit has the diagnostics of the whole analysis up to the first one beyond
the limit. If that is not reached, it is the whole analysis. If it is, then the features before some
position have the types that the whole analysis gives them, and those from there on are as they
were. -/
theorem analyze_limit (p : Program) (k : Nat) :
    (p.analyze (some k)).diagnostics = (p.analyze none).diagnostics.take
        (min (p.analyze none).diagnostics.length (k + 1)) ∧
      ((p.analyze (some k)).halted = true ↔ (p.analyze none).diagnostics.length > k) ∧
      (p.analyze (some k)).classes = (p.analyze none).classes ∧
      ((p.analyze (some k)).halted = false →
        (p.analyze (some k)).features = (p.analyze none).features ∧
        (p.analyze (some k)).program = (p.analyze none).program) ∧
      (p.analyze (some k)).program.erase = p.erase ∧
      ∃ m ≤ p.features.length, (p.analyze (some k)).program.features =
        (p.analyze none).program.features.take m ++ p.features.drop m := by
  have hwhole := analyze_none p
  have hdiagnostics : (p.analyze none).diagnostics = p.reports := by rw [hwhole]
  refine ⟨?_, ?_, ?_, fun h => ?_, erase_analyze (some k) p, ?_⟩
  · rw [hdiagnostics, diagnostics_analyze]
    show p.reports.take (k + 1) = p.reports.take (min p.reports.length (k + 1))
    rcases Nat.le_total p.reports.length (k + 1) with hle | hle
    · rw [Nat.min_eq_left hle, List.take_length, List.take_of_length_le hle]
    · rw [Nat.min_eq_right hle]
  · rw [hdiagnostics, halted_analyze_iff]
    refine ⟨fun ⟨limit, hlimit, hlt⟩ => ?_, fun hlt => ⟨k, rfl, hlt⟩⟩
    cases hlimit
    exact hlt
  · rw [classes_analyze, classes_analyze]
  · rw [analyze_of_not_halted h, hwhole]
    exact ⟨rfl, rfl⟩
  · rw [hwhole]
    exact features_analyze (some k) p

end Cool
