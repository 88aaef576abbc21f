import Cool.Proofs.Analysis.Annotation
import Cool.Proofs.Analysis.Structural

/-!
# Where an analysis reports

Whatever is reported on a program is reported at a place that one of its classes has, in the file of
that class; only that there is no class to start with has no place.

* `ClassDecl.Locates` : a diagnostic at a place that a class has;
* `ClassTable.exists_locates_of_mem_reports` : defects of the hierarchy;
* `Program.exists_locates_of_mem_reports`, `Program.exists_locates_of_mem_diagnostics` : all that is
  reported, and what of it is kept.
-/

namespace Cool

/-- The diagnostic is at a place that the class has, in the file of the class. -/
def ClassDecl.Locates (c : ClassDecl) (d : Diagnostic) : Prop :=
  ∃ span, (span ∈ c.declaredPlaces ∨ span ∈ c.places) ∧ d.location? = some ⟨c.file, span⟩

/-- The program has no class to start with. -/
def Diagnostic.noMainClass : Diagnostic :=
  .general (.structural .noMainClass)

variable {p : Program} {c : ClassDecl} {d : Diagnostic} {i : Nat}

theorem ClassDecl.locates_structural (c : ClassDecl) (defect : StructuralDefect) :
    c.Locates (c.structural defect) :=
  ⟨c.span, Or.inl List.mem_cons_self, rfl⟩

theorem ClassDecl.span_mem_declaredPlaces {m : Method} (hm : m ∈ c.methods) :
    m.span ∈ c.declaredPlaces := by
  obtain ⟨f, hf, hfm⟩ := List.mem_filterMap.mp hm
  cases f with
  | attr a => cases hfm
  | method n =>
    cases hfm
    exact List.mem_cons_of_mem _ (List.mem_flatMap_of_mem hf List.mem_cons_self)

theorem Program.exists_locates_of_mem_entryReport? (hd : d ∈ p.entryReport?) :
    d = .noMainClass ∨ ∃ c ∈ p.classes, c.Locates d := by
  unfold entryReport? at hd
  split at hd
  · cases hd
    exact Or.inl rfl
  · rename_i c i hfind
    have hc : c ∈ p.classes := List.mem_of_getElem? (find?_accepted_eq_some_iff.mp hfind).1.1
    refine Or.inr ⟨c, hc, ?_⟩
    split at hd
    · cases hd
      exact c.locates_structural .noEntryMethod
    · rename_i m hm
      split_ifs at hd
      · cases hd
      · cases hd
        have hspan := ClassDecl.span_mem_declaredPlaces (List.mem_of_find?_eq_some hm)
        exact ⟨m.span, Or.inl hspan, rfl⟩

theorem ClassTable.exists_locates_of_mem_reports (hd : d ∈ (ofProgram p).reports) :
    d = .noMainClass ∨ ∃ c ∈ p.classes, c.Locates d := by
  have hlocated : ∀ c ∈ p.classes, ∀ {defect? : Option StructuralDefect},
      defect?.map c.structural = some d → ∃ c ∈ p.classes, c.Locates d := by
    intro c hc defect? h
    obtain ⟨defect, -, rfl⟩ := Option.map_eq_some_iff.mp h
    exact ⟨c, hc, c.locates_structural defect⟩
  obtain ⟨heads, hcycles, hheads, -⟩ := Program.exists_heads_reports_findCycles p
  rw [reports_ofProgram, (Program.reports_and_classes_declaredIn p).1, Program.reports_checkedIn,
    Program.reports_findEntry, hcycles] at hd
  simp only [List.mem_append, List.mem_filterMap, List.mem_map, Option.mem_toList] at hd
  rcases hd with ⟨⟨c, i⟩, hc, hd⟩ | ⟨⟨c, i⟩, hc, hd⟩ | hd | ⟨c, hc, rfl⟩
  · exact Or.inr (hlocated c (List.mem_of_getElem? (List.mk_mem_zipIdx_iff_getElem?.mp hc)) hd)
  · exact Or.inr (hlocated c (List.mem_of_getElem? (Program.mem_accepted_iff.mp hc).1) hd)
  · exact Program.exists_locates_of_mem_entryReport? hd
  · obtain ⟨i, haccepts, -⟩ := (hheads c).mp hc
    exact Or.inr ⟨c, List.mem_of_getElem? haccepts.1, c.locates_structural _⟩

/-- Only that there is no class to start with is reported without a place. -/
theorem Program.exists_locates_of_mem_reports (hd : d ∈ p.reports) :
    d = .noMainClass ∨ ∃ c ∈ p.classes, c.Locates d := by
  rcases List.mem_append.mp hd with htables | hchecked
  · rcases List.mem_append.mp htables with hclasses | hfeatures
    · exact ClassTable.exists_locates_of_mem_reports hclasses
    · obtain ⟨c, hc, defect, span, hspan, rfl⟩ :=
        FeatureTable.exists_class_of_mem_reports p p.classTable d hfeatures
      exact Or.inr ⟨c, hc, span, Or.inl hspan, rfl⟩
  · obtain ⟨i, c, hchecks, hd⟩ := mem_reports_checked_iff.mp hchecked
    obtain ⟨-, span, hspan, hlocation⟩ := ClassDecl.reportsOnly_checkEach c d hd
    exact Or.inr ⟨c, List.mem_of_getElem? hchecks.1.1, span, Or.inr hspan, hlocation⟩

/-- A limit only leaves diagnostics out. -/
theorem Program.exists_locates_of_mem_diagnostics {limit : Option Nat}
    (hd : d ∈ (p.analyze limit).diagnostics) :
    d = .noMainClass ∨ ∃ c ∈ p.classes, c.Locates d := by
  rw [diagnostics_analyze] at hd
  exact exists_locates_of_mem_reports (Collector.mem_of_mem_keep hd)

end Cool
