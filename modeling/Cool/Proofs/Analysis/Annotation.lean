import Cool.Proofs.Analysis.Erase
import Cool.Proofs.Analysis.Tiers
import Cool.Proofs.Signature.World
import Cool.Proofs.Typing.Annotated
import Cool.Proofs.Typing.Checker

/-!
# Where an analysis writes types

An analysis that is not cut short writes types at all nodes of the declarations that are accepted
and resolved, and at no others; what it reports about types stands in these declarations. If there
is nothing to report at all, then these are all declarations. A limit may leave features as they
were, but none half done.

* `Program.Checks` : the declaration at a position is accepted and resolved;
* `exists_checks_of_typing` : where defects of types are reported;
* `annotation_analyze` : where types are noted.
-/

namespace Cool

variable {p : Program} {i : Nat} {c : ClassDecl} {classes : ClassTable} {features : FeatureTable}

namespace Program

/-- The declaration at a position is the accepted one of its name, and its class is resolved. -/
def Checks (p : Program) (i : Nat) (c : ClassDecl) : Prop :=
  p.Accepts i c ∧ p.classTable.isResolved c.name = true

/-- What the passes look at to find the declarations to check. -/
theorem isChecked_iff (hc : p.classes[i]? = some c) :
    p.classTable.isChecked i c = true ↔ p.Checks i c := by
  have horigin : (p.classTable.find? c.name).any (fun info => info.origin == .declared i) = true ↔
      p.Accepts i c := by
    rw [Option.any_eq_true]
    constructor
    · rintro ⟨info, hinfo, horigin⟩
      have hdeclared : info.origin = .declared i := by simpa using horigin
      obtain ⟨hbasic | ⟨k, d, haccepts, rfl⟩, -⟩ := ClassTable.find?_ofProgram.mp hinfo
      · have hnot : ∀ info ∈ ClassTable.basic.classes, info.origin = .basic := by decide
        rw [hnot info hbasic] at hdeclared
        cases hdeclared
      · obtain rfl : k = i := by cases hdeclared; rfl
        obtain rfl : d = c := Option.some.inj (haccepts.1.symm.trans hc)
        exact haccepts
    · intro haccepts
      exact ⟨c.info i, ClassTable.find?_of_accepts haccepts, beq_self_eq_true _⟩
  rw [ClassTable.isChecked, Bool.and_eq_true, horigin, Checks]

end Program

/-! ## Single declarations -/

theorem Feature.annotated_checkEach (Γ : Context) (σ : Scope) :
    ∀ (fs : List Feature) (seen : List String),
      ∀ f ∈ (Feature.checkEach Γ σ seen fs).value, f.Annotated
  | [], _ => List.forall_mem_nil _
  | f :: fs, seen => List.forall_mem_cons.mpr
      ⟨Feature.isSome_check Γ σ seen f, Feature.annotated_checkEach Γ σ fs _⟩

theorem Feature.reportsOnly_checkEach {places : List Span} (Γ : Context) (σ : Scope) :
    ∀ (fs : List Feature) (seen : List String),
      (∀ f ∈ fs, ∀ span ∈ f.places, span ∈ places) →
        (Feature.checkEach Γ σ seen fs).ReportsOnly (Γ.Reported places)
  | [], _, _ => Diagnosed.reportsOnly_pure _
  | f :: fs, seen, h => by
    obtain ⟨hf, hfs⟩ := List.forall_mem_cons.mp h
    refine .bind (fun d hd => ?_)
      ((Feature.reportsOnly_checkEach Γ σ fs _ hfs).bind (Diagnosed.reportsOnly_pure _))
    obtain ⟨htier, span, hspan, hlocation⟩ := Feature.reportsOnly_check Γ σ seen f d hd
    exact ⟨htier, span, hf span hspan, hlocation⟩

namespace ClassDecl

theorem reportsOnly_checkEach (c : ClassDecl) : (c.checkEach classes features).ReportsOnly
    ((c.context classes features).Reported c.places) :=
  (Feature.reportsOnly_checkEach _ _ c.features [] fun _ hf _ hspan =>
    List.mem_flatMap_of_mem hf hspan).bind (Diagnosed.reportsOnly_pure _)

theorem annotated_checkEach (c : ClassDecl) :
    ∀ f ∈ (c.checkEach classes features).value.features, f.Annotated :=
  Feature.annotated_checkEach _ _ c.features []

/-! ## The declarations of a program -/

theorem getElem?_checkFrom : ∀ (cs : List ClassDecl) (index k : Nat),
    (checkFrom classes features index cs).value[k]? =
      cs[k]?.map fun c => (c.checkAt classes features (index + k)).value
  | [], _, _ => rfl
  | c :: cs, index, 0 => rfl
  | c :: cs, index, k + 1 => by
    have hrest := getElem?_checkFrom cs (index + 1) k
    rw [Nat.add_right_comm, Nat.add_assoc] at hrest
    exact hrest

theorem mem_reports_checkFrom_iff {d : Diagnostic} : ∀ {cs : List ClassDecl} {index : Nat},
    d ∈ (checkFrom classes features index cs).reports ↔
      ∃ (k : Nat) (c : ClassDecl), cs[k]? = some c ∧
        d ∈ (c.checkAt classes features (index + k)).reports
  | [], _ => ⟨fun h => absurd h List.not_mem_nil, fun ⟨_, _, h, _⟩ => nomatch h⟩
  | c :: cs, index => by
    have hcons : (checkFrom classes features index (c :: cs)).reports =
        (c.checkAt classes features index).reports ++
          (checkFrom classes features (index + 1) cs).reports := by
      simp only [checkFrom, Diagnosed.reports_bind, Diagnosed.reports_pure, List.append_nil]
    rw [hcons, List.mem_append, mem_reports_checkFrom_iff]
    constructor
    · rintro (hd | ⟨k, e, he, hd⟩)
      · exact ⟨0, c, rfl, hd⟩
      · rw [Nat.add_right_comm, Nat.add_assoc] at hd
        exact ⟨k + 1, e, he, hd⟩
    · rintro ⟨k, e, he, hd⟩
      cases k with
      | zero =>
        cases he
        exact Or.inl hd
      | succ k =>
        rw [← Nat.add_assoc, Nat.add_right_comm] at hd
        exact Or.inr ⟨k, e, he, hd⟩

end ClassDecl

theorem value_checkAt_of_checks (h : p.Checks i c) :
    (c.checkAt p.classTable p.featureTable i).value =
      (c.checkEach p.classTable p.featureTable).value := by
  rw [ClassDecl.checkAt, if_pos ((Program.isChecked_iff h.1.1).mpr h)]

theorem checkAt_of_not_checks (hc : p.classes[i]? = some c) (h : ¬p.Checks i c) :
    c.checkAt p.classTable p.featureTable i = pure c := by
  rw [ClassDecl.checkAt, if_neg (fun hchecked => h ((Program.isChecked_iff hc).mp hchecked))]

theorem getElem?_classes_checked (p : Program) (i : Nat) : p.checked.value.classes[i]? =
    p.classes[i]?.map fun c => (c.checkAt p.classTable p.featureTable i).value := by
  have h : p.checked.value.classes[i]? =
      p.classes[i]?.map fun c => (c.checkAt p.classTable p.featureTable (0 + i)).value :=
    ClassDecl.getElem?_checkFrom p.classes 0 i
  rw [Nat.zero_add] at h
  exact h

/-- What the pass over the expressions reports, it reports on accepted and resolved classes. -/
theorem mem_reports_checked_iff {d : Diagnostic} : d ∈ p.checked.reports ↔
    ∃ i c, p.Checks i c ∧ d ∈ (c.checkEach p.classTable p.featureTable).reports := by
  rw [p.reports_checked, ClassDecl.mem_reports_checkFrom_iff]
  constructor
  · rintro ⟨i, c, hc, hd⟩
    rw [Nat.zero_add] at hd
    by_cases h : p.Checks i c
    · rw [ClassDecl.checkAt, if_pos ((Program.isChecked_iff hc).mpr h)] at hd
      exact ⟨i, c, h, hd⟩
    · rw [checkAt_of_not_checks hc h] at hd
      exact absurd hd List.not_mem_nil
  · rintro ⟨i, c, h, hd⟩
    refine ⟨i, c, h.1.1, ?_⟩
    rw [Nat.zero_add, ClassDecl.checkAt, if_pos ((Program.isChecked_iff h.1.1).mpr h)]
    exact hd

/-- A defect of types is found by the check of a declaration that is accepted and resolved, and is
reported at a place in it. -/
theorem exists_checks_of_typing {d : Diagnostic} (hd : d ∈ p.reports) (htyping : d.tier = .typing) :
    ∃ i c, p.Checks i c ∧ d ∈ (c.checkEach p.classTable p.featureTable).reports ∧
      ∃ span ∈ c.places, d.location? = some ⟨c.file, span⟩ := by
  rcases List.mem_append.mp hd with htables | hchecked
  · rcases List.mem_append.mp htables with hclasses | hfeatures
    · have htier : d.tier = .structural := ClassTable.reportsOnly_ofProgram p d hclasses
      rw [htier] at htyping
      cases htyping
    · have htier : d.tier = .declaration :=
        FeatureTable.reportsOnly_ofProgram p p.classTable d hfeatures
      rw [htier] at htyping
      cases htyping
  · obtain ⟨i, c, h, hd⟩ := mem_reports_checked_iff.mp hchecked
    exact ⟨i, c, h, hd, (ClassDecl.reportsOnly_checkEach c d hd).2⟩

/-! ## The program that comes out -/

/-- The initial values and bodies are checked as wholes. -/
theorem annotated_or_fresh_checked (h : p.Fresh) :
    ∀ f ∈ p.checked.value.features, f.Annotated ∨ f.Fresh := by
  intro f hf
  obtain ⟨d, hd, hf⟩ := List.mem_flatMap.mp hf
  obtain ⟨i, hi⟩ := List.mem_iff_getElem?.mp hd
  rw [getElem?_classes_checked] at hi
  obtain ⟨c, hc, rfl⟩ := Option.map_eq_some_iff.mp hi
  by_cases hchecks : p.Checks i c
  · rw [value_checkAt_of_checks hchecks] at hf
    exact Or.inl (ClassDecl.annotated_checkEach c f hf)
  · rw [checkAt_of_not_checks hc hchecks] at hf
    exact Or.inr (h f (List.mem_flatMap_of_mem (List.mem_of_getElem? hc) hf))

theorem annotated_or_fresh_analyze (h : p.Fresh) (limit : Option Nat) :
    ∀ f ∈ (p.analyze limit).program.features, f.Annotated ∨ f.Fresh := by
  intro f hf
  obtain ⟨m, -, hfeatures⟩ := features_analyze limit p
  rw [hfeatures] at hf
  rcases List.mem_append.mp hf with hchecked | hleft
  · exact annotated_or_fresh_checked h f (List.mem_of_mem_take hchecked)
  · exact Or.inr (h f (List.mem_of_mem_drop hleft))

theorem reports_eq_nil_of_ok {limit : Option Nat} (h : (p.analyze limit).ok = true) :
    p.reports = [] := by
  have hdiagnostics : Collector.keep limit p.reports = [] := by
    rw [← diagnostics_analyze]
    exact List.isEmpty_iff.mp h
  cases limit with
  | none => exact hdiagnostics
  | some k => exact (List.take_eq_nil_iff.mp hdiagnostics).resolve_left (Nat.succ_ne_zero k)

/-- Without a diagnostic, no limit is exceeded. -/
theorem halted_of_ok {limit : Option Nat} (h : (p.analyze limit).ok = true) :
    (p.analyze limit).halted = false := by
  rw [Bool.eq_false_iff, Ne, halted_analyze_iff, reports_eq_nil_of_ok h]
  rintro ⟨k, -, hlt⟩
  exact absurd hlt (Nat.not_lt_zero k)

theorem wellDeclared_of_reports_eq_nil (h : p.reports = []) : p.WellDeclared := by
  rw [Program.reports, List.append_assoc, List.append_eq_nil_iff, List.append_eq_nil_iff] at h
  exact ⟨h.1, h.2.1⟩

theorem reports_checkAt_eq_nil (h : p.reports = []) (hc : p.classes[i]? = some c) :
    (c.checkAt p.classTable p.featureTable i).reports = [] := by
  refine List.eq_nil_iff_forall_not_mem.mpr fun d hd => ?_
  have hmem : d ∈ p.checked.reports := by
    rw [p.reports_checked, ClassDecl.mem_reports_checkFrom_iff]
    exact ⟨i, c, hc, by rwa [Nat.zero_add]⟩
  have hreports : d ∈ p.reports := List.mem_append_right _ hmem
  rw [h] at hreports
  exact List.not_mem_nil hreports

/-- With nothing to report, all declarations are accepted and resolved. -/
theorem checks_of_reports_eq_nil (h : p.reports = []) (hc : p.classes[i]? = some c) :
    p.Checks i c := by
  rw [Program.reports, List.append_assoc, List.append_eq_nil_iff] at h
  have haccepts := ClassTable.accepts_of_reports_eq_nil h.1 hc
  exact ⟨haccepts, ClassTable.isResolved_of_reports_eq_nil h.1
    (Program.WellDeclared.contains_of_accepts haccepts)⟩

/-- Where an analysis writes types, under any limit. If it is not halted: at all nodes of the
declarations that are accepted and resolved, and at none of the others, in which it finds no defect
of types either. If it finds nothing at all: at all nodes. Even if it is halted: at all nodes of an
initial value or a body, or at none. It writes nothing else, and would do the same again. -/
theorem annotation_analyze (h : p.Fresh) (limit : Option Nat) :
    ((p.analyze limit).halted = false → ∀ i c, p.classes[i]? = some c →
      ∃ d, (p.analyze limit).program.classes[i]? = some d ∧
        (p.Checks i c → ∀ f ∈ d.features, f.Annotated) ∧
        (¬p.Checks i c → d = c ∧ ∀ f ∈ d.features, f.Fresh)) ∧
    (∀ d ∈ (p.analyze limit).diagnostics, d.tier = .typing →
      ∃ i c, p.Checks i c ∧ d ∈ (c.checkEach p.classTable p.featureTable).reports ∧
        ∃ span ∈ c.places, d.location? = some ⟨c.file, span⟩) ∧
    ((p.analyze limit).ok = true → (∀ i c, p.classes[i]? = some c → p.Checks i c) ∧
      ∀ f ∈ (p.analyze limit).program.features, f.Annotated) ∧
    (∀ f ∈ (p.analyze limit).program.features, f.Annotated ∨ f.Fresh) ∧
    (p.analyze limit).program.erase = p.erase ∧
    (p.analyze limit).program.analyze limit = p.analyze limit := by
  have hnode : (p.analyze limit).halted = false → ∀ (i : Nat) (c : ClassDecl),
      p.classes[i]? = some c → (p.analyze limit).program.classes[i]? =
        some (c.checkAt p.classTable p.featureTable i).value := by
    intro hhalted i c hc
    rw [analyze_of_not_halted hhalted, getElem?_classes_checked, hc]
    rfl
  have hannotated : ∀ i c, p.Checks i c →
      ∀ f ∈ (c.checkAt p.classTable p.featureTable i).value.features, f.Annotated := by
    intro i c hchecks
    rw [value_checkAt_of_checks hchecks]
    exact ClassDecl.annotated_checkEach c
  refine ⟨fun hhalted i c hc => ⟨_, hnode hhalted i c hc, hannotated i c, fun hnot => ?_⟩,
    fun d hd htyping => ?_, fun hok => ?_, annotated_or_fresh_analyze h limit,
    erase_analyze limit p, analyze_analyze limit p⟩
  · rw [checkAt_of_not_checks hc hnot]
    exact ⟨rfl, fun f hf => h f (List.mem_flatMap_of_mem (List.mem_of_getElem? hc) hf)⟩
  · rw [diagnostics_analyze] at hd
    exact exists_checks_of_typing (Collector.mem_of_mem_keep hd) htyping
  · have hreports := reports_eq_nil_of_ok hok
    have hhalted := halted_of_ok hok
    refine ⟨fun i c hc => checks_of_reports_eq_nil hreports hc, fun f hf => ?_⟩
    obtain ⟨d, hd, hf⟩ := List.mem_flatMap.mp hf
    obtain ⟨i, hi⟩ := List.mem_iff_getElem?.mp hd
    obtain ⟨c, hc⟩ : ∃ c, p.classes[i]? = some c := by
      rw [analyze_of_not_halted hhalted, getElem?_classes_checked] at hi
      obtain ⟨c, hc, -⟩ := Option.map_eq_some_iff.mp hi
      exact ⟨c, hc⟩
    rw [hnode hhalted i c hc] at hi
    cases hi
    exact hannotated i c (checks_of_reports_eq_nil hreports hc) f hf

/-- The correct program gets types everywhere, without and with a limit. -/
theorem annotation_analyze_sample : Sample.program.Fresh ∧
    (∀ f ∈ (Sample.program.analyze none).program.features, f.Annotated) ∧
    ∀ f ∈ (Sample.program.analyze (some 0)).program.features, f.Annotated := by
  have hfresh : Sample.program.Fresh := by
    show ∀ f ∈ Sample.program.features, ∀ note ∈ f.notes, note.type? = none
    decide +kernel
  obtain ⟨-, -, hnone, -⟩ := annotation_analyze hfresh none
  obtain ⟨-, -, hzero, -⟩ := annotation_analyze hfresh (some 0)
  exact ⟨hfresh, (hnone (by decide +kernel)).2, (hzero (by decide +kernel)).2⟩

end Cool
