import Cool.Proofs.Analysis.Agree
import Cool.Proofs.Analysis.Reports

/-!
# The order of the declarations

Programs with the same classes, no two of one name, have the same analysis: whatever the passes find
out about a class depends on the declarations alone and not on their order. Only the reports on the
hierarchy are in another order, and a cycle of inheritance may be reported at another class of it.

* `Program.agreesOn_of_perm` : the tables of the two programs agree about all classes;
* `Diagnostic.isCycle`, `perm_acyclicReports` : what is reported on the hierarchy;
* `analyze_perm` : the analyses of the two programs.
-/

namespace Cool

variable {p q : Program} {i j : Nat} {c : ClassDecl} {d : Diagnostic}

/-! ## Tables that agree -/

section Perm

variable (hperm : p.classes.Perm q.classes) (hnames : (p.classes.map ClassDecl.name).Nodup)
include hperm hnames

theorem Program.agreesOn_of_perm : p.AgreesOn (fun _ => True) q where
  classes :=
    have h := ClassTable.sameClasses_ofProgram hperm hnames
    { basic := fun _ _ => trivial
      contains := fun a _ => congrFun h.contains_eq a
      resolved := fun a _ => congrFun (ClassTable.isResolved_eq_of_perm hperm hnames) a
      ancestors := fun a _ => h.map_name_ancestors a
      closed := fun _ _ _ _ => trivial
      others := fun _ hnot => absurd trivial hnot }
  accepts _ _ := (ClassTable.exists_accepts_iff hperm hnames).symm
  types _ _ _ _ f _ := f.known_true
  signatures _ _ _ _ := ⟨fun a _ => a.type.known_true,
    fun m _ => ⟨m.returnType.known_true, fun f _ => f.type.known_true⟩⟩

/-! ## Single classes -/

/-- A declaration comes out of the check the same, wherever it stands. -/
theorem checkAt_eq_of_perm (hp : p.classes[i]? = some c) (hq : q.classes[j]? = some c) :
    c.checkAt q.classTable q.featureTable j = c.checkAt p.classTable p.featureTable i := by
  have hnames' := ClassTable.nodup_of_perm hperm hnames
  by_cases hr : ClassTable.isReserved c.name = false
  · have h := Program.agreesOn_of_perm hperm hnames
    exact (h.checkAt ((ClassTable.accepts_iff_of_nodup hnames).mpr ⟨hp, hr⟩)
      ((ClassTable.accepts_iff_of_nodup hnames').mpr ⟨hq, hr⟩) trivial (Or.inl fun _ => trivial)).1
  · rw [checkAt_of_not_checks hp fun hchecks => hr hchecks.1.2.1,
      checkAt_of_not_checks hq fun hchecks => hr hchecks.1.2.1]

/-- The same is reported on each class. -/
theorem reports_eq_of_perm (a : String) : q.declarationReports a = p.declarationReports a ∧
    q.typingReports a = p.typingReports a := by
  have haccepts : ∀ c, (∃ j, q.Accepts j c) ↔ ∃ i, p.Accepts i c := fun c =>
    ClassTable.exists_accepts_iff hperm hnames
  by_cases ha : ∃ c i, p.Accepts i c ∧ c.name = a
  · obtain ⟨c, i, hp, rfl⟩ := ha
    obtain ⟨j, hq⟩ := (haccepts c).mpr ⟨i, hp⟩
    rw [Program.declarationReports_of_accepts hp, Program.declarationReports_of_accepts hq,
      Program.typingReports_of_accepts hp, Program.typingReports_of_accepts hq,
      (Program.agreesOn_of_perm hperm hnames).checkClass_eq hp trivial,
      checkAt_eq_of_perm hperm hnames hp.1 hq.1]
    exact ⟨rfl, rfl⟩
  · have hp : FeatureTable.declaration? p.classTable p a = none :=
      Program.declaration?_eq_none fun i c hc hname => ha ⟨c, i, hc, hname⟩
    have hq : FeatureTable.declaration? q.classTable q a = none := by
      refine Program.declaration?_eq_none fun j c hc hname => ha ?_
      obtain ⟨i, hi⟩ := (haccepts c).mp ⟨j, hc⟩
      exact ⟨c, i, hi, hname⟩
    simp only [Program.declarationReports, Program.typingReports, hp, hq, and_self]

end Perm

/-! ## The hierarchy -/

/-- Whether a cycle of inheritance is reported. -/
def Diagnostic.isCycle (d : Diagnostic) : Bool :=
  match d.cause with
  | .structural (.inheritanceCycle _) => true
  | _ => false

namespace ClassTable

/-- What is reported on the hierarchy before the walks. -/
def acyclicReports (p : Program) : List Diagnostic :=
  (declaredIn p).reports ++ ((checkedIn p).reports ++ (findEntry (checkedIn p).value p).reports)

theorem reports_eq_acyclicReports (p : Program) : (ofProgram p).reports =
    acyclicReports p ++ (checkedIn p).value.findCycles.reports := by
  rw [reports_ofProgram, acyclicReports, List.append_assoc, List.append_assoc]

theorem isCycle_of_mem_findCycles (hd : d ∈ (checkedIn p).value.findCycles.reports) :
    d.isCycle = true := by
  obtain ⟨info, -, -, rfl⟩ := reportsOnly_findCycles p d hd
  rfl

theorem isCycle_of_mem_findEntry (t : ClassTable) (p : Program) :
    (t.findEntry p).ReportsOnly fun d => d.isCycle = false := by
  unfold findEntry
  split
  · exact Diagnosed.reportsOnly_report rfl
  · split
    · exact Diagnosed.reportsOnly_report rfl
    · split_ifs
      · exact Diagnosed.reportsOnly_pure ()
      · exact Diagnosed.reportsOnly_report rfl

section Perm

variable (hnames : (p.classes.map ClassDecl.name).Nodup)
include hnames

theorem isCycle_of_mem_acyclicReports (hd : d ∈ acyclicReports p) : d.isCycle = false := by
  rcases List.mem_append.mp hd with hd | hd
  · rw [reports_declaredIn_of_nodup hnames, List.mem_flatMap] at hd
    obtain ⟨c, -, hd⟩ := hd
    unfold refusal at hd
    split_ifs at hd
    · exact List.mem_singleton.mp hd ▸ rfl
    · exact List.mem_singleton.mp hd ▸ rfl
    · cases hd
  · rcases List.mem_append.mp hd with hd | hd
    · rw [checkedIn, reports_findUndefinedParents, List.mem_filterMap] at hd
      obtain ⟨info, -, hd⟩ := hd
      obtain ⟨parent, -, rfl⟩ := Option.map_eq_some_iff.mp hd
      rfl
    · exact isCycle_of_mem_findEntry _ p d hd

variable (hperm : p.classes.Perm q.classes)
include hperm

/-- Nothing but the order depends on the order. -/
theorem perm_acyclicReports : (acyclicReports p).Perm (acyclicReports q) := by
  have hmain : (checkedIn q).value.mainDecl? q = (checkedIn p).value.mainDecl? p := by
    refine Option.ext fun c => ?_
    rw [FeatureTable.mainDecl?_eq_some_iff, FeatureTable.mainDecl?_eq_some_iff,
      exists_accepts_iff hperm hnames]
  have hentry : (checkedIn q).value.findEntry q = (checkedIn p).value.findEntry p := by
    rw [findEntry, findEntry, hmain]
  rw [acyclicReports, acyclicReports, hentry]
  exact (perm_reports_declaredIn hperm hnames).append
    ((perm_reports_checkedIn hperm hnames).append_right _)

end Perm

end ClassTable

/-! ## The analyses -/

/-- The results of two programs are the same but for the order of what is reported on the hierarchy
and the classes that cycles are reported at. -/
structure Program.SameResults (p q : Program) : Prop where
  accepts : ∀ c, (∃ j, q.Accepts j c) ↔ ∃ i, p.Accepts i c
  contains : ∀ a, (q.analyze none).classes.contains a = (p.analyze none).classes.contains a
  isResolved : ∀ a, (q.analyze none).classes.isResolved a = (p.analyze none).classes.isResolved a
  parentOf? : ∀ a, (q.analyze none).classes.parentOf? a = (p.analyze none).classes.parentOf? a
  lookupMethod? : ∀ a name,
    (q.analyze none).features.lookupMethod? (q.analyze none).classes a name =
      (p.analyze none).features.lookupMethod? (p.analyze none).classes a name
  lookupAttribute? : ∀ a name,
    (q.analyze none).features.lookupAttribute? (q.analyze none).classes a name =
      (p.analyze none).features.lookupAttribute? (p.analyze none).classes a name
  visibleAttributes : ∀ a,
    (q.analyze none).features.visibleAttributes (q.analyze none).classes a =
      (p.analyze none).features.visibleAttributes (p.analyze none).classes a
  /-- A declaration gets the same types at its position in either program. -/
  annotations : ∀ (i j : Nat) (c : ClassDecl), p.classes[i]? = some c → q.classes[j]? = some c →
    ∃ d, (p.analyze none).program.classes[i]? = some d ∧
      (q.analyze none).program.classes[j]? = some d
  /-- The diagnostics of declarations and types are lists of the classes, one behind the other. -/
  classwise : ∀ r ∈ [p, q],
    (r.analyze none).inTier .declaration =
        r.classes.flatMap (fun c => r.declarationReports c.name) ∧
      (r.analyze none).inTier .typing = r.classes.flatMap (fun c => r.typingReports c.name)
  declarationReports : ∀ a, q.declarationReports a = p.declarationReports a
  typingReports : ∀ a, q.typingReports a = p.typingReports a
  structural : (((p.analyze none).inTier .structural).filter fun d => !d.isCycle).Perm
    (((q.analyze none).inTier .structural).filter fun d => !d.isCycle)
  cycles : ((q.analyze none).inTier .structural).countP Diagnostic.isCycle =
    ((p.analyze none).inTier .structural).countP Diagnostic.isCycle

theorem structural_analyze (hnames : (p.classes.map ClassDecl.name).Nodup) :
    (((p.analyze none).inTier .structural).filter fun d => !d.isCycle) =
        ClassTable.acyclicReports p ∧
      ((p.analyze none).inTier .structural).countP Diagnostic.isCycle =
        (ClassTable.checkedIn p).value.findCycles.reports.length := by
  have hacyclic : ∀ d ∈ ClassTable.acyclicReports p, d.isCycle = false := fun d hd =>
    ClassTable.isCycle_of_mem_acyclicReports hnames hd
  have hcyclic : ∀ d ∈ (ClassTable.checkedIn p).value.findCycles.reports, d.isCycle = true :=
    fun d hd => ClassTable.isCycle_of_mem_findCycles hd
  rw [(inTier_analyze p).1, ClassTable.reports_eq_acyclicReports, List.filter_append,
    List.countP_append]
  refine ⟨?_, ?_⟩
  · rw [List.filter_eq_self.mpr fun d hd => by simp [hacyclic d hd],
      List.filter_eq_nil_iff.mpr fun d hd => by simp [hcyclic d hd], List.append_nil]
  · rw [List.countP_eq_zero.mpr fun d hd => by simp [hacyclic d hd],
      List.countP_eq_length.mpr hcyclic, Nat.zero_add]

/-- The order in which classes of different names are declared makes no difference to what the
analysis finds out about them. -/
theorem analyze_perm (hperm : p.classes.Perm q.classes)
    (hnames : (p.classes.map ClassDecl.name).Nodup) : p.SameResults q := by
  have h := Program.agreesOn_of_perm hperm hnames
  have hclasses := ClassTable.sameClasses_ofProgram hperm hnames
  have hnames' := ClassTable.nodup_of_perm hperm hnames
  obtain ⟨hacyclic, hcycles⟩ := structural_analyze hnames
  obtain ⟨hacyclic', hcycles'⟩ := structural_analyze hnames'
  have hclasswise : ∀ r : Program, (r.classes.map ClassDecl.name).Nodup →
      (r.analyze none).inTier .declaration =
          r.classes.flatMap (fun c => r.declarationReports c.name) ∧
        (r.analyze none).inTier .typing =
          r.classes.flatMap (fun c => r.typingReports c.name) := by
    intro r hr
    obtain ⟨-, hdeclaration, htyping⟩ := inTier_analyze r
    rw [hdeclaration, htyping]
    exact ⟨r.reports_featureTable hr, r.reports_checked_eq_flatMap hr⟩
  refine
    { accepts := fun c => ClassTable.exists_accepts_iff hperm hnames
      contains := fun a => ?_, isResolved := fun a => ?_, parentOf? := fun a => ?_
      lookupMethod? := fun a name => ?_, lookupAttribute? := fun a name => ?_
      visibleAttributes := fun a => ?_, annotations := fun i j c hp hq => ?_
      classwise := List.forall_mem_cons.mpr
        ⟨hclasswise p hnames, List.forall_mem_singleton.mpr (hclasswise q hnames')⟩
      declarationReports := fun a => (reports_eq_of_perm hperm hnames a).1
      typingReports := fun a => (reports_eq_of_perm hperm hnames a).2
      structural := ?_, cycles := ?_ }
  · rw [analyze_none, analyze_none]
    exact congrFun hclasses.contains_eq a
  · rw [analyze_none, analyze_none]
    exact congrFun (ClassTable.isResolved_eq_of_perm hperm hnames) a
  · rw [analyze_none, analyze_none]
    exact congrFun hclasses.parentOf?_eq a
  · rw [analyze_none, analyze_none]
    exact h.features.lookupMethod?_eq h.classes trivial
  · rw [analyze_none, analyze_none]
    exact h.features.lookupAttribute?_eq h.classes trivial
  · rw [analyze_none, analyze_none]
    exact h.features.visibleAttributes_eq h.classes trivial
  · rw [analyze_none, analyze_none, getElem?_classes_checked, getElem?_classes_checked, hp, hq]
    have hcheck := checkAt_eq_of_perm hperm hnames hp hq
    exact ⟨_, rfl, congrArg (fun x : Diagnosed ClassDecl => some x.value) hcheck⟩
  · rw [hacyclic, hacyclic']
    exact ClassTable.perm_acyclicReports hnames hperm
  · rw [hcycles, hcycles']
    exact ClassTable.length_reports_findCycles hperm hnames

/-- Two classes that inherit from each other, and one with a type and a parent that nothing
declares. -/
def Sample.entangled : Program :=
  ⟨[⟨"A", "B", [], "", default⟩, ⟨"B", "A", [], "", default⟩,
    ⟨"C", "D", [.attr ⟨"x", "E", none, default⟩], "", default⟩]⟩

theorem analyze_perm_entangled :
    Sample.entangled.classes.Perm Sample.entangled.classes.reverse ∧
      (Sample.entangled.classes.map ClassDecl.name).Nodup ∧
      Sample.entangled.SameResults ⟨Sample.entangled.classes.reverse⟩ := by
  have hperm := (List.reverse_perm Sample.entangled.classes).symm
  have hnames : (Sample.entangled.classes.map ClassDecl.name).Nodup := by decide
  exact ⟨hperm, hnames, analyze_perm hperm hnames⟩

-- the cycle is reported at the class that is declared first
example : (Sample.entangled.analyze none).diagnostics ≠
    (Program.analyze none ⟨Sample.entangled.classes.reverse⟩).diagnostics := by
  decide +kernel

end Cool
