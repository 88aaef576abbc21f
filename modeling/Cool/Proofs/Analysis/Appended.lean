import Cool.Proofs.Analysis.Agree
import Cool.Proofs.Signature.Known

/-!
# More classes behind those of a correct program

A correct program stays as it is when other classes are declared behind its own, whatever is wrong
with these: they may inherit from its classes and name them, but its classes do not know of them.
The tables of the larger program say the same about its classes, so these are checked to the same
types, and all that is reported stands in the files of the classes that were added.

* `Program.accepts_append`, `Program.accepts_of_append` : which declarations are accepted;
* `ClassTable.agreesOn_append`, `ClassTable.reportsOnly_append` : the hierarchy;
* `Program.agreesOn_append`, `FeatureTable.reportsOnly_append` : the features;
* `analyze_append` : the analysis.
-/

namespace Cool

open Diagnosed

variable {p q : Program} {a : String} {i : Nat} {c : ClassDecl} {info : ClassInfo}
  {l : List ClassInfo}

/-! ## Accepted declarations -/

namespace Program

theorem classes_append (p q : Program) : (p.append q).classes = p.classes ++ q.classes := rfl

theorem getElem?_append (hc : p.classes[i]? = some c) : (p.append q).classes[i]? = some c := by
  rw [classes_append, List.getElem?_append_left (List.getElem?_eq_some_iff.mp hc).1, hc]

/-- The declarations that are accepted are so still. -/
theorem accepts_append (q : Program) (hc : p.Accepts i c) : (p.append q).Accepts i c := by
  refine ⟨getElem?_append hc.1, hc.2.1, fun k d hk hd => hc.2.2 k d hk ?_⟩
  have hi := (List.getElem?_eq_some_iff.mp hc.1).1
  rwa [classes_append, List.getElem?_append_left (Nat.lt_trans hk hi)] at hd

/-- No other declarations with the names of these are accepted. -/
theorem accepts_of_append (hc : (p.append q).Accepts i c)
    (hcontains : p.classTable.contains c.name = true) : p.Accepts i c := by
  obtain ⟨info, hinfo⟩ := ClassTable.contains_iff.mp hcontains
  obtain ⟨hbasic | ⟨j, d, hd, rfl⟩, hname⟩ := ClassTable.find?_ofProgram.mp hinfo
  · have hreserved := hc.2.1
    rw [← hname, ClassTable.isReserved_of_mem_basic info hbasic] at hreserved
    cases hreserved
  · have hd' := accepts_append q hd
    have hfind := ClassTable.find?_of_accepts hd'
    rw [show d.name = c.name from hname, ClassTable.find?_of_accepts hc] at hfind
    obtain rfl : i = j := by
      have horigin := congrArg ClassInfo.origin (Option.some.inj hfind)
      cases horigin
      rfl
    rwa [Option.some.inj (hc.1.symm.trans hd'.1)]

end Program

namespace ClassTable

theorem find?_append (q : Program) (hinfo : p.classTable.find? a = some info) :
    (p.append q).classTable.find? a = some info := by
  obtain ⟨hbasic | ⟨i, c, hc, rfl⟩, hname⟩ := find?_ofProgram.mp hinfo
  · exact find?_ofProgram.mpr ⟨Or.inl hbasic, hname⟩
  · exact find?_ofProgram.mpr ⟨Or.inr ⟨i, c, Program.accepts_append q hc, rfl⟩, hname⟩

/-! ## The class table -/

section Sound

variable (h : (ofProgram p).reports = []) (q)
include h

theorem exists_isChain_append (ha : p.classTable.contains a = true) :
    ∃ l, p.classTable.IsChain a l ∧ (p.append q).classTable.IsChain a l := by
  obtain ⟨l, hl⟩ := (sound_ofProgram p).chain a (isResolved_of_reports_eq_nil h ha)
  exact ⟨l, hl, hl.of_entries fun info hinfo => find?_append q (hl.entries info hinfo)⟩

/-- The classes of the program still lead to the root. -/
theorem isResolved_append (ha : p.classTable.contains a = true) :
    (p.append q).classTable.isResolved a = true := by
  have hr := isResolved_of_reports_eq_nil h ha
  obtain ⟨l, hl, hl'⟩ := exists_isChain_append q h ha
  obtain ⟨info, hinfo⟩ := contains_iff.mp ha
  refine isResolved_ofProgram_iff.mpr ⟨contains_of_find? (find?_append q hinfo),
    hl'.inherits_object (sound_ofProgram _).root, fun b info hab hb => ?_⟩
  have hab : p.classTable.Inherits a b := hl.inherits_iff.mpr (hl'.inherits_iff.mp hab)
  obtain ⟨found, hfound⟩ := contains_iff.mp
    (contains_of_isResolved ((sound_ofProgram p).isResolved_of_inherits hr hab))
  cases hb.symm.trans (find?_append q hfound)
  exact (isResolved_ofProgram_iff.mp hr).legal b info hab hfound

/-- The larger table says the same about the classes of the program. -/
theorem agreesOn_append : p.classTable.AgreesOn (fun a => p.classTable.contains a = true)
    (p.append q).classTable where
  basic _ ha := contains_of_isResolved (isResolved_of_mem_basic ha)
  contains a ha := by
    rw [ha, contains_of_isResolved (isResolved_append q h ha)]
  resolved a ha := by
    rw [isResolved_append q h ha, isResolved_of_reports_eq_nil h ha]
  ancestors a ha := by
    obtain ⟨l, hl, hl'⟩ := exists_isChain_append q h ha
    rw [ancestors_eq_of_isChain hl, ancestors_eq_of_isChain hl']
  closed a ha info hinfo := by
    obtain ⟨l, hl, -⟩ := exists_isChain_append q h ha
    rw [ancestors_eq_of_isChain hl] at hinfo
    exact contains_of_find? (hl.entries info hinfo)
  others _ hnot := Bool.eq_false_iff.mpr hnot

variable {q}

/-- What is accepted and not in the table of the program was added. -/
theorem mem_of_accepts_append (hc : (p.append q).Accepts i c)
    (hnot : ¬p.classTable.contains c.name = true) : c ∈ q.classes := by
  have hmem : c ∈ p.classes ++ q.classes := List.mem_of_getElem? hc.1
  refine (List.mem_append.mp hmem).resolve_left fun hp => hnot ?_
  obtain ⟨j, hj⟩ := List.mem_iff_getElem?.mp hp
  exact contains_of_find? (find?_of_accepts (accepts_of_reports_eq_nil h hj))

/-- A class of the larger table that is not resolved was added. -/
theorem exists_mem_of_not_isResolved (hinfo : info ∈ (p.append q).classTable.classes)
    (hr : ¬(p.append q).classTable.isResolved info.name = true) :
    ∃ c ∈ q.classes, info.file = c.file := by
  rcases mem_classes_ofProgram.mp hinfo with hbasic | ⟨i, c, hc, rfl⟩
  · have hmem : ∀ info ∈ basic.classes, info.name ∈ Names.basic := by decide
    exact absurd (isResolved_of_mem_basic (hmem info hbasic)) hr
  · refine ⟨c, mem_of_accepts_append h hc fun hcontains => hr ?_, rfl⟩
    exact isResolved_append q h hcontains

omit h in
theorem reports_declareAll_append : ∀ (cs ds : List ClassDecl) (t : ClassTable) (index : Nat),
    (t.declareAll index (cs ++ ds)).reports = (t.declareAll index cs).reports ++
      ((t.declareAll index cs).value.declareAll (index + cs.length) ds).reports
  | [], _, _, _ => rfl
  | c :: cs, ds, t, index => by
    have hrest := reports_declareAll_append cs ds (t.declare index c).value (index + 1)
    rw [Nat.add_assoc, Nat.add_comm 1] at hrest
    simp only [List.cons_append, declareAll, Diagnosed.reports_bind, Diagnosed.value_bind, hrest,
      List.append_assoc, List.length_cons]

theorem reportsOnly_declaredIn_append :
    (declaredIn (p.append q)).ReportsOnly fun d => ∃ c ∈ q.classes, d.file? = some c.file := by
  intro d hd
  rw [reports_ofProgram, List.append_eq_nil_iff] at h
  have hsplit : (declaredIn (p.append q)).reports = (declaredIn p).reports ++
      ((declaredIn p).value.declareAll (0 + p.classes.length) q.classes).reports :=
    reports_declareAll_append p.classes q.classes basic 0
  rw [hsplit, h.1, List.nil_append] at hd
  obtain ⟨c, hc, defect, span, rfl⟩ := reportsOnly_declareAll q.classes _ _ d hd
  exact ⟨c, hc, rfl⟩

theorem reportsOnly_checkedIn_append :
    (checkedIn (p.append q)).ReportsOnly fun d => ∃ c ∈ q.classes, d.file? = some c.file := by
  intro d hd
  obtain ⟨info, hinfo, hundefined, defect, span, rfl⟩ := reportsOnly_findUndefinedParents _ d hd
  have hunresolved : info.name ∈ (checkedIn (p.append q)).value.unresolved :=
    mem_unresolved_checkedIn.mpr (Or.inr ⟨info, hinfo, hundefined, rfl⟩)
  obtain ⟨hclasses, hgrow, -⟩ := exists_settled_ofProgram (p.append q)
  obtain ⟨c, hc, heq⟩ := exists_mem_of_not_isResolved h (hclasses ▸ hinfo)
    fun hr => (isResolved_iff.mp hr).2 (hgrow hunresolved)
  exact ⟨c, hc, congrArg some heq⟩

/-- The larger program starts where the program starts. -/
theorem reports_findEntry_append :
    ((checkedIn (p.append q)).value.findEntry (p.append q)).reports = [] := by
  simp only [reports_ofProgram, List.append_eq_nil_iff] at h
  obtain ⟨-, -, hentry, -⟩ := h
  cases hmain : (checkedIn p).value.mainDecl? p with
  | none =>
    rw [findEntry, hmain] at hentry
    cases hentry
  | some c =>
    obtain ⟨⟨i, hc⟩, hname⟩ := FeatureTable.mainDecl?_eq_some_iff.mp hmain
    have hmain' : (checkedIn (p.append q)).value.mainDecl? (p.append q) = some c :=
      FeatureTable.mainDecl?_eq_some_iff.mpr ⟨⟨i, Program.accepts_append q hc⟩, hname⟩
    rw [findEntry, hmain] at hentry
    rw [findEntry, hmain']
    exact hentry

theorem reportsOnly_findCycles_append : (checkedIn (p.append q)).value.findCycles.ReportsOnly
    fun d => ∃ c ∈ q.classes, d.file? = some c.file := by
  intro d hd
  obtain ⟨info, hinfo, hwell, rfl⟩ := reportsOnly_findCycles (p.append q) d hd
  have hclasses := (exists_settled_ofProgram (p.append q)).1
  obtain ⟨c, hc, heq⟩ := exists_mem_of_not_isResolved h (hclasses ▸ hinfo) fun hr =>
    hwell ((isResolved_ofProgram_iff.mp hr).of_classes_eq hclasses.symm)
  exact ⟨c, hc, congrArg some heq⟩

/-- Defects of the larger hierarchy are reported in the files of the classes that were added. -/
theorem reportsOnly_append :
    (ofProgram (p.append q)).ReportsOnly fun d => ∃ c ∈ q.classes, d.file? = some c.file := by
  intro d hd
  simp only [reports_ofProgram, reports_findEntry_append h, List.nil_append, List.mem_append] at hd
  rcases hd with hd | hd | hd
  · exact reportsOnly_declaredIn_append h d hd
  · exact reportsOnly_checkedIn_append h d hd
  · exact reportsOnly_findCycles_append h d hd

end Sound

end ClassTable

/-! ## Types that a program knows -/

section Known

variable {known : String → Prop}

theorem Ty.known_ofName (h : a = Names.selfType ∨ known a) : (Ty.ofName a).Known known := by
  unfold Ty.ofName
  split_ifs with hself
  · trivial
  · exact h.resolve_left hself

/-- The types that a class declares are those in its signatures. -/
theorem ClassDecl.known_signatures (h : ∀ f ∈ c.features, f.Known known) :
    c.signatures.Known known := by
  refine ⟨fun x hx => ?_, fun x hx => ?_⟩
  · obtain ⟨a, ha, rfl⟩ := List.mem_map.mp hx
    obtain ⟨f, hf, ha⟩ := List.mem_filterMap.mp ha
    cases f with
    | attr b =>
      cases ha
      exact Ty.known_ofName (h _ hf)
    | method m => cases ha
  · obtain ⟨m, hm, rfl⟩ := List.mem_map.mp hx
    obtain ⟨f, hf, hm⟩ := List.mem_filterMap.mp hm
    cases f with
    | attr b => cases hm
    | method n =>
      cases hm
      obtain ⟨hformals, hreturn⟩ := h _ hf
      refine ⟨Ty.known_ofName hreturn, fun g hg => ?_⟩
      obtain ⟨formal, hformal, rfl⟩ := List.mem_map.mp hg
      exact Ty.known_ofName (hformals formal hformal)

end Known

/-! ## The feature table -/

section WellDeclared

variable (h : p.WellDeclared) (q)
include h

theorem Program.WellDeclared.known_features (hc : p.Accepts i c) :
    ∀ f ∈ c.features, f.Known fun a => p.classTable.contains a = true := by
  have hdeclared := h.wellDeclared_class hc
  intro f hf
  cases f with
  | attr a => exact (hdeclared.attributes a (List.mem_filterMap.mpr ⟨_, hf, rfl⟩)).type
  | method m =>
    have hm := hdeclared.methods m (List.mem_filterMap.mpr ⟨_, hf, rfl⟩)
    exact ⟨fun g hg => Or.inr (hm.formals g hg).contains, hm.returnType⟩

/-- The tables of the larger program say the same about the classes of the smaller one. -/
theorem Program.agreesOn_append :
    p.AgreesOn (fun a => p.classTable.contains a = true) (p.append q) where
  classes := ClassTable.agreesOn_append q h.classes
  accepts c hc := by
    refine ⟨?_, ?_⟩
    · rintro ⟨i, hi⟩
      exact ⟨i, accepts_append q hi⟩
    · rintro ⟨i, hi⟩
      exact ⟨i, accepts_of_append hi hc⟩
  types i c hc _ := h.known_features hc
  signatures a own _ hown := by
    rcases FeatureTable.find?_ofProgram_iff.mp hown with hbasic | ⟨i, c, hc, rfl, hr, -⟩
    · have hnames := (ClassTable.agreesOn_append q h.classes).basic
      exact (FeatureTable.known_basic hnames).of_find? hbasic
    · rw [FeatureTable.find?_of_reports_eq_nil h.features hc hr] at hown
      cases hown
      exact ClassDecl.known_signatures (h.known_features hc)

/-- Defects of features are reported in the files of the classes that were added. -/
theorem FeatureTable.reportsOnly_append :
    (ofProgram (p.append q) (p.append q).classTable).ReportsOnly
      fun d => ∃ c ∈ q.classes, d.file? = some c.file := by
  intro d hd
  obtain ⟨index, -, hd⟩ := List.mem_flatMap.mp hd
  obtain ⟨r, hr, hd⟩ := List.mem_flatMap.mp hd
  obtain ⟨i, c, hc, rfl⟩ := mem_reports_iff.mp (List.mem_filter.mp hr).1
  by_cases hknown : p.classTable.contains c.name = true
  · have hp := Program.accepts_of_append hc hknown
    rw [(p.agreesOn_append q h).checkClass_eq hp hknown] at hd
    have hnil : (p.featureTable.checkClass p.classTable
        (p.classTable.isResolved c.name) c).reports = [] := by
      have hdeclared := reports_ofProgram_eq_nil_iff.mp h.features i c hp
      rw [checkClass_eq_pure_iff.mpr ⟨hdeclared, rfl⟩]
      rfl
    rw [hnil] at hd
    cases hd
  · obtain ⟨defect, span, -, rfl⟩ := reportsOnly_checkClass c d hd
    exact ⟨c, ClassTable.mem_of_accepts_append h.classes hc hknown, rfl⟩

end WellDeclared

/-! ## The analysis -/

/-- A declaration of a correct program is checked in the larger one as before, without a report. -/
theorem checkAt_append (h : p.reports = []) (q : Program) (hc : p.classes[i]? = some c) :
    c.checkAt (p.append q).classTable (p.append q).featureTable i =
        c.checkAt p.classTable p.featureTable i ∧
      (c.checkAt p.classTable p.featureTable i).reports = [] := by
  have hdeclared := wellDeclared_of_reports_eq_nil h
  have haccepts := hdeclared.accepts hc
  have hnil := reports_checkAt_eq_nil h hc
  refine ⟨?_, hnil⟩
  exact ((p.agreesOn_append q hdeclared).checkAt haccepts (Program.accepts_append q haccepts)
    (ClassTable.contains_of_find? (ClassTable.find?_of_accepts haccepts)) (Or.inr hnil)).1

/-- Defects of types are reported in the files of the classes that were added. -/
theorem reportsOnly_checked_append (h : p.reports = []) (q : Program) :
    (p.append q).checked.ReportsOnly fun d => ∃ c ∈ q.classes, d.file? = some c.file := by
  intro d hd
  rw [Program.reports_checked, ClassDecl.mem_reports_checkFrom_iff] at hd
  obtain ⟨i, c, hc, hd⟩ := hd
  rw [Nat.zero_add] at hd
  by_cases hi : i < p.classes.length
  · obtain ⟨e, he⟩ : ∃ e, p.classes[i]? = some e := ⟨_, List.getElem?_eq_getElem hi⟩
    cases hc.symm.trans (Program.getElem?_append he)
    obtain ⟨heq, hnil⟩ := checkAt_append h q he
    rw [heq, hnil] at hd
    cases hd
  · rw [Program.classes_append, List.getElem?_append_right (Nat.le_of_not_lt hi)] at hc
    refine ⟨c, List.mem_of_getElem? hc, ?_⟩
    unfold ClassDecl.checkAt at hd
    split_ifs at hd
    · obtain ⟨-, span, -, hlocation⟩ := ClassDecl.reportsOnly_checkEach c d hd
      rw [Diagnostic.file?, hlocation]
      rfl
    · cases hd

/-- Whatever classes are declared behind those of a correct program: its own get the same types as
before, and all that is reported stands in the files of the others. These may be declared as they
like; a class with a name of the program is refused, and reported where it stands. -/
theorem analyze_append (hok : (p.analyze none).ok = true) (q : Program) :
    ((p.append q).analyze none).program.classes.take p.classes.length =
        (p.analyze none).program.classes ∧
      ∀ d ∈ ((p.append q).analyze none).diagnostics, ∃ c ∈ q.classes, d.file? = some c.file := by
  have h := reports_eq_nil_of_ok hok
  have hdeclared := wellDeclared_of_reports_eq_nil h
  rw [analyze_none, analyze_none]
  refine ⟨List.ext_getElem? fun i => ?_, fun d hd => ?_⟩
  · rw [List.getElem?_take, getElem?_classes_checked, getElem?_classes_checked]
    split_ifs with hi
    · obtain ⟨c, hc⟩ : ∃ c, p.classes[i]? = some c := ⟨_, List.getElem?_eq_getElem hi⟩
      rw [hc, Program.getElem?_append hc, Option.map_some, Option.map_some,
        (checkAt_append h q hc).1]
    · rw [List.getElem?_eq_none (Nat.le_of_not_lt hi), Option.map_none]
  · rcases List.mem_append.mp hd with hd | hd
    · rcases List.mem_append.mp hd with hd | hd
      · exact ClassTable.reportsOnly_append hdeclared.classes d hd
      · exact FeatureTable.reportsOnly_append q hdeclared d hd
    · exact reportsOnly_checked_append h q d hd

/-- Classes of another file: an heir of a class of the program with an attribute of a type that
nothing declares, a class that inherits from itself, and one with a reserved name. -/
def Sample.additions : Program :=
  ⟨[⟨"D", "A", [.attr ⟨"y", "E", none, default⟩], "d.cl", default⟩,
    ⟨"F", "F", [], "d.cl", default⟩, ⟨"Int", "Object", [], "d.cl", default⟩]⟩

theorem analyze_append_additions : (Sample.program.analyze none).ok = true ∧
    ((Sample.program.append Sample.additions).analyze none).program.classes.take
        Sample.program.classes.length = (Sample.program.analyze none).program.classes ∧
    ∀ d ∈ ((Sample.program.append Sample.additions).analyze none).diagnostics,
      ∃ c ∈ Sample.additions.classes, d.file? = some c.file := by
  have hok : (Sample.program.analyze none).ok = true := by decide +kernel
  exact ⟨hok, analyze_append hok Sample.additions⟩

example : ((Sample.program.append Sample.additions).analyze none).diagnostics.length = 3 := by
  decide +kernel

end Cool
