import Cool.Proofs.Hierarchy.Walk

/-!
# The class table of a program

The four steps that build the table, put together: it holds the basic classes and the accepted
declarations, and its resolved classes have chains of resolved classes up to `Object`.

* `mem_classes_ofProgram`, `find?_ofProgram` : the classes of the table;
* `sound_ofProgram` : the table is sound;
* `Inherits.eq_of_mem_values` : nothing inherits from the classes of values;
* `accepts_of_reports_eq_nil`, `isResolved_of_reports_eq_nil` : in a table that is built without a
  report, every declaration is accepted and every class is resolved.
-/

namespace Cool

namespace ClassTable

variable {p : Program} {a b : String} {info : ClassInfo}

/-! ## The steps -/

/-- The table once all declarations have been accepted or refused. -/
def declaredIn (p : Program) : Diagnosed ClassTable :=
  basic.declareAll 0 p.classes

/-- The table once the undefined parents are found. -/
def checkedIn (p : Program) : Diagnosed ClassTable :=
  (declaredIn p).value.findUndefinedParents

theorem reports_ofProgram (p : Program) :
    (ofProgram p).reports = (declaredIn p).reports ++ ((checkedIn p).reports ++
      ((findEntry (checkedIn p).value p).reports ++ (checkedIn p).value.findCycles.reports)) := rfl

/-! ## The basic classes -/

theorem isReserved_of_mem_basic : ∀ info ∈ basic.classes, isReserved info.name = true := by
  decide

theorem contains_basic_eq_false (h : isReserved a = false) : basic.contains a = false := by
  rw [Bool.eq_false_iff, Ne, contains_iff_mem, List.mem_map]
  rintro ⟨info, hinfo, rfl⟩
  rw [isReserved_of_mem_basic info hinfo] at h
  cases h

/-- The basic classes, and what they have for parents. -/
theorem parent_of_mem_basic : ∀ info ∈ basic.classes,
    info.isBasic = true ∧ (info.parent = none ∧ info.name = Names.object ∨
      info.parent = some Names.object) := by
  decide

theorem exists_object : ∃ info ∈ basic.classes, info.name = Names.object ∧ info.parent = none := by
  decide

theorem exists_mem_basic : ∀ a ∈ Names.basic, ∃ info ∈ basic.classes, info.name = a := by
  decide

/-! ## The classes of the table -/

theorem nodup_declaredIn (p : Program) :
    ((declaredIn p).value.classes.map ClassInfo.name).Nodup :=
  nodup_declareAll p.classes basic 0 (by decide)

theorem mem_classes_declaredIn :
    info ∈ (declaredIn p).value.classes ↔
      info ∈ basic.classes ∨ ∃ i c, p.Accepts i c ∧ info = c.info i := by
  rw [declaredIn, mem_classes_declareAll]
  simp only [Nat.zero_add]
  refine or_congr_right ⟨?_, ?_⟩
  · rintro ⟨i, c, ⟨hc, -⟩, hinfo⟩
    exact ⟨i, c, hc, hinfo⟩
  · rintro ⟨i, c, hc, hinfo⟩
    exact ⟨i, c, ⟨hc, contains_basic_eq_false hc.2.1⟩, hinfo⟩

theorem mem_unresolved_declaredIn :
    a ∈ (declaredIn p).value.unresolved ↔
      ∃ i c, p.Accepts i c ∧ a = c.name ∧ isIllegalParent c.parent = true := by
  rw [declaredIn, mem_unresolved_declareAll]
  constructor
  · rintro (h | ⟨i, c, ⟨hc, -⟩, ha⟩)
    · cases h
    · exact ⟨i, c, hc, ha⟩
  · rintro ⟨i, c, hc, ha⟩
    exact Or.inr ⟨i, c, ⟨hc, contains_basic_eq_false hc.2.1⟩, ha⟩

theorem contains_declaredIn_of_mem_basic (h : a ∈ Names.basic) :
    (declaredIn p).value.contains a = true := by
  obtain ⟨info, hinfo, rfl⟩ := exists_mem_basic a h
  rw [contains_iff_mem]
  exact List.mem_map_of_mem (mem_classes_declaredIn.mpr (Or.inl hinfo))

theorem undefinedParent?_isSome {t : ClassTable} :
    (t.undefinedParent? info).isSome = true ↔
      info.name ∉ t.unresolved ∧ ∃ parent, info.parent = some parent ∧
        t.contains parent = false := by
  rw [undefinedParent?]
  split_ifs with h
  · simpa using fun hnot => absurd (by simpa using h) hnot
  · rw [Option.isSome_iff_exists]
    simp [Option.filter_eq_some_iff, show info.name ∉ t.unresolved by simpa using h]

theorem mem_unresolved_checkedIn :
    a ∈ (checkedIn p).value.unresolved ↔
      a ∈ (declaredIn p).value.unresolved ∨ ∃ info ∈ (declaredIn p).value.classes,
        ((declaredIn p).value.undefinedParent? info).isSome = true ∧ info.name = a := by
  rw [checkedIn, findUndefinedParents, unresolved_markUnresolved, List.mem_append]
  refine or_congr_right ?_
  simp only [List.mem_map, List.mem_filterMap, Option.map_eq_some_iff]
  constructor
  · rintro ⟨_, ⟨info, hinfo, parent, hparent, rfl⟩, rfl⟩
    exact ⟨info, hinfo, by rw [hparent]; rfl, rfl⟩
  · rintro ⟨info, hinfo, hsome, rfl⟩
    obtain ⟨parent, hparent⟩ := Option.isSome_iff_exists.mp hsome
    exact ⟨(info, parent), ⟨info, hinfo, parent, hparent, rfl⟩, rfl⟩

/-- The parent of a basic class, if it has one, is in the table. -/
theorem undefinedParent?_of_mem_basic (h : info ∈ basic.classes) :
    (declaredIn p).value.undefinedParent? info = none := by
  rw [← Option.not_isSome_iff_eq_none, undefinedParent?_isSome]
  rintro ⟨-, parent, hparent, hnot⟩
  rcases (parent_of_mem_basic info h).2 with ⟨hnone, -⟩ | hobject
  · rw [hnone] at hparent
    cases hparent
  · rw [hobject] at hparent
    cases hparent
    rw [contains_declaredIn_of_mem_basic (by decide)] at hnot
    cases hnot

/-- Only accepted declarations are unresolved before the walks. -/
theorem accepts_of_mem_unresolved (h : a ∈ (checkedIn p).value.unresolved) :
    ∃ i c, p.Accepts i c ∧ a = c.name := by
  rw [mem_unresolved_checkedIn] at h
  rcases h with h | ⟨info, hinfo, hsome, rfl⟩
  · obtain ⟨i, c, hc, rfl, -⟩ := mem_unresolved_declaredIn.mp h
    exact ⟨i, c, hc, rfl⟩
  · rcases mem_classes_declaredIn.mp hinfo with hbasic | ⟨i, c, hc, rfl⟩
    · rw [undefinedParent?_of_mem_basic hbasic] at hsome
      cases hsome
    · exact ⟨i, c, hc, rfl⟩

/-! ## The walks -/

theorem contains_checkedIn (p : Program) (a : String) :
    (checkedIn p).value.contains a = (declaredIn p).value.contains a := rfl

theorem find?_checkedIn : (checkedIn p).value.find? a = some info ↔
    (info ∈ basic.classes ∨ ∃ i c, p.Accepts i c ∧ info = c.info i) ∧ info.name = a := by
  have hnodup : ((checkedIn p).value.classes.map ClassInfo.name).Nodup := nodup_declaredIn p
  rw [find?_eq_some_iff hnodup]
  exact and_congr_left fun _ => mem_classes_declaredIn

/-- The classes that are passed from the start. -/
def knownIn (p : Program) : List String :=
  ((checkedIn p).value.classes.filter fun c =>
    c.isBasic || (checkedIn p).value.unresolved.contains c.name).map ClassInfo.name

theorem mem_knownIn : a ∈ knownIn p ↔ ∃ info, (checkedIn p).value.find? a = some info ∧
    (info ∈ basic.classes ∨ a ∈ (checkedIn p).value.unresolved) := by
  simp only [knownIn, List.mem_map, List.mem_filter, Bool.or_eq_true, List.contains_eq_mem,
    decide_eq_true_eq, find?_checkedIn]
  constructor
  · rintro ⟨info, ⟨hinfo, h⟩, rfl⟩
    have hmem := mem_classes_declaredIn.mp hinfo
    refine ⟨info, ⟨hmem, rfl⟩, h.imp_left fun hbasic => ?_⟩
    rcases hmem with h | ⟨i, c, -, rfl⟩
    · exact h
    · cases hbasic
  · rintro ⟨info, ⟨hmem, rfl⟩, h⟩
    refine ⟨info, ⟨mem_classes_declaredIn.mpr hmem, ?_⟩, rfl⟩
    exact h.imp_left fun hbasic => (parent_of_mem_basic info hbasic).1

theorem exists_isChain_object (p : Program) :
    ∃ l, (checkedIn p).value.IsChain Names.object l := by
  obtain ⟨info, hinfo, hname, hparent⟩ := exists_object
  exact ⟨_, .root (find?_checkedIn.mpr ⟨Or.inl hinfo, hname⟩) hparent⟩

theorem settled_checkedIn (p : Program) : Settled (checkedIn p).value (knownIn p) where
  unresolved a ha := by
    obtain ⟨i, c, hc, rfl⟩ := accepts_of_mem_unresolved ha
    exact mem_knownIn.mpr ⟨c.info i, find?_checkedIn.mpr ⟨Or.inr ⟨i, c, hc, rfl⟩, rfl⟩, Or.inr ha⟩
  closed a b ha hb := by
    obtain ⟨info, hinfo, hparent⟩ := parentOf?_eq_some_iff.mp hb
    rw [mem_unresolved_checkedIn, not_or] at ha
    rw [contains_checkedIn]
    by_contra hnot
    refine ha.2 ⟨info, mem_of_find? hinfo, undefinedParent?_isSome.mpr ?_, name_of_find? hinfo⟩
    rw [name_of_find? hinfo]
    exact ⟨ha.1, b, hparent, by simpa using hnot⟩
  chain a ha hn := by
    obtain ⟨info, hinfo, h⟩ := mem_knownIn.mp ha
    have hbasic := h.resolve_right hn
    rcases (parent_of_mem_basic info hbasic).2 with ⟨hnone, -⟩ | hobject
    · exact ⟨_, .root hinfo hnone⟩
    · obtain ⟨l, hl⟩ := exists_isChain_object p
      exact ⟨_, .child hinfo hobject hl⟩
  parent a ha hn b hb := by
    obtain ⟨info, hinfo, h⟩ := mem_knownIn.mp ha
    have hbasic := h.resolve_right hn
    rw [parentOf?_eq_of_find? hinfo] at hb
    rcases (parent_of_mem_basic info hbasic).2 with ⟨hnone, -⟩ | hobject
    · rw [hnone] at hb
      cases hb
    · rw [hobject] at hb
      cases hb
      obtain ⟨object, hmem, hname, -⟩ := exists_object
      refine ⟨mem_knownIn.mpr ⟨object, find?_checkedIn.mpr ⟨Or.inl hmem, hname⟩, Or.inl hmem⟩, ?_⟩
      intro hu
      obtain ⟨i, c, hc, hname⟩ := accepts_of_mem_unresolved hu
      have hreserved := hc.2.1
      rw [← hname] at hreserved
      exact absurd hreserved (by decide)

/-- The table of a program when the walks start at these classes in turn. -/
def walkedIn (p : Program) (names : List String) : Diagnosed ClassTable :=
  (checkedIn p).value.walkAll (knownIn p) names

theorem walkedIn_classes (p : Program) :
    (walkedIn p ((declaredIn p).value.classes.map ClassInfo.name)).value = (ofProgram p).value :=
  rfl

/-- The walks, and what they leave behind, in whatever order the classes are visited. -/
theorem exists_settled_walkedIn {names : List String}
    (hnames : ∀ a, a ∈ names ↔ (declaredIn p).value.contains a = true) :
    (walkedIn p names).value.classes = (declaredIn p).value.classes ∧
      (checkedIn p).value.unresolved ⊆ (walkedIn p names).value.unresolved ∧
      (∀ a ∈ knownIn p, a ∈ (walkedIn p names).value.unresolved →
        a ∈ (checkedIn p).value.unresolved) ∧
      ∃ done, Settled (walkedIn p names).value done ∧
        ∀ a, (walkedIn p names).value.contains a = true → a ∈ done := by
  obtain ⟨done, hs, -, hcover, hclasses, hkept, hgrow⟩ :=
    exists_settled_walkAll names _ _ (settled_checkedIn p) fun a ha => (hnames a).mp ha
  refine ⟨hclasses, hgrow, hkept, done, hs, fun a ha => hcover ((hnames a).mpr ?_)⟩
  rw [contains_iff_mem] at ha ⊢
  exact hclasses ▸ ha

theorem exists_settled_ofProgram (p : Program) :
    (ofProgram p).value.classes = (declaredIn p).value.classes ∧
      (checkedIn p).value.unresolved ⊆ (ofProgram p).value.unresolved ∧
      (∀ a ∈ knownIn p, a ∈ (ofProgram p).value.unresolved → a ∈ (checkedIn p).value.unresolved) ∧
      ∃ done, Settled (ofProgram p).value done ∧
        ∀ a, (ofProgram p).value.contains a = true → a ∈ done :=
  exists_settled_walkedIn fun _ => contains_iff_mem.symm

/-- The walks change no class. -/
theorem find?_eq_find?_checkedIn (p : Program) :
    (ofProgram p).value.find? = (checkedIn p).value.find? := by
  funext a
  rw [find?, find?, (exists_settled_ofProgram p).1]
  rfl

theorem mem_classes_ofProgram : info ∈ (ofProgram p).value.classes ↔
    info ∈ basic.classes ∨ ∃ i c, p.Accepts i c ∧ info = c.info i := by
  rw [(exists_settled_ofProgram p).1, mem_classes_declaredIn]

theorem nodup_ofProgram (p : Program) :
    ((ofProgram p).value.classes.map ClassInfo.name).Nodup := by
  rw [(exists_settled_ofProgram p).1]
  exact nodup_declaredIn p

theorem find?_ofProgram : (ofProgram p).value.find? a = some info ↔
    (info ∈ basic.classes ∨ ∃ i c, p.Accepts i c ∧ info = c.info i) ∧ info.name = a := by
  rw [find?_eq_some_iff (nodup_ofProgram p), mem_classes_ofProgram]

theorem find?_of_accepts {i : Nat} {c : ClassDecl} (h : p.Accepts i c) :
    (ofProgram p).value.find? c.name = some (c.info i) :=
  find?_ofProgram.mpr ⟨Or.inr ⟨i, c, h, rfl⟩, rfl⟩

theorem sound_ofProgram (p : Program) : (ofProgram p).value.Sound := by
  obtain ⟨-, -, -, done, hs, hcover⟩ := exists_settled_ofProgram p
  refine ⟨fun a ha => ?_, fun a b ha hb => ?_, fun a info hinfo hnone => ?_⟩
  · obtain ⟨hc, hn⟩ := isResolved_iff.mp ha
    exact hs.chain a (hcover a hc) hn
  · obtain ⟨hc, hn⟩ := isResolved_iff.mp ha
    exact isResolved_iff.mpr ⟨hs.closed a b hn hb, (hs.parent a (hcover a hc) hn b hb).2⟩
  · obtain ⟨hbasic | ⟨i, c, -, rfl⟩, rfl⟩ := find?_ofProgram.mp hinfo
    · rcases (parent_of_mem_basic info hbasic).2 with ⟨-, hname⟩ | hobject
      · exact hname
      · rw [hnone] at hobject
        cases hobject
    · cases hnone

/-! ## Basic classes and classes of values -/

theorem isResolved_of_mem_basic (h : a ∈ Names.basic) :
    (ofProgram p).value.isResolved a = true := by
  obtain ⟨hclasses, -, hkept, -⟩ := exists_settled_ofProgram p
  obtain ⟨info, hinfo, rfl⟩ := exists_mem_basic a h
  refine isResolved_iff.mpr ⟨?_, fun hu => ?_⟩
  · exact contains_of_find? (find?_ofProgram.mpr ⟨Or.inl hinfo, rfl⟩)
  · have hknown : info.name ∈ knownIn p :=
      mem_knownIn.mpr ⟨info, find?_checkedIn.mpr ⟨Or.inl hinfo, rfl⟩, Or.inl hinfo⟩
    obtain ⟨i, c, hc, hname⟩ := accepts_of_mem_unresolved (hkept _ hknown hu)
    have hreserved := hc.2.1
    rw [← hname, isReserved_of_mem_basic info hinfo] at hreserved
    cases hreserved

/-- Names that no class has. -/
theorem contains_selfType_eq_false (p : Program) :
    (ofProgram p).value.contains Names.selfType = false := by
  rw [Bool.eq_false_iff, Ne, contains_iff]
  rintro ⟨info, hinfo⟩
  obtain ⟨hbasic | ⟨i, c, hc, rfl⟩, hname⟩ := find?_ofProgram.mp hinfo
  · have hnot : ∀ info ∈ basic.classes, info.name ≠ Names.selfType := by decide
    exact hnot info hbasic hname
  · have hreserved := hc.2.1
    rw [show c.name = Names.selfType from hname] at hreserved
    exact absurd hreserved (by decide)

theorem isIllegalParent_eq_false {i : Nat} {c : ClassDecl} (h : p.Accepts i c)
    (hr : (ofProgram p).value.isResolved c.name = true) : isIllegalParent c.parent = false := by
  rw [Bool.eq_false_iff]
  intro hillegal
  obtain ⟨-, hgrow, -⟩ := exists_settled_ofProgram p
  refine (isResolved_iff.mp hr).2 (hgrow (mem_unresolved_checkedIn.mpr (Or.inl ?_)))
  exact mem_unresolved_declaredIn.mpr ⟨i, c, h, rfl, hillegal⟩

/-- Nothing but itself inherits from a class of values. -/
theorem Inherits.eq_of_mem_values (h : (ofProgram p).value.Inherits a b)
    (ha : (ofProgram p).value.isResolved a = true) (hb : b ∈ Names.values) : a = b := by
  rcases Relation.ReflTransGen.cases_tail h with hab | ⟨c, hac, hcb⟩
  · exact hab.symm
  · have hc := (sound_ofProgram p).isResolved_of_inherits ha hac
    obtain ⟨info, hinfo, hparent⟩ := parentOf?_eq_some_iff.mp hcb
    obtain ⟨hbasic | ⟨i, c, haccepts, rfl⟩, rfl⟩ := find?_ofProgram.mp hinfo
    · have hnot : ∀ info ∈ basic.classes, ∀ b ∈ Names.values, info.parent ≠ some b := by decide
      exact absurd hparent (hnot info hbasic b hb)
    · cases hparent
      have hlegal := isIllegalParent_eq_false haccepts hc
      simp [isIllegalParent, hb] at hlegal

/-! ## Tables built without a report -/

theorem accepts_of_reports_eq_nil (h : (ofProgram p).reports = []) {i : Nat} {c : ClassDecl}
    (hc : p.classes[i]? = some c) : p.Accepts i c := by
  rw [reports_ofProgram, List.append_eq_nil_iff] at h
  exact ((reports_declareAll_eq_nil_iff p.classes basic 0).mp h.1 i c hc).1.1

theorem unresolved_eq_nil_of_reports_eq_nil (h : (ofProgram p).reports = []) :
    (ofProgram p).value.unresolved = [] := by
  simp only [reports_ofProgram, List.append_eq_nil_iff] at h
  obtain ⟨hdeclared, hchecked, -, hcycles⟩ := h
  refine unresolved_walkAll_eq_nil _ _ _ (List.eq_nil_iff_forall_not_mem.mpr fun a ha => ?_) hcycles
  rcases mem_unresolved_checkedIn.mp ha with ha | ⟨info, hinfo, hsome, -⟩
  · obtain ⟨i, c, hc, -, hillegal⟩ := mem_unresolved_declaredIn.mp ha
    have hlegal := ((reports_declareAll_eq_nil_iff p.classes basic 0).mp hdeclared i c hc.1).2
    rw [hillegal] at hlegal
    cases hlegal
  · obtain ⟨parent, hparent⟩ := Option.isSome_iff_exists.mp hsome
    simp only [checkedIn, findUndefinedParents, List.map_eq_nil_iff, List.filterMap_eq_nil_iff,
      Option.map_eq_none_iff] at hchecked
    rw [hchecked info hinfo] at hparent
    cases hparent

theorem isResolved_of_reports_eq_nil (h : (ofProgram p).reports = [])
    (ha : (ofProgram p).value.contains a = true) : (ofProgram p).value.isResolved a = true := by
  rw [isResolved_iff, unresolved_eq_nil_of_reports_eq_nil h]
  exact ⟨ha, List.not_mem_nil⟩

end ClassTable

end Cool
