import Cool.Proofs.Hierarchy.Cycles

/-!
# Classes declared in another order

If no two classes of a program have one name, then the order in which they are declared makes no
difference to the class table but for their positions: each class has the same parent, and is
resolved or not. The same defects of the hierarchy are reported, in another order; of a cycle, it is
only the class to report it at that depends on the order.

* `SameClasses` : tables with the same classes at other positions;
* `accepts_iff_of_nodup` : which declarations are accepted;
* `sameClasses_ofProgram` : the tables of two programs with the same classes;
* `perm_reports_declaredIn`, `perm_reports_checkedIn`, `length_reports_findCycles` : what is
  reported on declarations, on parents and on cycles.
-/

namespace Cool

/-- A class as it would be entered if it were declared first. -/
def ClassInfo.unplaced (c : ClassInfo) : ClassInfo :=
  { c with origin := if c.isBasic then .basic else .declared 0 }

theorem ClassInfo.isBasic_unplaced (c : ClassInfo) : c.unplaced.isBasic = c.isBasic := by
  rw [unplaced]
  cases h : c.isBasic <;> rfl

namespace ClassTable

variable {t t' : ClassTable} {p q : Program} {a : String} {info : ClassInfo} {i : Nat}
  {c : ClassDecl}

/-! ## Tables with the same classes -/

/-- Two tables have the same classes, in any order and at any positions. -/
structure SameClasses (t t' : ClassTable) : Prop where
  perm : (t.classes.map ClassInfo.unplaced).Perm (t'.classes.map ClassInfo.unplaced)
  nodup : (t.classes.map ClassInfo.name).Nodup

theorem map_name_unplaced (l : List ClassInfo) :
    (l.map ClassInfo.unplaced).map ClassInfo.name = l.map ClassInfo.name := by
  rw [List.map_map]
  rfl

namespace SameClasses

variable (h : t.SameClasses t')
include h

theorem nodup' : (t'.classes.map ClassInfo.name).Nodup := by
  have hperm := h.perm.map ClassInfo.name
  rw [map_name_unplaced, map_name_unplaced] at hperm
  exact hperm.nodup_iff.mp h.nodup

theorem length_eq : t'.classes.length = t.classes.length := by
  have hlength := h.perm.length_eq
  rw [List.length_map, List.length_map] at hlength
  exact hlength.symm

/-- Each name finds the same class. -/
theorem find?_eq (a : String) :
    (t'.find? a).map ClassInfo.unplaced = (t.find? a).map ClassInfo.unplaced := by
  have hfind : ∀ {t : ClassTable}, (t.classes.map ClassInfo.name).Nodup → ∀ info,
      (t.find? a).map ClassInfo.unplaced = some info ↔
        info ∈ t.classes.map ClassInfo.unplaced ∧ info.name = a := by
    intro t hnodup info
    simp only [Option.map_eq_some_iff, find?_eq_some_iff hnodup, List.mem_map]
    constructor
    · rintro ⟨entry, ⟨hentry, rfl⟩, rfl⟩
      exact ⟨⟨entry, hentry, rfl⟩, rfl⟩
    · rintro ⟨⟨entry, hentry, rfl⟩, rfl⟩
      exact ⟨entry, ⟨hentry, rfl⟩, rfl⟩
  refine Option.ext fun info => ?_
  rw [hfind h.nodup', hfind h.nodup, h.perm.mem_iff]

theorem contains_eq : t'.contains = t.contains := by
  funext a
  have hfind := congrArg Option.isSome (h.find?_eq a)
  rw [Option.isSome_map, Option.isSome_map] at hfind
  exact hfind

theorem parentOf?_eq : t'.parentOf? = t.parentOf? := by
  funext a
  have hfind := congrArg (Option.bind · ClassInfo.parent) (h.find?_eq a)
  simp only [Option.bind_map] at hfind
  exact hfind

theorem map_name_chain (n : Nat) (a : String) :
    (t'.chain n a).map ClassInfo.name = (t.chain n a).map ClassInfo.name := by
  induction n generalizing a with
  | zero => rfl
  | succ n ih =>
    have hfind := h.find?_eq a
    rw [chain, chain]
    cases ht : t.find? a with
    | none =>
      rw [ht, Option.map_none, Option.map_eq_none_iff] at hfind
      rw [hfind]
    | some info =>
      rw [ht, Option.map_some] at hfind
      obtain ⟨info', ht', heq⟩ := Option.map_eq_some_iff.mp hfind
      have hname : info'.name = info.name := (congrArg ClassInfo.name heq :)
      have hparent : info'.parent = info.parent := (congrArg ClassInfo.parent heq :)
      rw [ht']
      dsimp only
      rw [hparent]
      cases info.parent with
      | none => exact congrArg (fun name => [name]) hname
      | some b =>
        dsimp only
        rw [List.map_cons, List.map_cons, hname, ih b]

/-- Each class has the same ancestors: even a chain that is cut is cut at the same length. -/
theorem map_name_ancestors (a : String) :
    (t'.ancestors a).map ClassInfo.name = (t.ancestors a).map ClassInfo.name := by
  rw [ancestors, ancestors, h.length_eq, h.map_name_chain]

theorem symm : t'.SameClasses t :=
  ⟨h.perm.symm, h.nodup'⟩

theorem wellRooted (hwell : t.WellRooted a) : t'.WellRooted a where
  contains := by
    rw [h.contains_eq]
    exact hwell.contains
  inherits := by
    rw [inherits_congr h.parentOf?_eq]
    exact hwell.inherits
  legal b info' hab hinfo' hbasic := by
    have hfind := h.find?_eq b
    rw [hinfo', Option.map_some] at hfind
    obtain ⟨info, hinfo, heq⟩ := Option.map_eq_some_iff.mp hfind.symm
    have hparent : info.parent = info'.parent := (congrArg ClassInfo.parent heq :)
    rw [inherits_congr h.parentOf?_eq] at hab
    rw [← info'.isBasic_unplaced, ← heq, info.isBasic_unplaced] at hbasic
    rw [← hparent]
    exact hwell.legal b info hab hinfo hbasic

end SameClasses

/-! ## Accepted declarations -/

/-- Where all names are different, only reserved names are refused. -/
theorem accepts_iff_of_nodup (hnames : (p.classes.map ClassDecl.name).Nodup) :
    p.Accepts i c ↔ p.classes[i]? = some c ∧ isReserved c.name = false := by
  refine ⟨fun h => ⟨h.1, h.2.1⟩, fun ⟨hc, hr⟩ => ⟨hc, hr, fun k d hk hd hname => ?_⟩⟩
  have hlength : k < (p.classes.map ClassDecl.name).length := by
    rw [List.length_map]
    exact (List.getElem?_eq_some_iff.mp hd).1
  have heq : (p.classes.map ClassDecl.name)[k]? = (p.classes.map ClassDecl.name)[i]? := by
    rw [List.getElem?_map, List.getElem?_map, hc, hd, Option.map_some, Option.map_some, hname]
  exact hk.ne ((List.getElem?_inj hlength hnames).mp heq)

section Perm

variable (hperm : p.classes.Perm q.classes) (hnames : (p.classes.map ClassDecl.name).Nodup)
include hperm hnames

theorem nodup_of_perm : (q.classes.map ClassDecl.name).Nodup :=
  (hperm.map ClassDecl.name).nodup_iff.mp hnames

theorem exists_accepts_iff : (∃ i, q.Accepts i c) ↔ ∃ i, p.Accepts i c := by
  have hmem : ∀ {p : Program}, (p.classes.map ClassDecl.name).Nodup →
      ((∃ i, p.Accepts i c) ↔ c ∈ p.classes ∧ isReserved c.name = false) := by
    intro p hnames
    simp only [accepts_iff_of_nodup hnames, exists_and_right, List.mem_iff_getElem?]
  rw [hmem hnames, hmem (nodup_of_perm hperm hnames), hperm.mem_iff]

/-! ## The tables -/

theorem mem_unplaced_declaredIn_iff : info ∈ (declaredIn p).value.classes.map ClassInfo.unplaced ↔
    info ∈ (declaredIn q).value.classes.map ClassInfo.unplaced := by
  have hmem : ∀ {p : Program}, info ∈ (declaredIn p).value.classes.map ClassInfo.unplaced ↔
      info ∈ basic.classes ∨ ∃ c, (∃ i, p.Accepts i c) ∧ info = c.info 0 := by
    intro p
    have hbasic : ∀ info ∈ basic.classes, info.unplaced = info := by decide
    simp only [List.mem_map, mem_classes_declaredIn]
    constructor
    · rintro ⟨info, hinfo | ⟨i, c, hc, rfl⟩, rfl⟩
      · rw [hbasic info hinfo]
        exact Or.inl hinfo
      · exact Or.inr ⟨c, ⟨i, hc⟩, rfl⟩
    · rintro (hinfo | ⟨c, ⟨i, hc⟩, rfl⟩)
      · exact ⟨info, Or.inl hinfo, hbasic info hinfo⟩
      · exact ⟨c.info i, Or.inr ⟨i, c, hc, rfl⟩, rfl⟩
  rw [hmem, hmem]
  simp only [exists_accepts_iff hperm hnames]

theorem sameClasses_declaredIn : (declaredIn p).value.SameClasses (declaredIn q).value := by
  have hnodup : ∀ p : Program, ((declaredIn p).value.classes.map ClassInfo.unplaced).Nodup := by
    intro p
    refine List.Nodup.of_map ClassInfo.name ?_
    rw [map_name_unplaced]
    exact nodup_declaredIn p
  refine ⟨(List.perm_ext_iff_of_nodup (hnodup p) (hnodup q)).mpr fun info => ?_,
    nodup_declaredIn p⟩
  exact mem_unplaced_declaredIn_iff hperm hnames

theorem sameClasses_ofProgram : (ofProgram p).value.SameClasses (ofProgram q).value := by
  have h := sameClasses_declaredIn hperm hnames
  constructor
  · rw [(exists_settled_ofProgram p).1, (exists_settled_ofProgram q).1]
    exact h.perm
  · rw [(exists_settled_ofProgram p).1]
    exact h.nodup

/-- The same classes are resolved. -/
theorem isResolved_eq_of_perm :
    (ofProgram q).value.isResolved = (ofProgram p).value.isResolved := by
  have h := sameClasses_ofProgram hperm hnames
  funext a
  rw [Bool.eq_iff_iff, isResolved_ofProgram_iff, isResolved_ofProgram_iff]
  exact ⟨h.symm.wellRooted, h.wellRooted⟩

end Perm

/-! ## What is reported -/

/-- What is reported on a declaration whose name no other has. -/
def refusal (c : ClassDecl) : List Diagnostic :=
  if isReserved c.name then [.located (.structural (.basicClassRedefined c.name)) c.file c.span]
  else if isIllegalParent c.parent then
    [.located (.structural (.illegalParent c.name c.parent)) c.file c.span]
  else []

theorem reports_declare_of_new (h : isReserved c.name = false → t.contains c.name = false) :
    (t.declare i c).reports = refusal c := by
  unfold declare refusal
  dsimp only
  by_cases hr : isReserved c.name = true
  · rw [if_pos hr, if_pos hr]
    rfl
  · have hc : ¬t.contains c.name = true := by simp [h (by simpa using hr)]
    rw [if_neg hr, if_neg hr, if_neg hc]
    split_ifs
    · rfl
    · rfl

theorem reports_declareAll_of_nodup : ∀ (cs : List ClassDecl) (t : ClassTable) (index : Nat),
    (cs.map ClassDecl.name).Nodup →
      (∀ c ∈ cs, isReserved c.name = false → t.contains c.name = false) →
        (t.declareAll index cs).reports = cs.flatMap refusal
  | [], _, _, _, _ => rfl
  | c :: cs, t, index, hnames, hnew => by
    rw [List.map_cons, List.nodup_cons] at hnames
    obtain ⟨hc, hcs⟩ := List.forall_mem_cons.mp hnew
    rw [declareAll, Diagnosed.reports_bind, reports_declare_of_new hc, List.flatMap_cons,
      reports_declareAll_of_nodup cs _ _ hnames.2 fun d hd hr => ?_]
    refine (not_contains_declare hr).mpr ⟨fun hname => hnames.1 ?_, hcs d hd hr⟩
    exact hname ▸ List.mem_map_of_mem hd

theorem reports_declaredIn_of_nodup (hnames : (p.classes.map ClassDecl.name).Nodup) :
    (declaredIn p).reports = p.classes.flatMap refusal :=
  reports_declareAll_of_nodup p.classes basic 0 hnames fun _ _ hr => contains_basic_eq_false hr

/-- What is reported on the parent of a class. -/
def undefinedReport? (t : ClassTable) (c : ClassInfo) : Option Diagnostic :=
  (t.undefinedParent? c).map fun parent =>
    .located (.structural (.undefinedParent c.name parent)) c.file c.span

theorem reports_findUndefinedParents (t : ClassTable) :
    t.findUndefinedParents.reports = (t.classes.map ClassInfo.unplaced).filterMap
      t.undefinedReport? := by
  unfold findUndefinedParents
  dsimp only
  rw [List.map_filterMap, List.filterMap_map]
  refine List.filterMap_congr fun c _ => ?_
  rw [Option.map_map]
  rfl

section Perm

variable (hperm : p.classes.Perm q.classes) (hnames : (p.classes.map ClassDecl.name).Nodup)
include hperm hnames

theorem perm_reports_declaredIn : (declaredIn p).reports.Perm (declaredIn q).reports := by
  rw [reports_declaredIn_of_nodup hnames,
    reports_declaredIn_of_nodup (nodup_of_perm hperm hnames)]
  exact hperm.flatMap_right refusal

theorem perm_reports_checkedIn : (checkedIn p).reports.Perm (checkedIn q).reports := by
  have h := sameClasses_declaredIn hperm hnames
  have hunresolved : ∀ a, (declaredIn q).value.unresolved.contains a =
      (declaredIn p).value.unresolved.contains a := by
    have hmem : ∀ {p : Program} {a : String}, a ∈ (declaredIn p).value.unresolved ↔
        ∃ c, (∃ i, p.Accepts i c) ∧ a = c.name ∧ isIllegalParent c.parent = true := by
      intro p a
      rw [mem_unresolved_declaredIn, exists_comm]
      simp only [exists_and_right]
    intro a
    rw [Bool.eq_iff_iff, List.contains_iff_mem, List.contains_iff_mem, hmem, hmem]
    simp only [exists_accepts_iff hperm hnames]
  have hreport : (declaredIn q).value.undefinedReport? = (declaredIn p).value.undefinedReport? := by
    funext c
    unfold undefinedReport? undefinedParent?
    rw [hunresolved, h.contains_eq]
  rw [checkedIn, checkedIn, reports_findUndefinedParents, reports_findUndefinedParents, hreport]
  exact h.perm.filterMap _

/-- There are as many cycles. -/
theorem length_reports_findCycles :
    (checkedIn q).value.findCycles.reports.length =
      (checkedIn p).value.findCycles.reports.length := by
  have hparent : (checkedIn q).value.parentOf? = (checkedIn p).value.parentOf? :=
    (sameClasses_declaredIn hperm hnames).parentOf?_eq
  obtain ⟨heads, hheads, hlength⟩ := exists_cycleHeads_findCycles p
  obtain ⟨heads', hheads', hlength'⟩ := exists_cycleHeads_findCycles q
  rw [← hlength, ← hlength', (hheads.congr hparent).length_eq hheads']

end Perm

end ClassTable

end Cool
