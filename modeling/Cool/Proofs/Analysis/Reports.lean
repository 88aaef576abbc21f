import Cool.Proofs.Analysis.Annotation
import Cool.Proofs.Hierarchy.Permuted

/-!
# What is reported on each class

The passes report class by class. The features of classes are entered ancestors first, but what is
reported on them is put into the order of the declarations.

* `Program.declarationReports`, `Program.typingReports` : what is reported on the features of a
  class, and on the types in them;
* `Analysis.inTier`, `inTier_analyze` : the diagnostics of each pass;
* `nodup_positions`, `FeatureTable.reportedAt` : each declaration's features are looked at once;
* `reports_featureTable`, `reports_checked_eq_flatMap` : all reports of a pass, one class behind the
  other.
-/

namespace Cool

variable {p : Program} {a : String} {i : Nat} {c : ClassDecl} {α β : Type}

namespace Program

/-- What is reported on the features that a class declares. -/
def declarationReports (p : Program) (a : String) : List Diagnostic :=
  match FeatureTable.declaration? p.classTable p a with
  | none => []
  | some (_, c) => (p.featureTable.checkClass p.classTable (p.classTable.isResolved a) c).reports

/-- What is reported on the types of the expressions in a class. -/
def typingReports (p : Program) (a : String) : List Diagnostic :=
  match FeatureTable.declaration? p.classTable p a with
  | none => []
  | some (index, c) => (c.checkAt p.classTable p.featureTable index).reports

theorem declarationReports_of_accepts (h : p.Accepts i c) : p.declarationReports c.name =
    (p.featureTable.checkClass p.classTable (p.classTable.isResolved c.name) c).reports := by
  rw [declarationReports, FeatureTable.declaration?_eq_some_iff.mpr ⟨h, rfl⟩]

theorem typingReports_of_accepts (h : p.Accepts i c) :
    p.typingReports c.name = (c.checkAt p.classTable p.featureTable i).reports := by
  rw [typingReports, FeatureTable.declaration?_eq_some_iff.mpr ⟨h, rfl⟩]

theorem declaration?_eq_none (h : ∀ i c, p.Accepts i c → c.name ≠ a) :
    FeatureTable.declaration? p.classTable p a = none := by
  cases hdecl : FeatureTable.declaration? p.classTable p a with
  | none => rfl
  | some entry =>
    obtain ⟨haccepts, hname⟩ := FeatureTable.declaration?_eq_some_iff.mp hdecl
    exact absurd hname (h _ _ haccepts)

end Program

/-! ## The tiers -/

/-- The diagnostics of a tier. -/
def Analysis.inTier (a : Analysis) (tier : Tier) : List Diagnostic :=
  a.diagnostics.filter fun d => d.tier == tier

theorem filter_tier {ds : List Diagnostic} {tier : Tier} (h : ∀ d ∈ ds, d.tier = tier)
    (tier' : Tier) : (ds.filter fun d => d.tier == tier') = if tier = tier' then ds else [] := by
  split_ifs with heq
  · exact List.filter_eq_self.mpr fun d hd => by simp [h d hd, heq]
  · exact List.filter_eq_nil_iff.mpr fun d hd => by simp [h d hd, heq]

theorem tier_of_mem_checked {d : Diagnostic} (hd : d ∈ p.checked.reports) : d.tier = .typing := by
  obtain ⟨i, c, -, hd⟩ := mem_reports_checked_iff.mp hd
  exact (ClassDecl.reportsOnly_checkEach c d hd).1

/-- Each pass reports in its own tier. -/
theorem inTier_analyze (p : Program) :
    (p.analyze none).inTier .structural = (ClassTable.ofProgram p).reports ∧
      (p.analyze none).inTier .declaration = (FeatureTable.ofProgram p p.classTable).reports ∧
      (p.analyze none).inTier .typing = p.checked.reports := by
  have hfilter : ∀ tier, (p.analyze none).inTier tier =
      (if Tier.structural = tier then (ClassTable.ofProgram p).reports else []) ++
        (if Tier.declaration = tier then (FeatureTable.ofProgram p p.classTable).reports else []) ++
          (if Tier.typing = tier then p.checked.reports else []) := by
    intro tier
    rw [Analysis.inTier, analyze_none, Program.reports, List.filter_append, List.filter_append,
      filter_tier (ClassTable.reportsOnly_ofProgram p),
      filter_tier (FeatureTable.reportsOnly_ofProgram p p.classTable),
      filter_tier fun _ hd => tier_of_mem_checked hd]
  refine ⟨?_, ?_, ?_⟩
  · simp [hfilter]
  · simp [hfilter]
  · simp [hfilter]

/-! ## The positions -/

namespace ClassTable

theorem ParentsFirst.nodup {t : ClassTable} {done order : List String}
    (h : t.ParentsFirst done order) : order.Nodup := by
  induction h with
  | nil => exact List.nodup_nil
  | cons _ _ h ih =>
    exact List.nodup_cons.mpr ⟨fun hmem => h.not_mem_done hmem List.mem_cons_self, ih⟩

end ClassTable

namespace FeatureTable

/-- The reports on the declarations, each with its position. -/
def positioned (p : Program) : List (Nat × List Diagnostic) :=
  (enterAll p.classTable .basic
    (p.classTable.resolvedOrder.filterMap (declaration? p.classTable p))).2 ++
  ((p.classTable.classes.filter fun c => !p.classTable.isResolved c.name).filterMap fun c =>
    declaration? p.classTable p c.name).map
      fun (i, c) => (i, (p.featureTable.checkClass p.classTable false c).reports)

theorem reports_eq_inOrder (p : Program) :
    (ofProgram p p.classTable).reports = inOrder p.classes.length (positioned p) := rfl

/-- Every class is entered once, resolved or not, and each has its own position. -/
theorem nodup_positions (p : Program) : ((positioned p).map Prod.fst).Nodup := by
  have hs := ClassTable.sound_ofProgram p
  have hpositions : (positioned p).map Prod.fst =
      (p.classTable.resolvedOrder ++ (p.classTable.classes.filter fun c =>
        !p.classTable.isResolved c.name).map ClassInfo.name).filterMap
          fun a => (declaration? p.classTable p a).map Prod.fst := by
    rw [positioned, enterAll_ofProgram p, List.map_append, List.filterMap_append,
      List.map_map, List.map_map, List.filterMap_map]
    simp only [Function.comp_def, List.map_filterMap]
  rw [hpositions]
  refine List.Nodup.filterMap (fun a b i ha hb => ?_) ?_
  · obtain ⟨⟨j, c⟩, hc, rfl⟩ := Option.map_eq_some_iff.mp ha
    obtain ⟨⟨k, d⟩, hd, hjk⟩ := Option.map_eq_some_iff.mp hb
    obtain ⟨haccepts, rfl⟩ := declaration?_eq_some_iff.mp hc
    obtain ⟨haccepts', rfl⟩ := declaration?_eq_some_iff.mp hd
    cases hjk
    rw [Option.some.inj (haccepts.1.symm.trans haccepts'.1)]
  · refine List.nodup_append.mpr ⟨(ClassTable.parentsFirst_resolvedOrder hs).nodup, ?_, ?_⟩
    · exact (ClassTable.nodup_ofProgram p).sublist (List.filter_sublist.map ClassInfo.name)
    · intro a ha b hb hab
      obtain ⟨info, hinfo, rfl⟩ := List.mem_map.mp hb
      have hr := (List.mem_filter.mp hinfo).2
      rw [← hab, (ClassTable.mem_resolvedOrder_iff hs).mp ha] at hr
      cases hr

end FeatureTable

/-! ## All reports -/

theorem filter_fst_eq_singleton {l : List (Nat × α)} {x : α} (hnodup : (l.map Prod.fst).Nodup)
    (h : (i, x) ∈ l) : (l.filter fun r => r.1 == i) = [(i, x)] := by
  induction l with
  | nil => cases h
  | cons r l ih =>
    rw [List.map_cons, List.nodup_cons] at hnodup
    rcases List.mem_cons.mp h with rfl | h
    · rw [List.filter_cons_of_pos (by simp), List.filter_eq_nil_iff.mpr fun r hr heq => ?_]
      exact hnodup.1 (List.mem_map.mpr ⟨r, hr, eq_of_beq heq⟩)
    · have hne : r.1 ≠ i := fun heq => hnodup.1 (List.mem_map.mpr ⟨_, h, heq.symm⟩)
      rw [List.filter_cons_of_neg (by simpa using hne), ih hnodup.2 h]

namespace FeatureTable

/-- What is reported on the features of the declaration at a position. -/
def reportedAt (p : Program) (i : Nat) : List Diagnostic :=
  ((positioned p).filter fun r => r.1 == i).flatMap Prod.snd

theorem reportedAt_of_accepts (h : p.Accepts i c) : reportedAt p i =
    (p.featureTable.checkClass p.classTable (p.classTable.isResolved c.name) c).reports := by
  have hmem := mem_reports_iff.mpr ⟨i, c, h, rfl⟩
  rw [reportedAt, filter_fst_eq_singleton (nodup_positions p) hmem, List.flatMap_singleton]

theorem reportedAt_of_not_accepts (h : ∀ c, ¬p.Accepts i c) : reportedAt p i = [] := by
  have hnil : (positioned p).filter (fun r => r.1 == i) = [] := by
    refine List.filter_eq_nil_iff.mpr fun r hr heq => ?_
    obtain ⟨j, d, hd, rfl⟩ := mem_reports_iff.mp hr
    obtain rfl : j = i := eq_of_beq heq
    exact h d hd
  rw [reportedAt, hnil, List.flatMap_nil]

end FeatureTable

/-- Going through the positions of a list is going through the list. -/
theorem flatMap_range_getElem? (f : α → List β) : ∀ l : List α,
    ((List.range l.length).flatMap fun i => l[i]?.elim [] f) = l.flatMap f
  | [] => rfl
  | x :: l => by
    rw [List.length_cons, List.range_succ_eq_map, List.flatMap_cons, List.flatMap_map,
      List.flatMap_cons, ← flatMap_range_getElem? f l]
    rfl

theorem ClassDecl.reports_checkFrom (classes : ClassTable) (features : FeatureTable) :
    ∀ (cs : List ClassDecl) (index : Nat), (checkFrom classes features index cs).reports =
      (List.range cs.length).flatMap fun k =>
        cs[k]?.elim [] fun c => (c.checkAt classes features (index + k)).reports
  | [], _ => rfl
  | c :: cs, index => by
    simp only [checkFrom, Diagnosed.reports_bind, Diagnosed.reports_pure, List.append_nil]
    rw [ClassDecl.reports_checkFrom classes features cs (index + 1), List.length_cons,
      List.range_succ_eq_map, List.flatMap_cons, List.flatMap_map]
    simp only [List.getElem?_cons_succ, Nat.succ_eq_add_one, Nat.add_right_comm, ← Nat.add_assoc]
    rfl

section Nodup

variable (hnames : (p.classes.map ClassDecl.name).Nodup)
include hnames

/-- Where all names are different, a declaration that is not accepted has a reserved name. -/
theorem Program.declaration?_eq_none_of_nodup (hc : p.classes[i]? = some c)
    (h : ¬p.Accepts i c) : FeatureTable.declaration? p.classTable p c.name = none := by
  refine declaration?_eq_none fun j d hd hname => h ?_
  rw [ClassTable.accepts_iff_of_nodup hnames, ← hname]
  exact ⟨hc, hd.2.1⟩

/-- The features are reported on class by class. -/
theorem Program.reports_featureTable : (FeatureTable.ofProgram p p.classTable).reports =
    p.classes.flatMap fun c => p.declarationReports c.name := by
  rw [← flatMap_range_getElem? (fun c : ClassDecl => p.declarationReports c.name) p.classes,
    FeatureTable.reports_eq_inOrder, FeatureTable.inOrder]
  refine List.flatMap_congr fun i hi => ?_
  obtain ⟨c, hc⟩ : ∃ c, p.classes[i]? = some c :=
    ⟨_, List.getElem?_eq_getElem (List.mem_range.mp hi)⟩
  rw [hc, Option.elim_some]
  by_cases h : p.Accepts i c
  · exact (FeatureTable.reportedAt_of_accepts h).trans (declarationReports_of_accepts h).symm
  · rw [declarationReports, declaration?_eq_none_of_nodup hnames hc h]
    refine FeatureTable.reportedAt_of_not_accepts fun d hd => h ?_
    rwa [Option.some.inj (hc.symm.trans hd.1)]

/-- The types of the expressions are reported on class by class. -/
theorem Program.reports_checked_eq_flatMap :
    p.checked.reports = p.classes.flatMap fun c => p.typingReports c.name := by
  rw [← flatMap_range_getElem? (fun c : ClassDecl => p.typingReports c.name) p.classes,
    reports_checked, ClassDecl.reports_checkFrom]
  refine List.flatMap_congr fun i hi => ?_
  obtain ⟨c, hc⟩ : ∃ c, p.classes[i]? = some c :=
    ⟨_, List.getElem?_eq_getElem (List.mem_range.mp hi)⟩
  rw [hc, Option.elim_some, Option.elim_some, Nat.zero_add]
  by_cases h : p.Accepts i c
  · rw [typingReports_of_accepts h]
  · rw [checkAt_of_not_checks hc fun hchecks => h hchecks.1, typingReports,
      declaration?_eq_none_of_nodup hnames hc h]
    rfl

end Nodup

end Cool
