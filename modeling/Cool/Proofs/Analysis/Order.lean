import Cool.Proofs.Analysis.Agree
import Cool.Proofs.Analysis.Reports

/-!
# The order of visits and reports

The features of the classes of a program can be checked in any order in which a resolved class comes
behind its parent: unresolved classes may come first, last, or in between. Each is checked against
the table as it is then. Whatever the order, the table holds the same entries at the end, because
the entry of a class depends on its declaration and the entries of its ancestors only; and for the
same reason the same is reported on each class. So what is reported is in the order of the
declarations, first that on their features and then that on the types of their expressions.

* `IsTableOf.find?_eq` : a program has but one feature table, as far as entries go;
* `ClassTable.VisitOrder`, `FeatureTable.visitAll`, `FeatureTable.visited` : the order of visits as
  a parameter;
* `find?_visited`, `reports_visited`, `checkFrom_visited` : it has no effect;
* `Program.diagnostics_inOrder` : the order of all that is reported.
-/

namespace Cool

namespace ClassTable

/-- An order in which the classes of a table can be visited. -/
structure VisitOrder (t : ClassTable) (order : List String) : Prop where
  perm : order.Perm (t.classes.map ClassInfo.name)
  parents : t.ParentsFirst [] (order.filter t.isResolved)

/-- The order that is used: the resolved classes chain by chain, then the others as declared. -/
def visitOrder (t : ClassTable) : List String :=
  t.resolvedOrder ++ (t.classes.map ClassInfo.name).filter fun a => !t.isResolved a

variable {t : ClassTable} {a : String} {order : List String}

theorem filter_visitOrder (hs : t.Sound) : t.visitOrder.filter t.isResolved = t.resolvedOrder ∧
    t.visitOrder.filter (fun a => !t.isResolved a) =
      (t.classes.map ClassInfo.name).filter fun a => !t.isResolved a := by
  have hresolved : ∀ a ∈ t.resolvedOrder, t.isResolved a = true :=
    fun a ha => (mem_resolvedOrder_iff hs).mp ha
  rw [visitOrder, List.filter_append, List.filter_append, List.filter_filter, List.filter_filter]
  refine ⟨?_, ?_⟩
  · rw [List.filter_eq_self.mpr hresolved, List.filter_eq_nil_iff.mpr (by simp), List.append_nil]
  · rw [List.filter_eq_nil_iff.mpr fun a ha => by simp [hresolved a ha], List.nil_append]
    exact List.filter_congr fun a _ => Bool.and_self _

theorem perm_filter_isResolved (hs : t.Sound) (hnodup : (t.classes.map ClassInfo.name).Nodup) :
    ((t.classes.map ClassInfo.name).filter t.isResolved).Perm t.resolvedOrder := by
  refine (List.perm_ext_iff_of_nodup (hnodup.filter _) (parentsFirst_resolvedOrder hs).nodup).mpr ?_
  intro a
  rw [List.mem_filter, mem_resolvedOrder_iff hs, ← contains_iff_mem]
  exact and_iff_right_of_imp contains_of_isResolved

/-- The order that is used is one that can be used. -/
theorem visitOrder_visitOrder (hs : t.Sound) (hnodup : (t.classes.map ClassInfo.name).Nodup) :
    t.VisitOrder t.visitOrder where
  perm := (((perm_filter_isResolved hs hnodup).append_right _).symm).trans
    (List.filter_append_perm t.isResolved _)
  parents := by
    rw [(filter_visitOrder hs).1]
    exact parentsFirst_resolvedOrder hs

theorem VisitOrder.mem_resolved_iff (h : t.VisitOrder order) :
    a ∈ order.filter t.isResolved ↔ t.isResolved a = true := by
  rw [List.mem_filter, h.perm.mem_iff, ← contains_iff_mem]
  exact and_iff_right_of_imp contains_of_isResolved

end ClassTable

namespace FeatureTable

variable {p : Program} {classes : ClassTable} {t t' : FeatureTable} {a : String} {i : Nat}
  {c : ClassDecl} {order : List String} {l : List ClassInfo}

/-! ## One table -/

/-- Entries are the same if those of the ancestors are. -/
theorem IsTableOf.find?_eq_of_parent (h : IsTableOf p t) (h' : IsTableOf p t')
    (hparent : ∀ b, p.classTable.parentOf? a = some b →
      ∀ d ∈ (p.classTable.ancestors b).map ClassInfo.name, t.find? d = t'.find? d) :
    t.find? a = t'.find? a := by
  have hcheck : ∀ i c, p.Accepts i c → c.name = a →
      t.checkClass p.classTable true c = t'.checkClass p.classTable true c := by
    rintro i c haccepts rfl
    exact checkClass_congr (hparent c.parent (parentOf?_of_accepts haccepts))
  refine Option.ext fun own => ?_
  rw [h a own, h' a own]
  refine or_congr_right ⟨?_, ?_⟩
  · rintro ⟨i, c, haccepts, hname, hr, rfl⟩
    exact ⟨i, c, haccepts, hname, hr, by rw [hcheck i c haccepts hname]⟩
  · rintro ⟨i, c, haccepts, hname, hr, rfl⟩
    exact ⟨i, c, haccepts, hname, hr, by rw [hcheck i c haccepts hname]⟩

theorem IsTableOf.find?_eq_of_isChain (h : IsTableOf p t) (h' : IsTableOf p t')
    (hl : p.classTable.IsChain a l) : ∀ info ∈ l, t.find? info.name = t'.find? info.name := by
  induction hl with
  | root hfind hnone =>
    refine List.forall_mem_singleton.mpr (h.find?_eq_of_parent h' fun b hb => ?_)
    rw [ClassTable.name_of_find? hfind, ClassTable.parentOf?_eq_of_find? hfind, hnone] at hb
    cases hb
  | child hfind hp hl ih =>
    refine List.forall_mem_cons.mpr ⟨h.find?_eq_of_parent h' fun b hb d hd => ?_, ih⟩
    rw [ClassTable.name_of_find? hfind, ClassTable.parentOf?_eq_of_find? hfind, hp] at hb
    cases hb
    rw [ClassTable.ancestors_eq_of_isChain hl] at hd
    obtain ⟨info, hinfo, rfl⟩ := List.mem_map.mp hd
    exact ih info hinfo

/-- A program has but one feature table: by induction on the chain of a resolved class; no other has
an entry. -/
theorem IsTableOf.find?_eq (h : IsTableOf p t) (h' : IsTableOf p t') (a : String) :
    t.find? a = t'.find? a := by
  by_cases hr : p.classTable.isResolved a = true
  · obtain ⟨l, hl⟩ := (ClassTable.sound_ofProgram p).chain a hr
    obtain ⟨info, below, rfl⟩ := List.exists_cons_of_ne_nil hl.ne_nil
    rw [← hl.head_name]
    exact h.find?_eq_of_isChain h' hl info List.mem_cons_self
  · refine Option.ext fun own => ?_
    rw [h a own, h' a own]
    exact or_congr_right ⟨fun ⟨_, _, _, _, hr', _⟩ => absurd hr' hr,
      fun ⟨_, _, _, _, hr', _⟩ => absurd hr' hr⟩

/-! ## Visits -/

/-- Checks classes one after the other, each against the table as it is then, and enters those that
are resolved. The second part says what was reported for which position. -/
def visitAll (classes : ClassTable) (p : Program) (t : FeatureTable) :
    List String → FeatureTable × List (Nat × List Diagnostic)
  | [] => (t, [])
  | a :: order =>
    match declaration? classes p a with
    | none => visitAll classes p t order
    | some (index, c) =>
      let own := t.checkClass classes (classes.isResolved a) c
      let t := if classes.isResolved a then t.insert c.name own.value else t
      let (t, reports) := visitAll classes p t order
      (t, (index, own.reports) :: reports)

/-- The feature table of a program whose classes are visited in this order. -/
def visited (p : Program) (classes : ClassTable) (order : List String) : Diagnosed FeatureTable :=
  let (t, reports) := visitAll classes p .basic order
  ⟨t, inOrder p.classes.length reports⟩

/-- What is reported on a class that is not resolved, whatever the table. -/
theorem checkClass_of_not_resolved (t t' : FeatureTable) (classes : ClassTable) (c : ClassDecl) :
    t.checkClass classes false c = t'.checkClass classes false c := by
  have hsame : ∀ name, name = Names.selfType ∨ (fun _ => True) name →
      classes.resolveType? name = classes.resolveType? name := fun _ _ => rfl
  exact checkClass_over hsame (fun g _ => g.known_true) nofun nofun

/-- The visits enter the resolved classes in their order; and what is reported on the others can be
reported behind all that. -/
theorem visitAll_eq (final : FeatureTable) : ∀ (order : List String) (t : FeatureTable),
    (visitAll classes p t order).1 = (enterAll classes t
      ((order.filter classes.isResolved).filterMap (declaration? classes p))).1 ∧
    (visitAll classes p t order).2.Perm ((enterAll classes t
        ((order.filter classes.isResolved).filterMap (declaration? classes p))).2 ++
      ((order.filter fun a => !classes.isResolved a).filterMap (declaration? classes p)).map
        fun (i, c) => (i, (final.checkClass classes false c).reports))
  | [], _ => ⟨rfl, .refl _⟩
  | a :: order, t => by
    rw [visitAll]
    cases hdecl : declaration? classes p a with
    | none =>
      obtain ⟨htable, hreports⟩ := visitAll_eq final order t
      cases hr : classes.isResolved a with
      | true =>
        rw [List.filter_cons_of_pos hr, List.filter_cons_of_neg (by simp [hr]),
          List.filterMap_cons_none hdecl]
        exact ⟨htable, hreports⟩
      | false =>
        rw [List.filter_cons_of_neg (by simp [hr]), List.filter_cons_of_pos (by simp [hr]),
          List.filterMap_cons_none hdecl]
        exact ⟨htable, hreports⟩
    | some entry =>
      obtain ⟨i, c⟩ := entry
      cases hr : classes.isResolved a with
      | true =>
        obtain ⟨htable, hreports⟩ :=
          visitAll_eq final order (t.insert c.name (t.checkClass classes true c).value)
        rw [List.filter_cons_of_pos hr, List.filter_cons_of_neg (by simp [hr]),
          List.filterMap_cons_some hdecl]
        exact ⟨htable, hreports.cons _⟩
      | false =>
        obtain ⟨htable, hreports⟩ := visitAll_eq final order t
        rw [List.filter_cons_of_neg (by simp [hr]), List.filter_cons_of_pos (by simp [hr]),
          List.filterMap_cons_some hdecl]
        refine ⟨htable, (hreports.cons _).trans ?_⟩
        rw [checkClass_of_not_resolved t final]
        exact List.perm_middle.symm

end FeatureTable

/-! ## Types by the entries of a table -/

section Entries

variable {classes : ClassTable} {features features' : FeatureTable}

theorem ClassTable.agreesOn_self (t : ClassTable) : t.AgreesOn (fun _ => True) t :=
  ⟨fun _ _ => trivial, fun _ _ => rfl, fun _ _ => rfl, fun _ _ => rfl, fun _ _ _ _ => trivial,
    fun _ h => absurd trivial h⟩

theorem FeatureTable.agreesOn_of_find? (h : ∀ a, features'.find? a = features.find? a) :
    features.AgreesOn (fun _ => True) features' :=
  ⟨fun a _ => h a, fun _ _ _ _ => ⟨fun a _ => a.type.known_true,
    fun m _ => ⟨m.returnType.known_true, fun f _ => f.type.known_true⟩⟩⟩

/-- For the types in a class, the entries of the table count. -/
theorem ClassDecl.checkEach_congr (h : ∀ a, features'.find? a = features.find? a)
    (c : ClassDecl) : c.checkEach classes features' = c.checkEach classes features := by
  have hfeatures := FeatureTable.agreesOn_of_find? h
  have hscope : Scope.forClass classes features' c.name = .forClass classes features c.name := by
    rw [Scope.forClass, Scope.forClass,
      hfeatures.visibleAttributes_eq classes.agreesOn_self trivial]
  have hknown : (Scope.forClass classes features c.name).Known fun _ => True :=
    Scope.Known.foldl_declare _ Scope.known_empty fun x _ => x.type.known_true
  have hΓ : (c.context classes features).AgreesOn (fun _ => True) classes features' :=
    ⟨classes.agreesOn_self, hfeatures, trivial⟩
  have heach := (Feature.checkEach_under hΓ hknown c.features []
    fun f _ => f.known_true) (Or.inl fun _ => trivial)
  rw [ClassDecl.checkEach, ClassDecl.checkEach, hscope]
  exact congrArg (· >>= _) heach.1

theorem ClassDecl.checkFrom_congr (h : ∀ a, features'.find? a = features.find? a) :
    ∀ (cs : List ClassDecl) (index : Nat),
      checkFrom classes features' index cs = checkFrom classes features index cs
  | [], _ => rfl
  | c :: cs, index => by
    rw [checkFrom, checkFrom, checkAt, checkAt, checkEach_congr h c, checkFrom_congr h cs]

end Entries

/-! ## The order has no effect -/

namespace FeatureTable

variable {p : Program} {a : String} {order : List String}

/-- What is reported for each position is put into one order. -/
theorem inOrder_eq_of_perm {count : Nat} {l l' : List (Nat × List Diagnostic)} (h : l.Perm l')
    (hnodup : (l.map Prod.fst).Nodup) : inOrder count l = inOrder count l' := by
  refine List.flatMap_congr fun i _ => congrArg (List.flatMap Prod.snd) ?_
  by_cases hi : ∃ ds, (i, ds) ∈ l
  · obtain ⟨ds, hds⟩ := hi
    rw [filter_fst_eq_singleton hnodup hds,
      filter_fst_eq_singleton ((h.map Prod.fst).nodup_iff.mp hnodup) (h.mem_iff.mp hds)]
  · have hnone : ∀ r ∈ l, ¬(r.1 == i) = true := fun r hr heq => hi ⟨r.2, eq_of_beq heq ▸ hr⟩
    rw [List.filter_eq_nil_iff.mpr hnone,
      List.filter_eq_nil_iff.mpr fun r hr => hnone r (h.mem_iff.mpr hr)]

section Order

variable (horder : p.classTable.VisitOrder order)
include horder

theorem find?_visited (a : String) :
    (visited p p.classTable order).value.find? a = p.featureTable.find? a := by
  have htable : (visited p p.classTable order).value = _ :=
    (visitAll_eq p.featureTable order FeatureTable.basic).1
  rw [htable]
  exact (isTableOf_enterAll horder.parents fun _ => horder.mem_resolved_iff).find?_eq
    (isTableOf_ofProgram p) a

theorem perm_visitAll :
    (visitAll p.classTable p .basic order).2.Perm (positioned p) := by
  have hs := ClassTable.sound_ofProgram p
  have hnodup := ClassTable.nodup_ofProgram p
  obtain ⟨htable, hreports⟩ :=
    @visitAll_eq p p.classTable p.featureTable order FeatureTable.basic
  have hfinal : ∀ a, (visitAll p.classTable p .basic order).1.find? a = p.featureTable.find? a :=
    find?_visited horder
  refine hreports.trans ?_
  rw [(enterAll_of_parentsFirst horder.parents (fun _ => horder.mem_resolved_iff) htable.symm).2,
    positioned, enterAll_ofProgram]
  refine List.Perm.append ?_ ?_
  · have hcheck : ∀ c, (visitAll p.classTable p .basic order).1.checkClass p.classTable true c =
        p.featureTable.checkClass p.classTable true c :=
      fun c => checkClass_congr fun b _ => hfinal b
    simp only [hcheck]
    exact ((((horder.perm.filter _).trans (ClassTable.perm_filter_isResolved hs hnodup))).filterMap
      _).map _
  · have hothers : ((p.classTable.classes.filter fun c => !p.classTable.isResolved c.name).filterMap
        fun c => declaration? p.classTable p c.name) =
          ((p.classTable.classes.map ClassInfo.name).filter
            fun a => !p.classTable.isResolved a).filterMap (declaration? p.classTable p) := by
      rw [List.filter_map, List.filterMap_map]
      rfl
    rw [hothers]
    exact ((horder.perm.filter _).filterMap _).map _

theorem reports_visited :
    (visited p p.classTable order).reports = (ofProgram p p.classTable).reports := by
  have hperm := perm_visitAll horder
  rw [reports_eq_inOrder]
  exact inOrder_eq_of_perm hperm ((hperm.map Prod.fst).nodup_iff.mpr (nodup_positions p))

/-- The types of expressions do not depend on it either. -/
theorem checkFrom_visited (index : Nat) (cs : List ClassDecl) :
    ClassDecl.checkFrom p.classTable (visited p p.classTable order).value index cs =
      ClassDecl.checkFrom p.classTable p.featureTable index cs :=
  ClassDecl.checkFrom_congr (find?_visited horder) cs index

end Order

/-- The visits in the order that is used. -/
theorem visited_visitOrder (p : Program) :
    visited p p.classTable p.classTable.visitOrder = ofProgram p p.classTable := by
  have hs := ClassTable.sound_ofProgram p
  have horder := ClassTable.visitOrder_visitOrder hs (ClassTable.nodup_ofProgram p)
  have hvalue : (visited p p.classTable p.classTable.visitOrder).value = p.featureTable := by
    refine (visitAll_eq p.featureTable p.classTable.visitOrder FeatureTable.basic).1.trans ?_
    rw [(ClassTable.filter_visitOrder hs).1]
    rfl
  show (⟨(visited p p.classTable p.classTable.visitOrder).value,
    (visited p p.classTable p.classTable.visitOrder).reports⟩ : Diagnosed FeatureTable) = _
  rw [hvalue, reports_visited horder]

end FeatureTable

/-! ## The features of a class in order -/

namespace FeatureTable

variable {t : FeatureTable} {classes : ClassTable} {c : ClassDecl} {resolved : Bool}

/-- What is reported on the feature at a position of a class, behind those in front of it. -/
def reportsAt (t : FeatureTable) (classes : ClassTable) (resolved : Bool) (c : ClassDecl)
    (k : Nat) : List Diagnostic :=
  c.features[k]?.elim [] fun f =>
    (t.checkFeature classes c resolved
      (t.checkFeatures classes c resolved .empty (c.features.take k)).value f).reports

theorem reports_checkFeatures : ∀ (fs : List Feature) (own : ClassFeatures),
    (t.checkFeatures classes c resolved own fs).reports =
      (List.range fs.length).flatMap fun k => fs[k]?.elim [] fun f =>
        (t.checkFeature classes c resolved
          (t.checkFeatures classes c resolved own (fs.take k)).value f).reports
  | [], _ => rfl
  | f :: fs, own => by
    rw [checkFeatures, Diagnosed.reports_bind, reports_checkFeatures fs, List.length_cons,
      List.range_succ_eq_map, List.flatMap_cons, List.flatMap_map]
    rfl

theorem reports_checkClass : (t.checkClass classes resolved c).reports =
    (List.range c.features.length).flatMap (t.reportsAt classes resolved c) :=
  reports_checkFeatures c.features .empty

end FeatureTable

/-! ## All that is reported -/

namespace Program

variable {p : Program} {i : Nat} {c : ClassDecl}

/-- What is reported on the types in the declaration at a position. -/
def typedAt (p : Program) (i : Nat) : List Diagnostic :=
  p.classes[i]?.elim [] fun c => (c.checkAt p.classTable p.featureTable i).reports

theorem typedAt_of_checks (h : p.Checks i c) : p.typedAt i =
    ((Checker.start p.classTable p.featureTable none).checkClass c).2.collector.entries := by
  rw [typedAt, h.1.1, Option.elim_some, ClassDecl.checkAt, if_pos ((isChecked_iff h.1.1).mpr h),
    (Checker.checkClass_of_limit_eq_none rfl c).2]
  rfl

theorem typedAt_of_not_checks (h : ∀ c, ¬p.Checks i c) : p.typedAt i = [] := by
  rw [typedAt]
  cases hc : p.classes[i]? with
  | none => rfl
  | some c =>
    rw [Option.elim_some, checkAt_of_not_checks hc (h c)]
    rfl

theorem reports_eq_flatMap (p : Program) : p.reports = (ClassTable.ofProgram p).reports ++
    (List.range p.classes.length).flatMap (FeatureTable.reportedAt p) ++
      (List.range p.classes.length).flatMap p.typedAt := by
  rw [reports, reports_checked, ClassDecl.reports_checkFrom]
  refine congrArg _ (List.flatMap_congr fun i _ => ?_)
  rw [Nat.zero_add, typedAt]

theorem tier_of_mem_reportedAt {d : Diagnostic} (hi : i < p.classes.length)
    (hd : d ∈ FeatureTable.reportedAt p i) : d.tier = .declaration :=
  FeatureTable.reportsOnly_ofProgram p p.classTable d
    (List.mem_flatMap.mpr ⟨i, List.mem_range.mpr hi, hd⟩)

theorem tier_of_mem_typedAt {d : Diagnostic} (hi : i < p.classes.length)
    (hd : d ∈ p.typedAt i) : d.tier = .typing := by
  refine tier_of_mem_checked (p := p) ?_
  rw [reports_checked, ClassDecl.reports_checkFrom]
  refine List.mem_flatMap.mpr ⟨i, List.mem_range.mpr hi, ?_⟩
  rw [Nat.zero_add]
  exact hd

end Program

/-- All defects of the hierarchy are reported first, then those of the features of each declaration,
then those of the types in each declaration, the declarations in the order of the program and the
features in the order of their class. On an accepted declaration is reported what its features give
with the entries of its proper ancestors, and, if it is resolved, what a check of the class by
itself reports; a declaration that is refused has no such reports. The order in which the features
of the classes are checked has no effect. -/
theorem Program.diagnostics_inOrder (p : Program) :
    ∃ declared typed : Nat → List Diagnostic,
      (p.analyze none).diagnostics = (p.analyze none).inTier .structural ++
        (List.range p.classes.length).flatMap declared ++
          (List.range p.classes.length).flatMap typed ∧
      (∀ i < p.classes.length,
        (∀ d ∈ declared i, d.tier = .declaration) ∧ ∀ d ∈ typed i, d.tier = .typing) ∧
      (∀ i c, p.Accepts i c → ∀ t : FeatureTable,
        (∀ b ∈ (p.classTable.ancestors c.parent).map ClassInfo.name,
          t.find? b = p.featureTable.find? b) →
        declared i = (t.checkClass p.classTable (p.classTable.isResolved c.name) c).reports ∧
        declared i = (List.range c.features.length).flatMap
          (t.reportsAt p.classTable (p.classTable.isResolved c.name) c)) ∧
      (∀ i, (∀ c, ¬p.Accepts i c) → declared i = []) ∧
      (∀ i c, p.Checks i c → typed i =
        ((Checker.start p.classTable p.featureTable none).checkClass c).2.collector.entries) ∧
      (∀ i, (∀ c, ¬p.Checks i c) → typed i = []) ∧
      p.classTable.VisitOrder p.classTable.visitOrder ∧
      FeatureTable.visited p p.classTable p.classTable.visitOrder =
        FeatureTable.ofProgram p p.classTable ∧
      ∀ order, p.classTable.VisitOrder order →
        (FeatureTable.visited p p.classTable order).reports =
          (FeatureTable.ofProgram p p.classTable).reports ∧
        (∀ a, (FeatureTable.visited p p.classTable order).value.find? a =
          p.featureTable.find? a) ∧
        ClassDecl.checkFrom p.classTable (FeatureTable.visited p p.classTable order).value 0
            p.classes =
          ClassDecl.checkFrom p.classTable p.featureTable 0 p.classes := by
  refine ⟨FeatureTable.reportedAt p, p.typedAt, ?_, fun i hi => ⟨?_, ?_⟩,
    fun i c haccepts t ht => ?_, fun i => FeatureTable.reportedAt_of_not_accepts,
    fun i c => typedAt_of_checks, fun i => typedAt_of_not_checks, ?_,
    FeatureTable.visited_visitOrder p, fun order horder => ?_⟩
  · rw [(inTier_analyze p).1, ← reports_eq_flatMap, analyze_none]
  · exact fun d hd => tier_of_mem_reportedAt hi hd
  · exact fun d hd => tier_of_mem_typedAt hi hd
  · have hreported := FeatureTable.reportedAt_of_accepts haccepts
    rw [← FeatureTable.checkClass_congr ht] at hreported
    exact ⟨hreported, hreported.trans FeatureTable.reports_checkClass⟩
  · exact ClassTable.visitOrder_visitOrder (ClassTable.sound_ofProgram p)
      (ClassTable.nodup_ofProgram p)
  · exact ⟨FeatureTable.reports_visited horder, FeatureTable.find?_visited horder,
      FeatureTable.checkFrom_visited horder 0 p.classes⟩

/-- A class in front of its parent, a class that is declared again, and one whose parent nothing
declares. Every declaration names a type that nothing declares, and one body has a wrong type. -/
def Sample.outOfOrder : Program :=
  ⟨[⟨"B", "A", [.method ⟨"m", [], "Int", .bool (.untyped default) true, default⟩,
      .attr ⟨"x", "T", none, default⟩], "", default⟩,
    ⟨"B", "A", [.attr ⟨"y", "T", none, default⟩], "", default⟩,
    ⟨"D", "E", [.attr ⟨"z", "T", none, default⟩], "", default⟩,
    ⟨"A", "Object", [.attr ⟨"w", "T", none, default⟩], "", default⟩]⟩

/-- What is reported does not follow the visits: here the unresolved class comes first, and the last
declaration before the first one. -/
theorem Program.diagnostics_inOrder_outOfOrder :
    Sample.outOfOrder.classTable.VisitOrder
        ["D", "Object", "String", "A", "B", "Bool", "IO", "Int"] ∧
      (FeatureTable.visited Sample.outOfOrder Sample.outOfOrder.classTable
          ["D", "Object", "String", "A", "B", "Bool", "IO", "Int"]).reports =
        (FeatureTable.ofProgram Sample.outOfOrder Sample.outOfOrder.classTable).reports ∧
      ∃ declared typed : Nat → List Diagnostic,
        (Sample.outOfOrder.analyze none).diagnostics =
          (Sample.outOfOrder.analyze none).inTier .structural ++
            [0, 1, 2, 3].flatMap declared ++ [0, 1, 2, 3].flatMap typed ∧
        (declared 0).length = 1 ∧ declared 1 = [] ∧ (declared 2).length = 1 ∧
          (typed 0).length = 1 ∧ typed 2 = [] := by
  have horder : Sample.outOfOrder.classTable.VisitOrder
      ["D", "Object", "String", "A", "B", "Bool", "IO", "Int"] :=
    ⟨by decide +kernel, by decide +kernel⟩
  obtain ⟨declared, typed, hall, -, hdeclared, hrefused, htyped, hunchecked, -, -, hvisited⟩ :=
    diagnostics_inOrder Sample.outOfOrder
  have hchecks : Sample.outOfOrder.Checks 0 Sample.outOfOrder.classes[0] :=
    (isChecked_iff rfl).mp (by decide +kernel)
  have hdecl : FeatureTable.declaration? Sample.outOfOrder.classTable Sample.outOfOrder "D" =
      some (2, Sample.outOfOrder.classes[2]) := by
    rfl
  have haccepts := (FeatureTable.declaration?_eq_some_iff.mp hdecl).1
  have hfirst := (hdeclared 0 _ hchecks.1 Sample.outOfOrder.featureTable fun _ _ => rfl).1
  have hthird := (hdeclared 2 _ haccepts Sample.outOfOrder.featureTable fun _ _ => rfl).1
  refine ⟨horder, (hvisited _ horder).1, declared, typed, hall, ?_, hrefused 1 fun c hc => ?_, ?_,
    ?_, hunchecked 2 fun c hc => ?_⟩
  · rw [hfirst]
    decide +kernel
  · -- the name has been given to the first declaration
    have hname : c.name = "B" := by cases hc.1; rfl
    exact hc.2.2 0 _ Nat.zero_lt_one rfl hname.symm
  · rw [hthird]
    decide +kernel
  · rw [htyped 0 _ hchecks]
    decide +kernel
  · have hname : c.name = "D" := by cases hc.1.1; rfl
    have hr := hc.2
    rw [hname] at hr
    revert hr
    decide +kernel

end Cool
