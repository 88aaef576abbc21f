import Cool.Proofs.Hierarchy.Built
import Cool.Proofs.Hierarchy.Visits
import Cool.Proofs.Signature.Class

/-!
# The feature table of a program

Classes are entered one after the other, each checked against the table as it is then. As parents
come first, a class finds all its ancestors entered, and these entries never change: so the whole
table says the same about every class as the table at the time did.

* `declaration?_eq_some_iff` : the declarations that are entered;
* `enterAll_of_parentsFirst` : entering classes in any order in which parents come first;
* `IsTableOf`, `find?_ofProgram_iff` : every entry is what its declaration gives in the whole table;
* `reports_ofProgram_eq_nil_iff` : nothing is reported exactly if all classes are well declared;
* `find?_of_reports_eq_nil` : and then the entries are what is written.
-/

namespace Cool

/-- The class table of a program. -/
abbrev Program.classTable (p : Program) : ClassTable :=
  (ClassTable.ofProgram p).value

/-- The feature table of a program. -/
abbrev Program.featureTable (p : Program) : FeatureTable :=
  (FeatureTable.ofProgram p p.classTable).value

namespace FeatureTable

variable {p : Program} {classes : ClassTable} {t : FeatureTable} {a b name : String} {i : Nat}
  {c : ClassDecl} {own : ClassFeatures} {done order : List String}

/-! ## Declarations -/

theorem declaration?_eq_some_iff :
    declaration? p.classTable p a = some (i, c) ↔ p.Accepts i c ∧ c.name = a := by
  unfold declaration?
  constructor
  · intro h
    obtain ⟨index, hindex, h⟩ := Option.bind_eq_some_iff.mp h
    obtain ⟨info, hinfo, horigin⟩ := Option.bind_eq_some_iff.mp hindex
    obtain ⟨d, hd, hpair⟩ := Option.map_eq_some_iff.mp h
    cases hpair
    obtain ⟨hbasic | ⟨j, d, haccepts, rfl⟩, rfl⟩ := ClassTable.find?_ofProgram.mp hinfo
    · have hnone : ∀ info ∈ ClassTable.basic.classes, info.origin.index? = none := by decide
      rw [hnone info hbasic] at horigin
      cases horigin
    · cases horigin
      rw [haccepts.1] at hd
      cases hd
      exact ⟨haccepts, rfl⟩
  · rintro ⟨haccepts, rfl⟩
    rw [ClassTable.find?_of_accepts haccepts]
    show p.classes[i]?.map (fun c => (i, c)) = some (i, c)
    rw [haccepts.1]
    rfl

/-- The class that a program starts with. -/
theorem mainDecl?_eq_some_iff : (ClassTable.checkedIn p).value.mainDecl? p = some c ↔
    (∃ i, p.Accepts i c) ∧ c.name = Names.main := by
  have hmain : (ClassTable.checkedIn p).value.mainDecl? p =
      (declaration? p.classTable p Names.main).map Prod.snd := by
    rw [ClassTable.mainDecl?, declaration?, ClassTable.find?_eq_find?_checkedIn, Option.map_bind]
    simp [Function.comp_def]
  rw [hmain, Option.map_eq_some_iff]
  constructor
  · rintro ⟨⟨i, d⟩, hd, rfl⟩
    obtain ⟨haccepts, hname⟩ := declaration?_eq_some_iff.mp hd
    exact ⟨⟨i, haccepts⟩, hname⟩
  · rintro ⟨⟨i, haccepts⟩, hname⟩
    exact ⟨(i, c), declaration?_eq_some_iff.mpr ⟨haccepts, hname⟩, rfl⟩

theorem parentOf?_of_accepts (h : p.Accepts i c) :
    p.classTable.parentOf? c.name = some c.parent :=
  ClassTable.parentOf?_eq_of_find? (ClassTable.find?_of_accepts h)

/-! ## Entering classes -/

theorem find?_insert (t : FeatureTable) (name : String) (own : ClassFeatures) :
    (t.insert name own).find? a = (t.find? a).or (if name = a then some own else none) := by
  rw [find?, insert, List.find?_append]
  cases hfind : t.entries.find? fun entry => entry.1 == a with
  | some entry => simp [find?, hfind]
  | none => by_cases h : name = a <;> simp [find?, hfind, h]

/-- Entries stay as they are. -/
theorem find?_enterAll_of_find? : ∀ (cs : List (Nat × ClassDecl)) {t : FeatureTable},
    t.find? a = some own → (enterAll classes t cs).1.find? a = some own
  | [], _, h => h
  | (i, c) :: cs, t, h => by
    refine find?_enterAll_of_find? cs ?_
    rw [find?_insert, h]
    rfl

theorem find?_enterAll_of_not_mem : ∀ (cs : List (Nat × ClassDecl)) {t : FeatureTable},
    a ∉ cs.map (fun entry => entry.2.name) → (enterAll classes t cs).1.find? a = t.find? a
  | [], _, _ => rfl
  | (i, c) :: cs, t, h => by
    rw [List.map_cons, List.mem_cons, not_or] at h
    refine (find?_enterAll_of_not_mem cs h.2).trans ?_
    rw [find?_insert, if_neg (Ne.symm h.1), Option.or_none]

theorem mem_of_mem_filterMap {decl : String → Option (Nat × ClassDecl)}
    (hdecl : ∀ a i c, decl a = some (i, c) → c.name = a)
    (h : a ∈ (order.filterMap decl).map fun entry => entry.2.name) : a ∈ order := by
  obtain ⟨⟨i, c⟩, hentry, rfl⟩ := List.mem_map.mp h
  obtain ⟨b, hb, hdb⟩ := List.mem_filterMap.mp hentry
  exact hdecl b i c hdb ▸ hb

/-- What is entered and reported for each class, said in terms of the table at the end. -/
theorem enterAll_eq (decl : String → Option (Nat × ClassDecl)) (hs : classes.Sound)
    (hdecl : ∀ a i c, decl a = some (i, c) → c.name = a ∧ classes.parentOf? a = some c.parent)
    (horder : classes.ParentsFirst done order)
    (hclosed : ∀ a ∈ done, ∀ b, classes.parentOf? a = some b → b ∈ done)
    (hresolved : ∀ a ∈ order, classes.isResolved a = true)
    (hnew : ∀ a ∈ order, (decl a).isSome = true → t.find? a = none)
    (final : FeatureTable) (hfinal : (enterAll classes t (order.filterMap decl)).1 = final) :
    (∀ a ∈ order, ∀ i c, decl a = some (i, c) →
      final.find? a = some (final.checkClass classes true c).value) ∧
    (enterAll classes t (order.filterMap decl)).2 =
      (order.filterMap decl).map fun (i, c) => (i, (final.checkClass classes true c).reports) := by
  induction horder generalizing t with
  | nil => exact ⟨fun a ha => absurd ha List.not_mem_nil, rfl⟩
  | @cons done order a hdone hparent hrest ih =>
    have hclosed' : ∀ b ∈ a :: done, ∀ d, classes.parentOf? b = some d → d ∈ a :: done := by
      intro b hb d hd
      rcases List.mem_cons.mp hb with rfl | hb
      · exact List.mem_cons_of_mem _ (hparent d hd)
      · exact List.mem_cons_of_mem _ (hclosed b hb d hd)
    have hresolved' := fun b hb => hresolved b (List.mem_cons_of_mem _ hb)
    cases ha : decl a with
    | none =>
      rw [List.filterMap_cons_none ha] at hfinal ⊢
      obtain ⟨hentries, hreports⟩ := ih hclosed' hresolved'
        (fun b hb => hnew b (List.mem_cons_of_mem _ hb)) hfinal
      refine ⟨fun b hb i c hbc => ?_, hreports⟩
      rcases List.mem_cons.mp hb with rfl | hb
      · rw [ha] at hbc
        cases hbc
      · exact hentries b hb i c hbc
    | some entry =>
      obtain ⟨i, c⟩ := entry
      obtain ⟨hname, hparentOf⟩ := hdecl a i c ha
      have hnone : t.find? a = none := hnew a List.mem_cons_self (by rw [ha]; rfl)
      rw [List.filterMap_cons_some ha] at hfinal ⊢
      -- the ancestors have been entered, and nothing that follows touches their entries
      have hcheck : t.checkClass classes true c = final.checkClass classes true c := by
        refine checkClass_congr fun b hb => ?_
        have hr := hs.parent a c.parent (hresolved a List.mem_cons_self) hparentOf
        have hbdone : b ∈ done :=
          ((hs.mem_ancestors_iff hr).mp hb).mem_of_closed hclosed (hparent _ hparentOf)
        rw [← hfinal, find?_enterAll_of_not_mem]
        rw [← List.filterMap_cons_some ha]
        intro hmem
        have hborder := mem_of_mem_filterMap (fun a i c h => (hdecl a i c h).1) hmem
        exact (ClassTable.ParentsFirst.cons hdone hparent hrest).not_mem_done hborder hbdone
      have hinsert : (t.insert c.name (t.checkClass classes true c).value).find? a =
          some (t.checkClass classes true c).value := by
        rw [find?_insert, hnone, hname, if_pos rfl]
        rfl
      obtain ⟨hentries, hreports⟩ := ih
        (t := t.insert c.name (t.checkClass classes true c).value) hclosed' hresolved'
        (fun b hb hsome => by
          have hne : c.name ≠ b := by
            rintro rfl
            exact hrest.not_mem_done hb (hname ▸ List.mem_cons_self)
          rw [find?_insert, hnew b (List.mem_cons_of_mem _ hb) hsome, if_neg hne]
          rfl) hfinal
      refine ⟨fun b hb j d hbd => ?_, ?_⟩
      · rcases List.mem_cons.mp hb with rfl | hb
        · rw [ha] at hbd
          cases hbd
          rw [← hcheck, ← hfinal]
          exact find?_enterAll_of_find? (order.filterMap decl) hinsert
        · exact hentries b hb j d hbd
      · show (i, (t.checkClass classes true c).reports) :: _ =
          (i, (final.checkClass classes true c).reports) :: _
        rw [hcheck]
        exact congrArg (List.cons _) (hcheck ▸ hreports)

/-! ## The table of a program -/

theorem find?_basic_eq_none (h : a ∉ Names.basic) : FeatureTable.basic.find? a = none := by
  have hsub : ∀ entry ∈ FeatureTable.basic.entries, entry.1 ∈ Names.basic := by decide
  rw [find?, Option.map_eq_none_iff, List.find?_eq_none]
  intro entry hentry heq
  exact h (eq_of_beq heq ▸ hsub entry hentry)

theorem ownMethod?_of_basic : ∀ k ∈ Builtin.classes, ∀ d ∈ k.methods,
    FeatureTable.basic.ownMethod? k.name d.name = some (signature k.name d) := by
  decide

theorem ownMethod?_basic_iff {m : MethodSig} : FeatureTable.basic.ownMethod? a name = some m ↔
    ∃ k ∈ Builtin.classes, k.name = a ∧ ∃ d ∈ k.methods, d.name = name ∧ m = signature a d := by
  constructor
  · intro h
    obtain ⟨own, hown, hm⟩ := Option.bind_eq_some_iff.mp h
    obtain ⟨entry, hentry, rfl⟩ := Option.map_eq_some_iff.mp hown
    obtain ⟨k, hk, rfl⟩ := List.mem_map.mp (List.mem_of_find?_eq_some hentry)
    obtain rfl : k.name = a := by simpa using List.find?_some hentry
    obtain ⟨d, hd, rfl⟩ := List.mem_map.mp (List.mem_of_find?_eq_some hm)
    have hname : (signature k.name d).name = name := by simpa using List.find?_some hm
    exact ⟨k, hk, rfl, d, hd, hname, rfl⟩
  · rintro ⟨k, hk, rfl, d, hd, rfl, rfl⟩
    exact ownMethod?_of_basic k hk d hd

theorem not_mem_basic_of_accepts (h : p.Accepts i c) : c.name ∉ Names.basic := by
  intro hmem
  have hreserved := h.2.1
  simp [ClassTable.isReserved, hmem] at hreserved

/-- A table in which every entry that is not basic is what an accepted and resolved declaration
gives in it. -/
def IsTableOf (p : Program) (t : FeatureTable) : Prop :=
  ∀ a own, t.find? a = some own ↔ FeatureTable.basic.find? a = some own ∨
    ∃ i c, p.Accepts i c ∧ c.name = a ∧ p.classTable.isResolved a = true ∧
      own = (t.checkClass p.classTable true c).value

section Entered

variable (horder : p.classTable.ParentsFirst [] order)
  (hmem : ∀ a, a ∈ order ↔ p.classTable.isResolved a = true)
include horder hmem

/-- Resolved classes may be entered in any order in which parents come first. -/
theorem enterAll_of_parentsFirst {final : FeatureTable}
    (hfinal : (enterAll p.classTable .basic
      (order.filterMap (declaration? p.classTable p))).1 = final) :
    (∀ i c, p.Accepts i c → p.classTable.isResolved c.name = true →
      final.find? c.name = some (final.checkClass p.classTable true c).value) ∧
    (enterAll p.classTable .basic (order.filterMap (declaration? p.classTable p))).2 =
      (order.filterMap (declaration? p.classTable p)).map
        fun (i, c) => (i, (final.checkClass p.classTable true c).reports) := by
  obtain ⟨hentries, hreports⟩ := enterAll_eq (t := .basic)
    (declaration? p.classTable p) (ClassTable.sound_ofProgram p)
    (fun a i c h => by
      obtain ⟨haccepts, rfl⟩ := declaration?_eq_some_iff.mp h
      exact ⟨rfl, parentOf?_of_accepts haccepts⟩)
    horder (fun a ha => absurd ha List.not_mem_nil) (fun a ha => (hmem a).mp ha)
    (fun a _ hsome => by
      obtain ⟨⟨i, c⟩, h⟩ := Option.isSome_iff_exists.mp hsome
      obtain ⟨haccepts, rfl⟩ := declaration?_eq_some_iff.mp h
      exact find?_basic_eq_none (not_mem_basic_of_accepts haccepts))
    final hfinal
  refine ⟨fun i c haccepts hr => ?_, hreports⟩
  exact hentries c.name ((hmem c.name).mpr hr) i c (declaration?_eq_some_iff.mpr ⟨haccepts, rfl⟩)

theorem isTableOf_enterAll : IsTableOf p
    (enterAll p.classTable .basic (order.filterMap (declaration? p.classTable p))).1 := by
  obtain ⟨hentries, -⟩ := enterAll_of_parentsFirst horder hmem rfl
  intro a own
  constructor
  · intro h
    by_cases hentered : a ∈ (order.filterMap (declaration? p.classTable p)).map
        fun entry => entry.2.name
    · obtain ⟨⟨i, c⟩, hentry, rfl⟩ := List.mem_map.mp hentered
      obtain ⟨a, ha, hdecl⟩ := List.mem_filterMap.mp hentry
      obtain ⟨haccepts, rfl⟩ := declaration?_eq_some_iff.mp hdecl
      have hr := (hmem _).mp ha
      rw [hentries _ c haccepts hr] at h
      exact Or.inr ⟨i, c, haccepts, rfl, hr, (Option.some.inj h).symm⟩
    · exact Or.inl ((find?_enterAll_of_not_mem _ hentered).symm.trans h)
  · rintro (h | ⟨i, c, haccepts, rfl, hr, rfl⟩)
    · exact find?_enterAll_of_find? _ h
    · exact hentries i c haccepts hr

end Entered

theorem enterAll_ofProgram (p : Program) :
    (enterAll p.classTable .basic
      (p.classTable.resolvedOrder.filterMap (declaration? p.classTable p))).2 =
      (p.classTable.resolvedOrder.filterMap (declaration? p.classTable p)).map
        fun (i, c) => (i, (p.featureTable.checkClass p.classTable true c).reports) := by
  have hs := ClassTable.sound_ofProgram p
  exact (enterAll_of_parentsFirst (ClassTable.parentsFirst_resolvedOrder hs)
    (fun _ => ClassTable.mem_resolvedOrder_iff hs) rfl).2

theorem isTableOf_ofProgram (p : Program) : IsTableOf p p.featureTable :=
  isTableOf_enterAll (ClassTable.parentsFirst_resolvedOrder (ClassTable.sound_ofProgram p))
    fun _ => ClassTable.mem_resolvedOrder_iff (ClassTable.sound_ofProgram p)

/-- The entries: of the basic classes, and of the declarations that are accepted and resolved. -/
theorem find?_ofProgram_iff :
    p.featureTable.find? a = some own ↔ FeatureTable.basic.find? a = some own ∨
      ∃ i c, p.Accepts i c ∧ c.name = a ∧ p.classTable.isResolved a = true ∧
        own = (p.featureTable.checkClass p.classTable true c).value :=
  isTableOf_ofProgram p a own

/-! ## Reports -/

theorem inOrder_eq_nil_iff {count : Nat} {reports : List (Nat × List Diagnostic)}
    (h : ∀ r ∈ reports, r.1 < count) :
    inOrder count reports = [] ↔ ∀ r ∈ reports, r.2 = [] := by
  simp only [inOrder, List.flatMap_eq_nil_iff, List.mem_range, List.mem_filter, beq_iff_eq]
  constructor
  · intro hnil r hr
    exact hnil r.1 (h r hr) r ⟨hr, rfl⟩
  · intro hnil _ _ r hr
    exact hnil r hr.1

/-- The reports of all declarations, each with its position. -/
theorem mem_reports_iff {r : Nat × List Diagnostic} :
    r ∈ (enterAll p.classTable .basic
        (p.classTable.resolvedOrder.filterMap (declaration? p.classTable p))).2 ++
      ((p.classTable.classes.filter fun c => !p.classTable.isResolved c.name).filterMap fun c =>
        declaration? p.classTable p c.name).map
          (fun (i, c) => (i, (p.featureTable.checkClass p.classTable false c).reports)) ↔
      ∃ i c, p.Accepts i c ∧ r = (i, (p.featureTable.checkClass p.classTable
        (p.classTable.isResolved c.name) c).reports) := by
  have hs := ClassTable.sound_ofProgram p
  rw [enterAll_ofProgram p, List.mem_append, List.mem_map, List.mem_map]
  constructor
  · rintro (⟨⟨i, c⟩, hentry, rfl⟩ | ⟨⟨i, c⟩, hentry, rfl⟩)
    · obtain ⟨a, ha, hdecl⟩ := List.mem_filterMap.mp hentry
      obtain ⟨haccepts, rfl⟩ := declaration?_eq_some_iff.mp hdecl
      exact ⟨i, c, haccepts, by rw [(ClassTable.mem_resolvedOrder_iff hs).mp ha]⟩
    · obtain ⟨info, hinfo, hdecl⟩ := List.mem_filterMap.mp hentry
      obtain ⟨haccepts, hname⟩ := declaration?_eq_some_iff.mp hdecl
      have hr := (List.mem_filter.mp hinfo).2
      rw [Bool.not_eq_true', ← hname] at hr
      exact ⟨i, c, haccepts, by rw [hr]⟩
  · rintro ⟨i, c, haccepts, rfl⟩
    have hdecl := declaration?_eq_some_iff.mpr ⟨haccepts, rfl⟩
    cases hr : p.classTable.isResolved c.name with
    | true =>
      refine Or.inl ⟨(i, c), List.mem_filterMap.mpr ⟨c.name, ?_, hdecl⟩, rfl⟩
      exact (ClassTable.mem_resolvedOrder_iff hs).mpr hr
    | false =>
      refine Or.inr ⟨(i, c), List.mem_filterMap.mpr ⟨c.info i, ?_, hdecl⟩, rfl⟩
      have hmem := ClassTable.mem_of_find? (ClassTable.find?_of_accepts haccepts)
      refine List.mem_filter.mpr ⟨hmem, ?_⟩
      show (!p.classTable.isResolved c.name) = true
      rw [hr]
      rfl

theorem reports_ofProgram_eq_nil_iff :
    (ofProgram p p.classTable).reports = [] ↔ ∀ i c, p.Accepts i c →
      c.WellDeclared p.featureTable p.classTable (p.classTable.isResolved c.name) := by
  have hbelow : ∀ i c, p.Accepts i c → i < p.classes.length :=
    fun i c h => (List.getElem?_eq_some_iff.mp h.1).1
  refine (inOrder_eq_nil_iff fun r hr => ?_).trans ?_
  · obtain ⟨i, c, haccepts, rfl⟩ := mem_reports_iff.mp hr
    exact hbelow i c haccepts
  · constructor
    · intro h i c haccepts
      have hnil := h _ (mem_reports_iff.mpr ⟨i, c, haccepts, rfl⟩)
      exact (checkClass_eq_pure_iff.mp (Diagnosed.eq_pure_of_reports hnil)).1
    · intro h r hr
      obtain ⟨i, c, haccepts, rfl⟩ := mem_reports_iff.mp hr
      exact (Diagnosed.eq_pure_iff.mp
        (checkClass_eq_pure_iff.mpr ⟨h i c haccepts, rfl⟩)).2

theorem find?_of_reports_eq_nil (h : (ofProgram p p.classTable).reports = [])
    (haccepts : p.Accepts i c) (hr : p.classTable.isResolved c.name = true) :
    p.featureTable.find? c.name = some c.signatures := by
  have hdeclared := reports_ofProgram_eq_nil_iff.mp h i c haccepts
  rw [hr] at hdeclared
  rw [find?_ofProgram_iff.mpr (Or.inr ⟨i, c, haccepts, rfl, hr, rfl⟩),
    checkClass_eq_pure_iff.mpr ⟨hdeclared, rfl⟩]
  rfl

end FeatureTable

end Cool
