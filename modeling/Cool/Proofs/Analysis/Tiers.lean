import Cool.FeatureTable.Build
import Cool.Proofs.Hierarchy.Cycles
import Cool.Proofs.Tree.Places

/-!
# The tiers of what is reported

Each pass reports defects of its own tier, and what is wrong with a declaration in its file.

* `StructuralDefect.ReportedIn`, `DeclarationDefect.ReportedAt` : a defect, at a place in a file;
* `ClassTable.reportsOnly_declareAll`, `ClassTable.reportsOnly_findUndefinedParents`,
  `FeatureTable.reportsOnly_checkFeatures` : where defects are reported;
* `ClassTable.exists_defect_of_mem_reports`, `FeatureTable.exists_defect_of_mem_reports` : the two
  tables of a program report defects of the hierarchy, and defects of declarations;
* `ClassTable.reportsOnly_ofProgram`, `FeatureTable.reportsOnly_ofProgram` : so they report in their
  tiers.
-/

namespace Cool

open Diagnosed

/-- A defect of the hierarchy, at a place in a file. -/
def StructuralDefect.ReportedIn (file : String) (d : Diagnostic) : Prop :=
  ∃ defect span, d = .located (.structural defect) file span

/-- A defect of a declaration, at one of some places in a file. -/
def DeclarationDefect.ReportedAt (file : String) (places : List Span) (d : Diagnostic) : Prop :=
  ∃ defect, ∃ span ∈ places, d = .located (.declaration defect) file span

/-! ## The class table -/

namespace ClassTable

theorem reportsOnly_reportAt (file : String) (span : Span) (defect : StructuralDefect) :
    (reportAt file span defect).ReportsOnly (StructuralDefect.ReportedIn file) :=
  reportsOnly_report ⟨defect, span, rfl⟩

theorem reportsOnly_declare (t : ClassTable) (index : Nat) (c : ClassDecl) :
    (t.declare index c).ReportsOnly (StructuralDefect.ReportedIn c.file) := by
  unfold declare
  dsimp only
  split_ifs
  · exact (reportsOnly_reportAt _ _ _).bind (reportsOnly_pure _)
  · exact (reportsOnly_reportAt _ _ _).bind (reportsOnly_pure _)
  · exact (reportsOnly_reportAt _ _ _).bind (reportsOnly_pure _)
  · exact reportsOnly_pure _

theorem reportsOnly_declareAll : ∀ (cs : List ClassDecl) (t : ClassTable) (index : Nat),
    (t.declareAll index cs).ReportsOnly fun d => ∃ c ∈ cs, StructuralDefect.ReportedIn c.file d
  | [], _, _ => reportsOnly_pure _
  | c :: cs, t, index => by
    refine ReportsOnly.bind (fun d hd => ?_) fun d hd => ?_
    · exact ⟨c, List.mem_cons_self, reportsOnly_declare t index c d hd⟩
    · obtain ⟨e, he, hd⟩ := reportsOnly_declareAll cs _ _ d hd
      exact ⟨e, List.mem_cons_of_mem _ he, hd⟩

theorem reportsOnly_findUndefinedParents (t : ClassTable) :
    t.findUndefinedParents.ReportsOnly fun d =>
      ∃ c ∈ t.classes, (t.undefinedParent? c).isSome = true ∧
        StructuralDefect.ReportedIn c.file d := by
  intro d hd
  obtain ⟨⟨c, parent⟩, hmem, rfl⟩ := List.mem_map.mp hd
  obtain ⟨c, hc, hparent⟩ := List.mem_filterMap.mp hmem
  obtain ⟨parent, hparent, heq⟩ := Option.map_eq_some_iff.mp hparent
  cases heq
  exact ⟨c, hc, by rw [hparent]; rfl, _, _, rfl⟩

theorem reportsOnly_findEntry (t : ClassTable) (p : Program) :
    (t.findEntry p).ReportsOnly fun d => ∃ defect, d.cause = .structural defect := by
  unfold findEntry
  split
  · exact reportsOnly_report ⟨_, rfl⟩
  · split
    · exact reportsOnly_report ⟨_, rfl⟩
    · split_ifs
      · exact reportsOnly_pure ()
      · exact reportsOnly_report ⟨_, rfl⟩

theorem exists_defect_of_mem_reports (p : Program) :
    (ofProgram p).ReportsOnly fun d => ∃ defect, d.cause = .structural defect := by
  refine ReportsOnly.bind (fun d hd => ?_) (ReportsOnly.bind (fun d hd => ?_)
    ((reportsOnly_findEntry _ p).bind fun d hd => ?_))
  · obtain ⟨-, -, defect, span, rfl⟩ := reportsOnly_declareAll p.classes basic 0 d hd
    exact ⟨defect, rfl⟩
  · obtain ⟨-, -, -, defect, span, rfl⟩ := reportsOnly_findUndefinedParents _ d hd
    exact ⟨defect, rfl⟩
  · obtain ⟨info, -, -, rfl⟩ := reportsOnly_findCycles p d hd
    exact ⟨_, rfl⟩

theorem reportsOnly_ofProgram (p : Program) :
    (ofProgram p).ReportsOnly fun d => d.tier = .structural := by
  intro d hd
  obtain ⟨defect, hcause⟩ := exists_defect_of_mem_reports p d hd
  rw [Diagnostic.tier, hcause]
  rfl

end ClassTable

/-! ## The feature table -/

namespace FeatureTable

variable {t : FeatureTable} {classes : ClassTable} {c : ClassDecl} {resolved : Bool}
  {places : List Span}

section Place

variable {span : Span} (hspan : span ∈ places)
include hspan

theorem reportsOnly_reportIn (c : ClassDecl) (defect : DeclarationDefect) :
    (reportIn c span defect).ReportsOnly (DeclarationDefect.ReportedAt c.file places) :=
  reportsOnly_report ⟨defect, span, hspan, rfl⟩

theorem reportsOnly_typeOrObject (name : String) (defect : DeclarationDefect) :
    (typeOrObject classes c span name defect).ReportsOnly
      (DeclarationDefect.ReportedAt c.file places) := by
  unfold typeOrObject
  split
  · exact reportsOnly_pure _
  · exact (reportsOnly_reportIn hspan c defect).bind (reportsOnly_pure _)

end Place

theorem reportsOnly_checkAttribute (own : ClassFeatures) {a : Attribute} (ha : a.span ∈ places) :
    (t.checkAttribute classes c resolved own a).ReportsOnly
      (DeclarationDefect.ReportedAt c.file places) := by
  unfold checkAttribute
  split
  · exact (reportsOnly_reportIn ha c _).bind (reportsOnly_pure own)
  · exact (reportsOnly_typeOrObject ha _ _).bind (reportsOnly_pure _)

theorem reportsOnly_formalType {f : Formal} (hf : f.span ∈ places) :
    (formalType classes c f).ReportsOnly (DeclarationDefect.ReportedAt c.file places) := by
  refine (reportsOnly_typeOrObject hf _ _).bind ?_
  split_ifs
  · exact (reportsOnly_reportIn hf c _).bind (reportsOnly_pure _)
  · exact reportsOnly_pure _

theorem reportsOnly_checkFormals : ∀ (formals : List Formal) (seen : List String),
    (∀ span ∈ formals.map Formal.span, span ∈ places) →
      (checkFormals classes c seen formals).ReportsOnly
        (DeclarationDefect.ReportedAt c.file places)
  | [], _, _ => reportsOnly_pure _
  | f :: formals, seen, h => by
    obtain ⟨hf, hformals⟩ := List.forall_mem_cons.mp h
    have hrest : (formalType classes c f >>= fun type =>
        checkFormals classes c (f.name :: seen) formals >>= fun more =>
          pure (⟨f.name, type⟩ :: more)).ReportsOnly
            (DeclarationDefect.ReportedAt c.file places) :=
      (reportsOnly_formalType hf).bind
        ((reportsOnly_checkFormals formals _ hformals).bind (reportsOnly_pure _))
    unfold checkFormals
    split
    · exact (reportsOnly_reportIn hf c _).bind hrest
    · exact hrest

section Method

variable {m : Method} (hm : ∀ span ∈ (Feature.method m).declaredPlaces, span ∈ places)
include hm

theorem reportsOnly_writtenSignature : (writtenSignature classes c m).ReportsOnly
    (DeclarationDefect.ReportedAt c.file places) := by
  obtain ⟨hspan, hformals⟩ := List.forall_mem_cons.mp hm
  exact (reportsOnly_checkFormals m.formals [] hformals).bind
    ((reportsOnly_typeOrObject hspan _ _).bind (reportsOnly_pure _))

theorem reportsOnly_agreedSignature (written : MethodSig) :
    (t.agreedSignature classes c m written).ReportsOnly
      (DeclarationDefect.ReportedAt c.file places) := by
  unfold agreedSignature
  split
  · exact reportsOnly_pure written
  · split
    · exact reportsOnly_pure written
    · exact (reportsOnly_reportIn (hm _ List.mem_cons_self) c _).bind (reportsOnly_pure _)

theorem reportsOnly_checkMethod (own : ClassFeatures) :
    (t.checkMethod classes c resolved own m).ReportsOnly
      (DeclarationDefect.ReportedAt c.file places) := by
  unfold checkMethod
  split_ifs
  · exact (reportsOnly_reportIn (hm _ List.mem_cons_self) c _).bind (reportsOnly_pure own)
  · exact (reportsOnly_writtenSignature hm).bind
      ((reportsOnly_agreedSignature hm _).bind (reportsOnly_pure _))
  · exact (reportsOnly_writtenSignature hm).bind ((reportsOnly_pure _).bind (reportsOnly_pure _))

end Method

theorem reportsOnly_checkFeatures : ∀ (fs : List Feature) (own : ClassFeatures),
    (∀ f ∈ fs, ∀ span ∈ f.declaredPlaces, span ∈ places) →
      (t.checkFeatures classes c resolved own fs).ReportsOnly
        (DeclarationDefect.ReportedAt c.file places)
  | [], own, _ => reportsOnly_pure own
  | f :: fs, own, h => by
    obtain ⟨hf, hfs⟩ := List.forall_mem_cons.mp h
    refine ReportsOnly.bind ?_ (reportsOnly_checkFeatures fs _ hfs)
    cases f with
    | attr a => exact reportsOnly_checkAttribute own (hf _ List.mem_cons_self)
    | method m => exact reportsOnly_checkMethod hf own

theorem reportsOnly_checkClass (c : ClassDecl) : (t.checkClass classes resolved c).ReportsOnly
    (DeclarationDefect.ReportedAt c.file c.declaredPlaces) :=
  reportsOnly_checkFeatures c.features .empty fun _ hf _ hspan =>
    List.mem_cons_of_mem _ (List.mem_flatMap_of_mem hf hspan)

theorem reportsOnly_enterAll : ∀ (cs : List (Nat × ClassDecl)) (t : FeatureTable),
    ∀ r ∈ (enterAll classes t cs).2, ∀ d ∈ r.2,
      ∃ entry ∈ cs, DeclarationDefect.ReportedAt entry.2.file entry.2.declaredPlaces d
  | [], _ => List.forall_mem_nil _
  | (i, c) :: cs, _ => by
    refine List.forall_mem_cons.mpr ⟨fun d hd => ?_, fun r hr d hd => ?_⟩
    · exact ⟨(i, c), List.mem_cons_self, reportsOnly_checkClass c d hd⟩
    · obtain ⟨entry, hentry, hd⟩ := reportsOnly_enterAll cs _ r hr d hd
      exact ⟨entry, List.mem_cons_of_mem _ hentry, hd⟩

theorem mem_of_declaration? {p : Program} {name : String} {entry : Nat × ClassDecl}
    (h : declaration? classes p name = some entry) : entry.2 ∈ p.classes := by
  obtain ⟨i, -, hentry⟩ := Option.bind_eq_some_iff.mp h
  obtain ⟨c, hc, rfl⟩ := Option.map_eq_some_iff.mp hentry
  exact List.mem_of_getElem? hc

/-- What is wrong with a declaration is reported at a place that the declaration has. -/
theorem exists_class_of_mem_reports (p : Program) (classes : ClassTable) :
    (ofProgram p classes).ReportsOnly fun d =>
      ∃ c ∈ p.classes, DeclarationDefect.ReportedAt c.file c.declaredPlaces d := by
  intro d hd
  obtain ⟨index, -, hd⟩ := List.mem_flatMap.mp hd
  obtain ⟨r, hr, hd⟩ := List.mem_flatMap.mp hd
  rcases List.mem_append.mp (List.mem_filter.mp hr).1 with hr | hr
  · obtain ⟨entry, hentry, hd⟩ := reportsOnly_enterAll _ _ r hr d hd
    obtain ⟨name, -, hentry⟩ := List.mem_filterMap.mp hentry
    exact ⟨entry.2, mem_of_declaration? hentry, hd⟩
  · obtain ⟨⟨i, c⟩, hc, rfl⟩ := List.mem_map.mp hr
    obtain ⟨info, -, hc⟩ := List.mem_filterMap.mp hc
    exact ⟨c, mem_of_declaration? hc, reportsOnly_checkClass c d hd⟩

theorem exists_defect_of_mem_reports (p : Program) (classes : ClassTable) :
    (ofProgram p classes).ReportsOnly fun d => ∃ defect, d.cause = .declaration defect := by
  intro d hd
  obtain ⟨c, -, defect, span, -, rfl⟩ := exists_class_of_mem_reports p classes d hd
  exact ⟨defect, rfl⟩

theorem reportsOnly_ofProgram (p : Program) (classes : ClassTable) :
    (ofProgram p classes).ReportsOnly fun d => d.tier = .declaration := by
  intro d hd
  obtain ⟨defect, hcause⟩ := exists_defect_of_mem_reports p classes d hd
  rw [Diagnostic.tier, hcause]
  rfl

end FeatureTable

end Cool
