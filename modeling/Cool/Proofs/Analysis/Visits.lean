import Cool.Proofs.Analysis.Annotation
import Cool.Proofs.Typing.Visits

/-!
# What an analysis visits

The check of a class visits the initial values and bodies of its features. All that the analysis of
a program reports on types is reported at one of these visits, or where an initial value or a body
is compared with the type that is declared; all that it notes are types of visits.

* `Feature.value_checkEach`, `Feature.reports_checkEach` : features one by one;
* `ClassDecl.HasRoot`, `ClassDecl.mem_roots_iff` : the initial values and bodies of a class;
* `ClassDecl.mem_reports_checkEach_iff`, `ClassDecl.exists_visits_of_mem_notes` : what is reported
  and noted in a class.
-/

namespace Cool

open Diagnosed

variable {c : ClassDecl} {classes : ClassTable} {features : FeatureTable}
  {Γ : Context} {σ : Scope} {seen : List String} {d : Diagnostic} {note : Note}

namespace Feature

theorem value_checkEach : ∀ (fs : List Feature) (seen : List String),
    (Feature.checkEach Γ σ seen fs).value =
      (withSeen seen fs).map fun x => (x.2.check Γ σ x.1).value
  | [], _ => rfl
  | f :: fs, seen => by
    simp only [Feature.checkEach, value_bind, value_pure, value_checkEach fs, withSeen,
      List.map_cons]

theorem reports_checkEach : ∀ (fs : List Feature) (seen : List String),
    (Feature.checkEach Γ σ seen fs).reports =
      (withSeen seen fs).flatMap fun x => (x.2.check Γ σ x.1).reports
  | [], _ => rfl
  | f :: fs, seen => by
    simp only [Feature.checkEach, reports_bind, reports_pure, List.append_nil,
      reports_checkEach fs, withSeen, List.flatMap_cons]

theorem mem_reports_check_iff {f : Feature} : d ∈ (f.check Γ σ seen).reports ↔
    ∃ v, f.root? Γ σ seen = some v ∧
      (d ∈ (v.check Γ).reports ∨ d ∈ (f.checkDeclared Γ seen (v.type Γ)).reports) := by
  rw [f.reports_check]
  cases f.root? Γ σ seen with
  | none => simp
  | some v => simp

theorem mem_notes_check_iff {f : Feature} : note ∈ (f.check Γ σ seen).value.notes ↔
    ∃ v, f.root? Γ σ seen = some v ∧ note ∈ (v.check Γ).value.1.notes := by
  rw [f.notes_check]
  cases f.root? Γ σ seen with
  | none => simp
  | some v => simp

end Feature

namespace ClassDecl

/-- The initial value or the body of a feature of the class, with the names of the methods in front
of it. -/
def HasRoot (Γ : Context) (c : ClassDecl) (seen : List String) (f : Feature) (v : Visit) : Prop :=
  (seen, f) ∈ Feature.withSeen [] c.features ∧
    f.root? Γ (.forClass Γ.classes Γ.features Γ.className) seen = some v

theorem mem_roots_iff {v : Visit} : v ∈ c.roots Γ ↔ ∃ seen f, c.HasRoot Γ seen f v := by
  simp only [roots, List.mem_filterMap, Prod.exists, HasRoot]

/-- What is reported on a class is reported at a visit, or where the type of a feature is compared
with the one that is declared. -/
theorem mem_reports_checkEach_iff : d ∈ (c.checkEach classes features).reports ↔
    (∃ v, c.Visits (c.context classes features) v ∧
      d ∈ (v.node (c.context classes features)).reports) ∨
    ∃ seen f v, c.HasRoot (c.context classes features) seen f v ∧
      d ∈ (f.checkDeclared (c.context classes features) seen
        (v.type (c.context classes features))).reports := by
  rw [checkEach, reports_bind, reports_pure, List.append_nil, Feature.reports_checkEach]
  simp only [List.mem_flatMap, Prod.exists, Feature.mem_reports_check_iff,
    Context.mem_reports_check_iff]
  constructor
  · rintro ⟨seen, f, hf, root, hroot, ⟨v, hv, hd⟩ | hd⟩
    · exact Or.inl ⟨v, ⟨root, mem_roots_iff.mpr ⟨seen, f, hf, hroot⟩, hv⟩, hd⟩
    · exact Or.inr ⟨seen, f, root, ⟨hf, hroot⟩, hd⟩
  · rintro (⟨v, ⟨root, hmem, hv⟩, hd⟩ | ⟨seen, f, root, ⟨hf, hroot⟩, hd⟩)
    · obtain ⟨seen, f, hf, hroot⟩ := mem_roots_iff.mp hmem
      exact ⟨seen, f, hf, root, hroot, Or.inl ⟨v, hv, hd⟩⟩
    · exact ⟨seen, f, hf, root, hroot, Or.inr hd⟩

/-- The notes of a checked feature are the types of visits. -/
theorem exists_visits_of_mem_notes {f : Feature}
    (hf : f ∈ (c.checkEach classes features).value.features) (hnote : note ∈ f.notes) :
    ∃ v, c.Visits (c.context classes features) v ∧
      note = v.expr.note.typed (v.type (c.context classes features)) := by
  have hfeatures : (c.checkEach classes features).value.features = (Feature.checkEach
      (c.context classes features) (.forClass classes features c.name) [] c.features).value := rfl
  rw [hfeatures, Feature.value_checkEach] at hf
  obtain ⟨⟨seen, g⟩, hg, rfl⟩ := List.mem_map.mp hf
  obtain ⟨root, hroot, hnote⟩ := Feature.mem_notes_check_iff.mp hnote
  obtain ⟨v, hv, rfl⟩ := (Context.mem_notes_check_iff root).mp hnote
  exact ⟨v, ⟨root, mem_roots_iff.mpr ⟨seen, g, hg, hroot⟩, hv⟩, rfl⟩

end ClassDecl

end Cool
