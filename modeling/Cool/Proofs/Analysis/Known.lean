import Cool.Proofs.Analysis.Visits
import Cool.Proofs.Typing.Known

/-!
# An analysis asks about classes of its table only

Whatever is wrong with a program, the types that its analysis deals with are classes of its class
table, or `SELF_TYPE` in one of them: those in the feature table, those in scopes, those of
expressions, and those that it notes. So the hierarchy answers all that it is asked, and no type is
ever reported as undefined on its account.

* `Program.Checks.closed` : the context of a class that is checked is closed;
* `ClassDecl.AsksKnown` : a check of a class deals with known types;
* `Program.Checks.not_isUndefinedType` : so it does not report an undefined type;
* `asksKnown_analyze` : a whole analysis, under any limit.
-/

namespace Cool

variable {p : Program} {i : Nat} {c : ClassDecl} {d : Diagnostic}

/-- The tables of a program name its classes only, and the classes that are checked are in them. -/
theorem Program.Checks.closed (h : p.Checks i c) :
    (c.context p.classTable p.featureTable).Closed where
  basic _ ha := ClassTable.contains_of_isResolved (ClassTable.isResolved_of_mem_basic ha)
  features := FeatureTable.known_ofProgram p
  enclosing := ClassTable.contains_of_isResolved h.2

namespace ClassDecl

/-- On its way through a class, the check deals with known types only: in the scopes, of the
expressions, and in all that it asks. -/
structure AsksKnown (Γ : Context) (c : ClassDecl) : Prop where
  enclosing : Γ.classes.Has Γ.className
  attributes : (Scope.forClass Γ.classes Γ.features Γ.className).Known Γ.classes.Has
  scope : ∀ v, c.Visits Γ v → v.scope.Known Γ.classes.Has
  type : ∀ v, c.Visits Γ v → (v.type Γ).Known Γ.classes.Has
  queries : ∀ v, c.Visits Γ v → ∀ q ∈ v.queries Γ, q.Answered Γ
  features : ∀ seen f v, c.HasRoot Γ seen f v →
    (f.declaredType Γ seen).Known Γ.classes.Has ∧
      (Query.conforms (v.type Γ) (f.declaredType Γ seen)).Answered Γ

variable {Γ : Context}

theorem asksKnown (hΓ : Γ.Closed) (c : ClassDecl) : c.AsksKnown Γ := by
  have hattributes := hΓ.known_forClass Γ.className
  have hroot (seen : List String) (f : Feature) (v : Visit) (h : c.HasRoot Γ seen f v) :
      v.scope.Known Γ.classes.Has := hΓ.known_root? hattributes h.2
  have hscope (v : Visit) (hv : c.Visits Γ v) : v.scope.Known Γ.classes.Has := by
    obtain ⟨root, hmem, hvisits⟩ := hv
    obtain ⟨seen, f, h⟩ := mem_roots_iff.mp hmem
    exact hΓ.known_visits (hroot seen f root h) hvisits
  refine ⟨hΓ.enclosing, hattributes, hscope, fun v hv => hΓ.known_type (hscope v hv),
    fun v hv => hΓ.answered_queries (hscope v hv), fun seen f v h => ?_⟩
  have hdeclared := hΓ.known_declaredType seen f
  exact ⟨hdeclared, hΓ.answered_conforms (hΓ.known_type (hroot seen f v h)) hdeclared⟩

end ClassDecl

/-- What has an answer is not reported as undefined. -/
theorem Context.Asks.not_isUndefinedType {Γ : Context} {queries : List Query} {α : Type}
    {x : Diagnosed α} (hx : Γ.Asks queries x) (h : ∀ q ∈ queries, q.Answered Γ)
    (hd : d ∈ x.reports) : ¬d.IsUndefinedType := by
  intro hundefined
  obtain ⟨q, hq, hnot⟩ := hx.mp ⟨d, hd, hundefined⟩
  exact hnot (h q hq)

theorem Feature.asks_checkDeclared (Γ : Context) (seen : List String) (f : Feature) (type : Ty) :
    Γ.Asks [.conforms type (f.declaredType Γ seen)] (f.checkDeclared Γ seen type) :=
  Context.asks_requireConforms type _ (by cases f <;> nofun)

theorem Program.Checks.not_isUndefinedType (h : p.Checks i c)
    (hd : d ∈ (c.checkEach p.classTable p.featureTable).reports) : ¬d.IsUndefinedType := by
  have hknown := c.asksKnown h.closed
  rcases ClassDecl.mem_reports_checkEach_iff.mp hd with ⟨v, hv, hd⟩ | ⟨seen, f, v, hroot, hd⟩
  · exact (v.asks_node _).not_isUndefinedType (hknown.queries v hv) hd
  · have hanswered := (hknown.features seen f v hroot).2
    exact (f.asks_checkDeclared _ seen _).not_isUndefinedType
      (List.forall_mem_singleton.mpr hanswered) hd

/-- No type is reported as undefined in these words, by any pass. -/
theorem not_isUndefinedType_of_mem_reports (hd : d ∈ p.reports) : ¬d.IsUndefinedType := by
  rcases List.mem_append.mp hd with htables | hchecked
  · rintro ⟨name, hmessage⟩
    rcases List.mem_append.mp htables with hclasses | hfeatures
    · obtain ⟨defect, hcause⟩ := ClassTable.exists_defect_of_mem_reports p d hclasses
      rw [Diagnostic.message, hcause] at hmessage
      exact defect.message_ne name hmessage
    · obtain ⟨defect, hcause⟩ :=
        FeatureTable.exists_defect_of_mem_reports p p.classTable d hfeatures
      rw [Diagnostic.message, hcause] at hmessage
      exact defect.message_ne name hmessage
  · obtain ⟨i, c, h, hd⟩ := mem_reports_checked_iff.mp hchecked
    exact h.not_isUndefinedType hd

/-- The feature table is that of the program, unless the analysis did not come to it. -/
theorem featureTable_analyze (limit : Option Nat) (p : Program) :
    (p.analyze limit).features = .empty ∨ (p.analyze limit).features = p.featureTable := by
  unfold Program.analyze
  dsimp only
  split_ifs
  · exact Or.inl rfl
  · exact Or.inr rfl
  · exact Or.inr rfl

theorem known_features_analyze (limit : Option Nat) (p : Program) :
    (p.analyze limit).features.Known p.classTable.Has := by
  rcases featureTable_analyze limit p with hempty | htable
  · rw [hempty]
    exact List.forall_mem_nil _
  · rw [htable]
    exact FeatureTable.known_ofProgram p

/-- In a class that is checked, all types that are noted are known. -/
theorem Program.Checks.known_notes (h : p.Checks i c) :
    ∀ f ∈ (c.checkAt p.classTable p.featureTable i).value.features, ∀ note ∈ f.notes,
      ∃ τ, note.type? = some τ ∧ τ.Known p.classTable.Has := by
  intro f hf note hnote
  rw [value_checkAt_of_checks h] at hf
  obtain ⟨v, hv, rfl⟩ := ClassDecl.exists_visits_of_mem_notes hf hnote
  exact ⟨_, rfl, (c.asksKnown h.closed).type v hv⟩

/-- In a program without defects, every expression has a known type. -/
theorem known_notes_of_ok {limit : Option Nat} (h : (p.analyze limit).ok = true) :
    ∀ f ∈ (p.analyze limit).program.features, ∀ note ∈ f.notes,
      ∃ τ, note.type? = some τ ∧ τ.Known p.classTable.Has := by
  have hreports := reports_eq_nil_of_ok h
  intro f hf
  rw [analyze_of_not_halted (halted_of_ok h)] at hf
  obtain ⟨d, hd, hf⟩ := List.mem_flatMap.mp hf
  obtain ⟨i, hi⟩ := List.mem_iff_getElem?.mp hd
  rw [getElem?_classes_checked] at hi
  obtain ⟨c, hc, rfl⟩ := Option.map_eq_some_iff.mp hi
  exact (checks_of_reports_eq_nil hreports hc).known_notes f hf

/-- A feature is left as it is, or the types that are noted in it are known. -/
theorem known_notes_analyze (limit : Option Nat) (p : Program) :
    ∀ f ∈ (p.analyze limit).program.features, f ∈ p.features ∨
      ∀ note ∈ f.notes, ∃ τ, note.type? = some τ ∧ τ.Known p.classTable.Has := by
  intro f hf
  obtain ⟨m, -, hfeatures⟩ := features_analyze limit p
  rw [hfeatures] at hf
  rcases List.mem_append.mp hf with hchecked | hleft
  · obtain ⟨d, hd, hf⟩ := List.mem_flatMap.mp (List.mem_of_mem_take hchecked)
    obtain ⟨i, hi⟩ := List.mem_iff_getElem?.mp hd
    rw [getElem?_classes_checked] at hi
    obtain ⟨c, hc, rfl⟩ := Option.map_eq_some_iff.mp hi
    by_cases h : p.Checks i c
    · exact Or.inr (h.known_notes f hf)
    · rw [checkAt_of_not_checks hc h] at hf
      exact Or.inl (List.mem_flatMap_of_mem (List.mem_of_getElem? hc) hf)
  · exact Or.inl (List.mem_of_mem_drop hleft)

/-- Every analysis, under any limit, deals with classes of its table only, none of which is called
`SELF_TYPE`: in its feature table, at every class that it checks, and in the types that it notes.
So it never reports an undefined type. -/
theorem asksKnown_analyze (p : Program) (limit : Option Nat) :
    ¬(p.analyze limit).classes.Has Names.selfType ∧
    (p.analyze limit).features.Known (p.analyze limit).classes.Has ∧
    (∀ i c, p.Checks i c → c.AsksKnown (c.context (p.analyze limit).classes p.featureTable)) ∧
    (∀ f ∈ (p.analyze limit).program.features, f ∈ p.features ∨ ∀ note ∈ f.notes,
      ∃ τ, note.type? = some τ ∧ τ.Known (p.analyze limit).classes.Has) ∧
    ∀ d ∈ (p.analyze limit).diagnostics, ¬d.IsUndefinedType := by
  rw [classes_analyze]
  refine ⟨?_, known_features_analyze limit p, fun i c h => c.asksKnown h.closed,
    known_notes_analyze limit p, fun d hd => ?_⟩
  · exact ne_true_of_eq_false (ClassTable.contains_selfType_eq_false p)
  · rw [diagnostics_analyze] at hd
    exact not_isUndefinedType_of_mem_reports (Collector.mem_of_mem_keep hd)

end Cool
