import Cool.Proofs.Signature.Attributes
import Cool.Proofs.Typing.Refine

/-!
# What a class inherits

In a well-declared program, a class has all methods of its ancestors, with signatures that agree
with theirs, and all their attributes, with the same types.

* `Program.WellDeclared.coherent`, `Program.WellDeclared.agrees_of_inherits` : methods;
* `Program.WellDeclared.cases_attributes`, `Program.WellDeclared.within_forClass` : attributes;
* `Program.WellDeclared.valid_forClass` : all attributes have types of the program.
-/

namespace Cool

namespace Program.WellDeclared

variable {p : Program} {a b name : String} {i : Nat} {c : ClassDecl} {m n : MethodSig}

/-! ## Methods -/

/-- Methods agree along all chains, and values have no heirs. -/
theorem coherent (h : p.WellDeclared) :
    (World.ofTables p.classTable p.featureTable).Coherent where
  values _ _ ha hab hb := ClassTable.Inherits.eq_of_mem_values hab (h.isResolved ha) hb
  agrees _ _ _ _ ha hab hm := exists_agrees_of_inherits (h.isResolved ha) hab hm

/-- The heirs of declared classes are declared. -/
theorem not_mem_basic_of_inherits (haccepts : p.Accepts i c)
    (h : p.classTable.Inherits a c.name) : a ∉ Names.basic := by
  have hnot := FeatureTable.not_mem_basic_of_accepts haccepts
  rcases Relation.ReflTransGen.cases_head h with rfl | ⟨b, hp, hb⟩
  · exact hnot
  · rcases cases_parentOf? hp with ⟨-, rfl⟩ | ⟨j, d, hd, rfl, -⟩
    · have hobject := ClassTable.Inherits.eq_of_parentOf?_eq_none hb (parentOf?_object p)
      rw [← hobject] at hnot
      exact absurd (by decide) hnot
    · exact FeatureTable.not_mem_basic_of_accepts hd

theorem contains_of_inherits (haccepts : p.Accepts i c)
    (h : p.classTable.Inherits a c.name) : p.classTable.contains a = true := by
  rcases Relation.ReflTransGen.cases_head h with rfl | ⟨b, hp, -⟩
  · exact contains_of_accepts haccepts
  · exact ClassTable.contains_of_parentOf? hp

theorem heir (haccepts : p.Accepts i c) (h : p.classTable.Inherits a c.name) :
    (World.ofTables p.classTable p.featureTable).Heir a c.name where
  isClass := contains_of_inherits haccepts h
  inherits := h
  notValue hmem := by
    have hsub : ∀ a ∈ Names.values, a ∈ Names.basic := by decide
    exact not_mem_basic_of_inherits haccepts h (hsub a hmem)

/-- The signature that an heir has for a method is the one that is written. -/
theorem agrees_of_inherits (h : p.WellDeclared) (haccepts : p.Accepts i c)
    (hac : p.classTable.Inherits a c.name) {d : Method} (hd : d ∈ c.methods)
    (hm : p.featureTable.ownMethod? a d.name = some m) : m.Agrees (d.signature c.name) := by
  have hdeclares : (World.ofTables p.classTable p.featureTable).Declares c.name
      (d.signature c.name) :=
    h.declares_iff.mpr (Or.inr ⟨c, List.mem_of_getElem? haccepts.1, rfl, d, hd, rfl⟩)
  obtain ⟨n, hn, hagrees⟩ := h.coherent.agrees a c.name d.name _
    (contains_of_inherits haccepts hac) hac (.own hdeclares)
  rw [FeatureTable.finds_iff_of_some hm] at hn
  exact hn ▸ hagrees

/-! ## Attributes -/

/-- What a class declares, if it declares anything. -/
theorem cases_attributes (h : p.WellDeclared) {x : AttributeSig}
    (hx : x ∈ (p.featureTable.find? a).elim [] ClassFeatures.attributes) :
    ∃ i c, p.Accepts i c ∧ c.name = a ∧ ∃ d ∈ c.attributes, x = d.signature a := by
  obtain ⟨i, c, haccepts, rfl, hr, -⟩ := exists_accepts_of_mem_attributes hx
  rw [FeatureTable.find?_of_reports_eq_nil h.features haccepts hr] at hx
  obtain ⟨d, hd, rfl⟩ := List.mem_map.mp hx
  exact ⟨i, c, haccepts, rfl, d, hd, rfl⟩

/-- An attribute has a type of the program. -/
theorem isType_of_mem_visibleAttributes (h : p.WellDeclared) {x : AttributeSig}
    (hx : x ∈ p.featureTable.visibleAttributes p.classTable a) :
    (World.ofTables p.classTable p.featureTable).IsType x.type := by
  obtain ⟨info, -, hx⟩ := List.mem_flatMap.mp hx
  obtain ⟨i, c, haccepts, -, d, hd, rfl⟩ := h.cases_attributes hx
  exact isType_ofName ((h.wellDeclared_class haccepts).attributes d hd).type

/-- The variables in a class have types of the program. -/
theorem valid_forClass (h : p.WellDeclared) (a : String) :
    Env.Valid (World.ofTables p.classTable p.featureTable)
      (Scope.forClass p.classTable p.featureTable a).lookup? := by
  intro x τ hx
  rcases Scope.lookup?_foldl_declare_cases hx with hempty | ⟨b, hb, -, rfl⟩
  · by_cases hself : x = Names.self
    · subst hself
      cases hempty
      trivial
    · simp [Scope.empty, Scope.lookup?, hself] at hempty
  · exact h.isType_of_mem_visibleAttributes hb

/-- A class knows the variables that its ancestors know. -/
theorem within_forClass (h : p.WellDeclared) (hab : p.classTable.Inherits a b) :
    (Scope.forClass p.classTable p.featureTable b).Within
      (.forClass p.classTable p.featureTable a) := by
  intro x τ hx
  by_cases hself : x = Names.self
  · subst hself
    exact hx
  · rcases Relation.ReflTransGen.cases_head hab with rfl | ⟨c, hac, -⟩
    · exact hx
    · have hr := h.isResolved (ClassTable.contains_of_parentOf? hac)
      rw [FeatureTable.lookup?_forClass (distinct_visibleAttributes p b) hself] at hx
      obtain ⟨s, hs, rfl⟩ := Option.map_eq_some_iff.mp hx
      obtain ⟨hmem, hname⟩ := FeatureTable.mem_of_lookupAttribute? hs
      have hinherited := mem_visibleAttributes_of_inherits hr hab hmem
      rw [FeatureTable.lookup?_forClass (distinct_visibleAttributes p a) hself,
        (FeatureTable.lookupAttribute?_eq_some_iff (distinct_visibleAttributes p a)).mpr
          ⟨hinherited, hname⟩]
      rfl

end Program.WellDeclared

end Cool
