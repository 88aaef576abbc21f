import Cool.Proofs.Analysis.Known
import Cool.Proofs.Analysis.Reports
import Cool.Proofs.Typing.Mended

/-!
# Defects of the hierarchy among the defects of types

A defect of the hierarchy shall not show up again as defects of types. It does, where a type is made
up: the check goes on with `Object` for the value of a call on an unresolved class and for a join
with one, and with the type of the value for an assignment. What is reported above such a place may
be gone once the hierarchy is mended; all else that is reported on types stays.

* `ClassDecl.MadeUp` : what is reported above a type that is made up;
* `Program.MendedBy.context` : the context of a class in a mended program;
* `typing_of_mendedBy` : what is left of the reports on types in a mended program;
* `Sample.callOn`, `exists_typing_gone` : a report that is gone.
-/

namespace Cool

open Diagnosed

variable {p q : Program} {i : Nat} {c : ClassDecl} {Γ : Context} {t' : ClassTable}
  {f' : FeatureTable} {d : Diagnostic}

/-- What is reported on the class is reported above an expression with a type that is made up: on an
expression around it, or where its feature is compared with the type that is declared. -/
def ClassDecl.MadeUp (Γ : Context) (c : ClassDecl) (d : Diagnostic) : Prop :=
  (∃ v, c.Visits Γ v ∧ d ∈ (v.node Γ).reports ∧
    ∃ part ∈ v.parts Γ, ∃ w, Γ.Visits part w ∧ w.Unsettled Γ) ∨
  ∃ seen f v, c.HasRoot Γ seen f v ∧ d ∈ (f.checkDeclared Γ seen (v.type Γ)).reports ∧
    ∃ w, Γ.Visits v w ∧ w.Unsettled Γ

/-! ## Classes -/

section Class

variable (hΓ : Γ.MendedBy t' f')
include hΓ

theorem ClassDecl.hasRoot_under {seen : List String} {f : Feature} {v : Visit} :
    c.HasRoot (Γ.under t' f') seen f v ↔ c.HasRoot Γ seen f v := by
  unfold HasRoot
  rw [hΓ.root?_under, show Scope.forClass (Γ.under t' f').classes (Γ.under t' f').features
    (Γ.under t' f').className = _ from hΓ.forClass_under]

theorem ClassDecl.visits_under {v : Visit} : c.Visits (Γ.under t' f') v ↔ c.Visits Γ v := by
  unfold Visits
  simp only [mem_roots_iff, ClassDecl.hasRoot_under hΓ, hΓ.visits_under]

end Class

/-- What is reported on a class is reported in the mended hierarchy, unless it is reported above a
type that is made up. -/
theorem ClassDecl.mem_reports_or_madeUp {t : ClassTable} {f : FeatureTable}
    (hΓ : (c.context t f).MendedBy t' f') (hd : d ∈ (c.checkEach t f).reports) :
    d ∈ (c.checkEach t' f').reports ∨ c.MadeUp (c.context t f) d := by
  have hknown := c.asksKnown hΓ.closed
  by_cases hmade : c.MadeUp (c.context t f) d
  · exact Or.inr hmade
  rw [MadeUp, not_or] at hmade
  refine Or.inl (mem_reports_checkEach_iff.mpr ?_)
  rcases mem_reports_checkEach_iff.mp hd with ⟨v, hv, hd⟩ | ⟨seen, g, v, hroot, hd⟩
  · refine Or.inl ⟨v, (visits_under hΓ).mpr hv, ?_⟩
    refine hΓ.reports_under (hknown.scope v hv) (fun part hpart w hw hunsettled => ?_) hd
    exact hmade.1 ⟨v, hv, hd, part, hpart, w, hw, hunsettled⟩
  · have hv : c.Visits (c.context t f) v := ⟨v, mem_roots_iff.mpr ⟨seen, g, hroot⟩, .refl⟩
    refine Or.inr ⟨seen, g, v, (hasRoot_under hΓ).mpr hroot, ?_⟩
    have htype : v.type ((c.context t f).under t' f') = v.type (c.context t f) :=
      hΓ.type_under (hknown.scope v hv) fun w hw hunsettled =>
        hmade.2 ⟨seen, g, v, hroot, hd, w, hw, hunsettled⟩
    show d ∈ (g.checkDeclared ((c.context t f).under t' f') seen
      (v.type ((c.context t f).under t' f'))).reports
    rw [htype]
    exact (hΓ.fewer_checkDeclared (hknown.type v hv)).reports hd

/-! ## Programs -/

namespace Program.MendedBy

variable (h : p.MendedBy q)
include h

theorem context (hc : p.Checks i c) :
    (c.context p.classTable p.featureTable).MendedBy q.classTable q.featureTable where
  closed := hc.closed
  enclosing := hc.2
  contains := h.contains_eq
  classes := h.agreesAbout.classes
  entries _ ha := h.agreesAbout.find?_eq ha
  sound := ClassTable.sound_ofProgram q
  resolved _ ha := h.isResolved_of_contains ha

theorem checks (hc : p.Checks i c) : q.Checks i c :=
  ⟨h.accepts_of_isResolved hc.1 hc.2, h.isResolved hc.2⟩

end Program.MendedBy

/-- Once unresolved classes have other parents and all classes are resolved, what was reported on
types is still reported, at the same place in the same words, unless it was reported above a type
that was made up. -/
theorem typing_of_mendedBy (h : p.MendedBy q) (hd : d ∈ (p.analyze none).inTier .typing) :
    d ∈ (q.analyze none).inTier .typing ∨
      ∃ i c, p.Checks i c ∧ c.MadeUp (c.context p.classTable p.featureTable) d := by
  rw [(inTier_analyze p).2.2] at hd
  rw [(inTier_analyze q).2.2]
  obtain ⟨i, c, hc, hd⟩ := mem_reports_checked_iff.mp hd
  rcases ClassDecl.mem_reports_or_madeUp (h.context hc) hd with hd | hmade
  · exact Or.inl (mem_reports_checked_iff.mpr ⟨i, c, h.checks hc, hd⟩)
  · exact Or.inr ⟨i, c, hc, hmade⟩

/-- A class with some parent, and an attribute whose initial value is a call of a method that the
class declares. -/
def Sample.callOn (parent : String) : Program :=
  let note : Note := ⟨default, none⟩
  ⟨[⟨"A", parent, [.method ⟨"n", [], "Int", .int note 1, default⟩], "a.cl", default⟩,
    ⟨"Main", "Object", [.attr ⟨"x", "Int", some (.dispatch note (.new note "A") "n" []), default⟩,
      .method ⟨"main", [], "Object", .int note 0, default⟩], "a.cl", default⟩]⟩

theorem Sample.callOn_mendedBy : (callOn "Absent").MendedBy (callOn "Object") where
  length := rfl
  reparented := by
    rintro (_ | _ | i) c d hc hd
    · cases hc
      cases hd
      exact Or.inr ⟨by decide +kernel, rfl⟩
    · cases hc
      cases hd
      exact Or.inl rfl
    · cases hc
  resolved _ _ hd := by
    have hreports : (ClassTable.ofProgram (callOn "Object")).reports = [] := by decide +kernel
    exact ClassTable.isResolved_of_reports_eq_nil hreports
      (ClassTable.contains_of_find? (ClassTable.find?_of_accepts hd))

/-- The call on a class without a sound parent has a type that is made up, and the attribute around
it is reported. -/
theorem typing_of_mendedBy_callOn :
    let d : Diagnostic := .located (.typing (.attributeMismatch .object "x" .int)) "a.cl" default
    d ∈ ((Sample.callOn "Absent").analyze none).inTier .typing ∧
      (d ∈ ((Sample.callOn "Object").analyze none).inTier .typing ∨
        ∃ i c, (Sample.callOn "Absent").Checks i c ∧ c.MadeUp
          (c.context (Sample.callOn "Absent").classTable (Sample.callOn "Absent").featureTable)
            d) := by
  intro d
  have hd : d ∈ ((Sample.callOn "Absent").analyze none).inTier .typing := by decide +kernel
  exact ⟨hd, typing_of_mendedBy Sample.callOn_mendedBy hd⟩

/-- A defect of the hierarchy can show up again as one of types: the attribute is reported only as
long as the class has no sound parent. -/
theorem exists_typing_gone : ∃ (p q : Program) (d : Diagnostic), p.MendedBy q ∧
    d ∈ (p.analyze none).inTier .typing ∧ d ∉ (q.analyze none).inTier .typing :=
  ⟨Sample.callOn "Absent", Sample.callOn "Object",
    .located (.typing (.attributeMismatch .object "x" .int)) "a.cl" default,
    Sample.callOn_mendedBy, by decide +kernel, by decide +kernel⟩

end Cool
