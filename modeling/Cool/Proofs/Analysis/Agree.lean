import Cool.Proofs.Analysis.Annotation
import Cool.Proofs.Signature.Rebuilt
import Cool.Proofs.Typing.Agree

/-!
# Declarations of programs that agree

A declaration that two programs share is checked in the same way in both, if the programs agree
about the classes that are known and all classes are known. If there are others, then so is every
declaration that is checked without a report.

* `Program.AgreesOn.checkEach` : a declaration that is checked;
* `Program.AgreesOn.checkAt` : a declaration at its positions in the two programs.
-/

namespace Cool

open Diagnosed

variable {known : String → Prop}

section Features

variable {Γ : Context} {t' : ClassTable} {f' : FeatureTable} {σ : Scope}

theorem Feature.checkEach_under (hΓ : Γ.AgreesOn known t' f') (hσ : σ.Known known) :
    ∀ (fs : List Feature) (seen : List String), (∀ f ∈ fs, f.Known known) →
      Kept (∀ a, known a) (fun _ => True) (Feature.checkEach (Γ.under t' f') σ seen fs)
        (Feature.checkEach Γ σ seen fs)
  | [], _, _ => kept_pure trivial
  | f :: fs, seen, hfs => by
    obtain ⟨hf, hfs⟩ := List.forall_mem_cons.mp hfs
    refine (Feature.check_under hΓ hσ hf).bind fun _ _ => ?_
    refine (Feature.checkEach_under hΓ hσ fs (f.seenBehind seen) hfs).bind fun _ _ => ?_
    exact kept_pure trivial

end Features

namespace Program.AgreesOn

variable {p q : Program} {i j : Nat} {c : ClassDecl} (h : p.AgreesOn known q)
include h

/-- Both see a class with the same attributes, of known types. -/
theorem forClass_eq {a : String} (ha : known a) :
    Scope.forClass q.classTable q.featureTable a = .forClass p.classTable p.featureTable a ∧
      (Scope.forClass p.classTable p.featureTable a).Known known := by
  refine ⟨?_, ?_⟩
  · rw [Scope.forClass, Scope.forClass, h.features.visibleAttributes_eq h.classes ha]
  · exact Scope.Known.foldl_declare _ Scope.known_empty fun x hx =>
      h.features.known_of_visible h.classes ha hx

/-- The features of a class are checked in the same way. -/
theorem checkEach (hc : p.Accepts i c) (hname : known c.name) :
    Kept (∀ a, known a) (fun _ => True) (c.checkEach q.classTable q.featureTable)
      (c.checkEach p.classTable p.featureTable) := by
  obtain ⟨hscope, hknown⟩ := h.forClass_eq hname
  have hΓ : (c.context p.classTable p.featureTable).AgreesOn known q.classTable q.featureTable :=
    ⟨h.classes, h.features, hname⟩
  unfold ClassDecl.checkEach
  rw [hscope]
  exact (Feature.checkEach_under hΓ hknown c.features [] (h.types i c hc hname)).bind
    fun _ _ => kept_pure trivial

/-- A known declaration that both accept is checked in the same way at its two positions. -/
theorem checkAt (hp : p.Accepts i c) (hq : q.Accepts j c) (hname : known c.name) :
    Kept (∀ a, known a) (fun _ => True) (c.checkAt q.classTable q.featureTable j)
      (c.checkAt p.classTable p.featureTable i) := by
  have hchecks : q.Checks j c ↔ p.Checks i c := by
    rw [Checks, Checks, h.classes.resolved c.name hname]
    exact and_congr_left fun _ => iff_of_true hq hp
  by_cases hchecked : p.Checks i c
  · rw [ClassDecl.checkAt, ClassDecl.checkAt, if_pos ((isChecked_iff hp.1).mpr hchecked),
      if_pos ((isChecked_iff hq.1).mpr (hchecks.mpr hchecked))]
    exact h.checkEach hp hname
  · rw [checkAt_of_not_checks hp.1 hchecked,
      checkAt_of_not_checks hq.1 fun hnot => hchecked (hchecks.mp hnot)]
    exact kept_pure trivial

end Program.AgreesOn

end Cool
