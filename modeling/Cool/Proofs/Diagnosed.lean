import Cool.Check.Context
import Mathlib.Tactic.SplitIfs

/-!
# Values without reports

Nothing was reported on the way to a value exactly if it is `pure`. So that a check reports nothing
is said as an equation, and such an equation is taken apart along the binds of the check.

* `eq_pure_iff`, `eq_pure_of_reports` : nothing reported, as an equation;
* `bind_eq_pure_iff` : a bind reports nothing if neither of its parts does;
* `require_eq_pure_iff`, `recover_ne_pure` : conditions, and defects;
* `Diagnosed.ReportsOnly` : what the reports are like, if there are any;
* `Diagnosed.Follows` : one check reports nothing if another does not;
* `Diagnosed.Kept` : one check is the same as another;
* `Diagnosed.Fewer` : one check has the value of another, and reports no more.
-/

namespace Cool

namespace Diagnosed

variable {α β : Type} {x : Diagnosed α} {f : α → Diagnosed β} {a b : α}

theorem eq_pure_iff : x = pure a ↔ x.value = a ∧ x.reports = [] := by
  constructor
  · rintro rfl
    exact ⟨rfl, rfl⟩
  · rintro ⟨rfl, h⟩
    cases x
    cases h
    rfl

theorem eq_pure_of_reports (h : x.reports = []) : x = pure x.value :=
  eq_pure_iff.mpr ⟨rfl, h⟩

theorem pure_inj : (pure a : Diagnosed α) = pure b ↔ a = b := by
  rw [eq_pure_iff]
  exact ⟨fun h => h.1, fun h => ⟨h, rfl⟩⟩

theorem pure_bind (a : α) (f : α → Diagnosed β) : (pure a >>= f) = f a := rfl

theorem bind_eq_pure_iff {b : β} : (x >>= f) = pure b ↔ ∃ a, x = pure a ∧ f a = pure b := by
  constructor
  · intro h
    obtain ⟨hvalue, hreports⟩ := eq_pure_iff.mp h
    rw [reports_bind, List.append_eq_nil_iff] at hreports
    exact ⟨x.value, eq_pure_of_reports hreports.1, eq_pure_iff.mpr ⟨hvalue, hreports.2⟩⟩
  · rintro ⟨a, rfl, h⟩
    exact h

theorem report_ne_pure (d : Diagnostic) (u : Unit) : report d ≠ pure u :=
  fun h => List.cons_ne_nil _ _ (eq_pure_iff.mp h).2

/-- What follows a report does not take it back. -/
theorem report_bind_ne_pure (d : Diagnostic) (f : Unit → Diagnosed α) (a : α) :
    (report d >>= f) ≠ pure a := by
  intro h
  obtain ⟨u, hu, -⟩ := bind_eq_pure_iff.mp h
  exact report_ne_pure d u hu

/-! ## Reports of one kind -/

/-- Nothing but such diagnostics is reported. -/
def ReportsOnly (P : Diagnostic → Prop) (x : Diagnosed α) : Prop :=
  ∀ d ∈ x.reports, P d

variable {P : Diagnostic → Prop}

theorem reportsOnly_pure (a : α) : (pure a : Diagnosed α).ReportsOnly P :=
  fun _ h => absurd h List.not_mem_nil

theorem reportsOnly_report {d : Diagnostic} (h : P d) : (report d).ReportsOnly P :=
  fun _ hd => List.mem_singleton.mp hd ▸ h

theorem ReportsOnly.bind (hx : x.ReportsOnly P) (hf : (f x.value).ReportsOnly P) :
    (x >>= f).ReportsOnly P :=
  fun d hd => (List.mem_append.mp hd).elim (hx d) (hf d)

/-! ## One check after the pattern of another -/

section Follows

variable {γ δ : Type} {R : α → β → Prop} {S : γ → δ → Prop}

/-- If nothing is reported on the way to the second value, then nothing is on the way to the first,
and the values are related. -/
def Follows (R : α → β → Prop) (x : Diagnosed α) (y : Diagnosed β) : Prop :=
  ∀ b, y = pure b → ∃ a, x = pure a ∧ R a b

theorem follows_pure {b : β} (h : R a b) : Follows R (pure a) (pure b) :=
  fun _ hb => ⟨a, rfl, pure_inj.mp hb ▸ h⟩

theorem Follows.bind {y : Diagnosed β} {f : α → Diagnosed γ} {g : β → Diagnosed δ}
    (h : Follows R x y) (hfg : ∀ a b, R a b → Follows S (f a) (g b)) :
    Follows S (x >>= f) (y >>= g) := by
  intro d hd
  obtain ⟨b, hb, hd⟩ := bind_eq_pure_iff.mp hd
  obtain ⟨a, ha, hab⟩ := h b hb
  obtain ⟨c, hc, hcd⟩ := hfg a b hab d hd
  exact ⟨c, bind_eq_pure_iff.mpr ⟨a, ha, hc⟩, hcd⟩

end Follows

/-! ## One check the same as another -/

section Kept

variable {everywhere : Prop} {I : α → Prop} {J : β → Prop} {x' : Diagnosed α}
  {f' : α → Diagnosed β}

/-- The two are the same, with a value that has a property; but if this is not so everywhere, then
only where the second reports nothing. -/
def Kept (everywhere : Prop) (I : α → Prop) (x' x : Diagnosed α) : Prop :=
  everywhere ∨ x.reports = [] → x' = x ∧ I x.value

theorem kept_pure (h : I a) : Kept everywhere I (pure a) (pure a) :=
  fun _ => ⟨rfl, h⟩

theorem kept_of_eq (h : x' = x) (hI : I x.value) : Kept everywhere I x' x :=
  fun _ => ⟨h, hI⟩

/-- Where something is reported, there is nothing to compare. -/
theorem kept_of_reports (heverywhere : ¬everywhere) (h : x.reports ≠ []) :
    Kept everywhere I x' x :=
  fun hx => absurd hx (not_or.mpr ⟨heverywhere, h⟩)

theorem Kept.bind (h : Kept everywhere I x' x) (hf : ∀ a, I a → Kept everywhere J (f' a) (f a)) :
    Kept everywhere J (x' >>= f') (x >>= f) := by
  intro hall
  simp only [reports_bind, List.append_eq_nil_iff] at hall
  obtain ⟨rfl, hI⟩ := h (hall.imp_right And.left)
  obtain ⟨heq, hJ⟩ := hf x'.value hI (hall.imp_right And.right)
  refine ⟨?_, hJ⟩
  show Diagnosed.mk (f' x'.value).value (x'.reports ++ (f' x'.value).reports) = _
  rw [heq]
  rfl

end Kept

/-! ## One check that reports no more than another -/

section Fewer

variable {y : Diagnosed α} {g : α → Diagnosed β}

theorem reports_bind_subset (hx : x.reports ⊆ y.reports)
    (hf : (f x.value).reports ⊆ (g y.value).reports) :
    (x >>= f).reports ⊆ (y >>= g).reports :=
  List.append_subset.mpr ⟨List.Subset.trans hx (List.subset_append_left _ _),
    List.Subset.trans hf (List.subset_append_right _ _)⟩

/-- The two have one value, and what the first reports, the second reports as well. -/
structure Fewer (x y : Diagnosed α) : Prop where
  value : x.value = y.value
  reports : x.reports ⊆ y.reports

theorem Fewer.refl (x : Diagnosed α) : Fewer x x :=
  ⟨rfl, List.Subset.refl _⟩

theorem Fewer.bind (hx : Fewer x y) (hf : Fewer (f x.value) (g x.value)) :
    Fewer (x >>= f) (y >>= g) := by
  have hfg : Fewer (f x.value) (g y.value) := hx.value ▸ hf
  exact ⟨hfg.value, reports_bind_subset hx.reports hfg.reports⟩

end Fewer

end Diagnosed

namespace Context

variable {Γ : Context} {span : Span} {condition : Bool} {defect : TypingDefect}

theorem require_eq_pure_iff {u : Unit} :
    Γ.require span condition defect = pure u ↔ condition = true := by
  rw [require]
  split_ifs with h
  · exact ⟨fun _ => h, fun _ => rfl⟩
  · exact ⟨fun hpure => absurd hpure (Diagnosed.report_ne_pure _ u), fun hc => absurd hc h⟩

theorem require_true (Γ : Context) (span : Span) (defect : TypingDefect) :
    Γ.require span true defect = pure () := rfl

theorem recover_ne_pure (type τ : Ty) : Γ.recover span defect type ≠ pure τ :=
  Diagnosed.report_bind_ne_pure _ _ _

end Context

end Cool
