import Cool.ClassTable.Build
import Cool.Proofs.Hierarchy.Chain

/-!
# Accepted declarations

A declaration is accepted if its name is not reserved and no declaration before it has the name.
Which declarations are accepted does not depend on their parents: an illegal parent only makes the
class unresolved.

* `Program.Accepts` : the declaration at a position is accepted;
* `mem_classes_declareAll` : the table holds the classes it began with and the accepted ones;
* `mem_unresolved_declareAll` : of these, the ones with an illegal parent are unresolved;
* `reports_declareAll_eq_nil_iff` : nothing is reported exactly if all declarations are accepted
  with a legal parent.
-/

namespace Cool

/-- The entry of the declaration at a position. -/
def ClassDecl.info (index : Nat) (c : ClassDecl) : ClassInfo :=
  ⟨c.name, some c.parent, c.file, c.span, .declared index⟩

/-- The declaration at a position of a list, if nobody before it has the name and it is not
reserved. -/
def ClassDecl.Accepted (cs : List ClassDecl) (index : Nat) (c : ClassDecl) : Prop :=
  cs[index]? = some c ∧ ClassTable.isReserved c.name = false ∧
    ∀ k d, k < index → cs[k]? = some d → d.name ≠ c.name

/-- The declaration at a position is the accepted one of its name. -/
def Program.Accepts (p : Program) : Nat → ClassDecl → Prop :=
  ClassDecl.Accepted p.classes

/-- Of one name, one declaration is accepted. -/
theorem Program.Accepts.eq_of_name {p : Program} {i k : Nat} {c d : ClassDecl}
    (hc : p.Accepts i c) (hd : p.Accepts k d) (hname : c.name = d.name) : i = k ∧ c = d := by
  have heq : i = k := by
    rcases Nat.lt_trichotomy i k with hlt | heq | hlt
    · exact absurd hname (hd.2.2 i c hlt hc.1)
    · exact heq
    · exact absurd hname.symm (hc.2.2 k d hlt hd.1)
  subst heq
  exact ⟨rfl, Option.some.inj (hc.1.symm.trans hd.1)⟩

namespace ClassTable

variable {t : ClassTable} {a : String} {info : ClassInfo} {c : ClassDecl} {cs : List ClassDecl}

@[simp] theorem classes_markUnresolved (names : List String) :
    (t.markUnresolved names).classes = t.classes := rfl

@[simp] theorem unresolved_markUnresolved (names : List String) :
    (t.markUnresolved names).unresolved = t.unresolved ++ names := rfl

@[simp] theorem classes_insert : (t.insert info).classes = t.classes ++ [info] := rfl

@[simp] theorem unresolved_insert : (t.insert info).unresolved = t.unresolved := rfl

/-! ## One declaration -/

theorem declare_of_refused (index : Nat)
    (h : ¬(isReserved c.name = false ∧ t.contains c.name = false)) :
    (t.declare index c).value = t ∧ (t.declare index c).reports ≠ [] := by
  unfold declare
  split_ifs with hr hc
  · simp [reportAt]
  · simp [reportAt]
  · exact absurd ⟨by simpa using hr, by simpa using hc⟩ h
  · exact absurd ⟨by simpa using hr, by simpa using hc⟩ h

theorem declare_of_accepted (index : Nat) (hr : isReserved c.name = false)
    (hc : t.contains c.name = false) :
    (t.declare index c).value.classes = t.classes ++ [c.info index] ∧
      (t.declare index c).value.unresolved =
        t.unresolved ++ (if isIllegalParent c.parent then [c.name] else []) ∧
      ((t.declare index c).reports = [] ↔ isIllegalParent c.parent = false) := by
  unfold declare
  rw [if_neg (by simp [hr]), if_neg (by simp [hc])]
  split_ifs with hp
  · simp [reportAt, ClassDecl.info, hp]
  · simp [ClassDecl.info, hp]

theorem mem_classes_declare (index : Nat) :
    info ∈ (t.declare index c).value.classes ↔
      info ∈ t.classes ∨
        info = c.info index ∧ isReserved c.name = false ∧ t.contains c.name = false := by
  by_cases h : isReserved c.name = false ∧ t.contains c.name = false
  · rw [(declare_of_accepted index h.1 h.2).1]
    simp [h]
  · rw [(declare_of_refused index h).1]
    tauto

theorem mem_unresolved_declare (index : Nat) :
    a ∈ (t.declare index c).value.unresolved ↔
      a ∈ t.unresolved ∨ (a = c.name ∧ isIllegalParent c.parent = true) ∧
        isReserved c.name = false ∧ t.contains c.name = false := by
  by_cases h : isReserved c.name = false ∧ t.contains c.name = false
  · rw [(declare_of_accepted index h.1 h.2).2.1]
    by_cases hp : isIllegalParent c.parent = true <;> simp [h, hp]
  · rw [(declare_of_refused index h).1]
    tauto

theorem contains_declare (index : Nat) :
    (t.declare index c).value.contains a = true ↔
      t.contains a = true ∨
        a = c.name ∧ isReserved c.name = false ∧ t.contains c.name = false := by
  simp only [contains_iff_mem, List.mem_map, mem_classes_declare]
  constructor
  · rintro ⟨info, hinfo | ⟨rfl, h⟩, rfl⟩
    · exact Or.inl ⟨info, hinfo, rfl⟩
    · exact Or.inr ⟨rfl, h⟩
  · rintro (⟨info, hinfo, rfl⟩ | ⟨rfl, h⟩)
    · exact ⟨info, Or.inl hinfo, rfl⟩
    · exact ⟨_, Or.inr ⟨rfl, h⟩, rfl⟩

theorem nodup_declare (index : Nat) (h : (t.classes.map ClassInfo.name).Nodup) :
    ((t.declare index c).value.classes.map ClassInfo.name).Nodup := by
  by_cases hc : isReserved c.name = false ∧ t.contains c.name = false
  · rw [(declare_of_accepted index hc.1 hc.2).1, List.map_append, List.map_singleton]
    refine List.nodup_append.mpr ⟨h, List.nodup_singleton _, fun a ha b hb hab => ?_⟩
    have hnot := hc.2
    rw [Bool.eq_false_iff, Ne, contains_iff_mem] at hnot
    rw [hab, List.mem_singleton.mp hb] at ha
    exact hnot ha
  · rw [(declare_of_refused index hc).1]
    exact h

/-! ## All declarations -/

theorem nodup_declareAll :
    ∀ (cs : List ClassDecl) (t : ClassTable) (index : Nat),
      (t.classes.map ClassInfo.name).Nodup →
        ((t.declareAll index cs).value.classes.map ClassInfo.name).Nodup
  | [], _, _, h => h
  | _ :: cs, _, index, h => nodup_declareAll cs _ (index + 1) (nodup_declare index h)

/-- A later declaration is accepted behind an earlier one exactly if the names differ. -/
theorem accepted_cons_succ {index : Nat} {d : ClassDecl} :
    (ClassDecl.Accepted (c :: cs) (index + 1) d ∧ t.contains d.name = false) ↔
      ClassDecl.Accepted cs index d ∧ c.name ≠ d.name ∧ t.contains d.name = false := by
  constructor
  · rintro ⟨⟨hd, hr, hfirst⟩, ht⟩
    refine ⟨⟨by simpa using hd, hr, fun k e hk he => ?_⟩, hfirst 0 c (by omega) rfl, ht⟩
    exact hfirst (k + 1) e (by omega) (by simpa using he)
  · rintro ⟨⟨hd, hr, hfirst⟩, hne, ht⟩
    refine ⟨⟨by simpa using hd, hr, fun k e hk he => ?_⟩, ht⟩
    cases k with
    | zero =>
      cases (Option.some.inj he : c = e)
      exact hne
    | succ k => exact hfirst k e (by omega) (by simpa using he)

/-- Whether a name can still be taken behind a declaration. -/
theorem not_contains_declare {index : Nat} {d : ClassDecl} (hr : isReserved d.name = false) :
    (t.declare index c).value.contains d.name = false ↔
      c.name ≠ d.name ∧ t.contains d.name = false := by
  rw [Bool.eq_false_iff, Ne, contains_declare]
  constructor
  · intro h
    have ht : t.contains d.name = false := by
      rw [Bool.eq_false_iff]
      exact fun ht => h (Or.inl ht)
    refine ⟨fun hname => h (Or.inr ⟨hname.symm, ?_, ?_⟩), ht⟩
    · rw [hname]; exact hr
    · rw [hname]; exact ht
  · rintro ⟨hne, ht⟩ (h | ⟨h, -, -⟩)
    · rw [ht] at h
      cases h
    · exact hne h.symm

/-- What one declaration may add to a table, the accepted ones of a list add. -/
theorem declareAll_iff {X : ClassTable → Prop} {P : Nat → ClassDecl → Prop}
    (hstep : ∀ (t : ClassTable) (index : Nat) (c : ClassDecl), X (t.declare index c).value ↔
      X t ∨ P index c ∧ isReserved c.name = false ∧ t.contains c.name = false) :
    ∀ (cs : List ClassDecl) (t : ClassTable) (index : Nat),
      X (t.declareAll index cs).value ↔
        X t ∨ ∃ j c, (ClassDecl.Accepted cs j c ∧ t.contains c.name = false) ∧ P (index + j) c
  | [], t, index => by simp [declareAll, ClassDecl.Accepted]
  | c :: cs, t, index => by
    show X ((t.declare index c).value.declareAll (index + 1) cs).value ↔ _
    rw [declareAll_iff hstep cs, hstep, or_assoc]
    refine or_congr_right ⟨?_, ?_⟩
    · rintro (⟨hP, hr, hc⟩ | ⟨j, d, ⟨hd, hn⟩, hP⟩)
      · exact ⟨0, c, ⟨⟨rfl, hr, fun k d hk => absurd hk (by omega)⟩, hc⟩, hP⟩
      · rw [not_contains_declare hd.2.1] at hn
        rw [Nat.add_right_comm, Nat.add_assoc] at hP
        exact ⟨j + 1, d, accepted_cons_succ.mpr ⟨hd, hn⟩, hP⟩
    · rintro ⟨j, d, hd, hP⟩
      cases j with
      | zero =>
        cases (Option.some.inj hd.1.1 : c = d)
        exact Or.inl ⟨hP, hd.1.2.1, hd.2⟩
      | succ j =>
        obtain ⟨hd, hn⟩ := accepted_cons_succ.mp hd
        rw [← Nat.add_assoc, Nat.add_right_comm] at hP
        exact Or.inr ⟨j, d, ⟨hd, (not_contains_declare hd.2.1).mpr hn⟩, hP⟩

theorem mem_classes_declareAll (cs : List ClassDecl) (t : ClassTable) (index : Nat) :
    info ∈ (t.declareAll index cs).value.classes ↔
      info ∈ t.classes ∨ ∃ j c, (ClassDecl.Accepted cs j c ∧ t.contains c.name = false) ∧
        info = c.info (index + j) :=
  declareAll_iff (X := fun t => info ∈ t.classes) (P := fun index c => info = c.info index)
    (fun _ index _ => mem_classes_declare index) cs t index

theorem mem_unresolved_declareAll (cs : List ClassDecl) (t : ClassTable) (index : Nat) :
    a ∈ (t.declareAll index cs).value.unresolved ↔
      a ∈ t.unresolved ∨ ∃ j c, (ClassDecl.Accepted cs j c ∧ t.contains c.name = false) ∧
        a = c.name ∧ isIllegalParent c.parent = true :=
  declareAll_iff (X := fun t => a ∈ t.unresolved)
    (P := fun _ c => a = c.name ∧ isIllegalParent c.parent = true)
    (fun _ index _ => mem_unresolved_declare index) cs t index

theorem reports_declare_eq_nil_iff (index : Nat) :
    (t.declare index c).reports = [] ↔
      isReserved c.name = false ∧ t.contains c.name = false ∧
        isIllegalParent c.parent = false := by
  by_cases h : isReserved c.name = false ∧ t.contains c.name = false
  · rw [(declare_of_accepted index h.1 h.2).2.2]
    simp [h]
  · refine ⟨fun hnil => absurd hnil (declare_of_refused index h).2, fun hall => ?_⟩
    exact absurd ⟨hall.1, hall.2.1⟩ h

theorem reports_declareAll_eq_nil_iff :
    ∀ (cs : List ClassDecl) (t : ClassTable) (index : Nat),
      (t.declareAll index cs).reports = [] ↔
        ∀ j c, cs[j]? = some c → (ClassDecl.Accepted cs j c ∧ t.contains c.name = false) ∧
          isIllegalParent c.parent = false
  | [], _, _ => by simp [declareAll]
  | c :: cs, t, index => by
    show (t.declare index c).reports ++
      ((t.declare index c).value.declareAll (index + 1) cs).reports = [] ↔ _
    rw [List.append_eq_nil_iff, reports_declare_eq_nil_iff, reports_declareAll_eq_nil_iff cs]
    constructor
    · rintro ⟨⟨hr, hc, hp⟩, hrest⟩ j d hd
      cases j with
      | zero =>
        cases (Option.some.inj hd : c = d)
        exact ⟨⟨⟨rfl, hr, fun k d hk => absurd hk (by omega)⟩, hc⟩, hp⟩
      | succ j =>
        obtain ⟨⟨hd, hn⟩, hp⟩ := hrest j d (by simpa using hd)
        exact ⟨accepted_cons_succ.mpr ⟨hd, (not_contains_declare hd.2.1).mp hn⟩, hp⟩
    · intro hall
      obtain ⟨⟨hc, hn⟩, hp⟩ := hall 0 c rfl
      refine ⟨⟨hc.2.1, hn, hp⟩, fun j d hd => ?_⟩
      obtain ⟨hd, hp⟩ := hall (j + 1) d (by simpa using hd)
      obtain ⟨hd, hn⟩ := accepted_cons_succ.mp hd
      exact ⟨⟨hd, (not_contains_declare hd.2.1).mpr hn⟩, hp⟩

end ClassTable

end Cool
