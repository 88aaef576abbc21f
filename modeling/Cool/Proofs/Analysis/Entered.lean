import Cool.Proofs.Analysis.Order

/-!
# Classes are entered behind their ancestors

The resolved classes are listed chain by chain, and a class that is on several chains is listed with
the first of them only. In this order their features are checked, so that the entries of all proper
ancestors of a class are made when its own features are checked, and they stay as they are.

* `ParentsFirst.mem_of_parentOf?`, `ParentsFirst.mem_of_inherits` : what comes before a class;
* `FeatureTable.entered`, `enterAll_append` : the declarations in the order of their entries, and
  the table after some of them;
* `exists_find?_enterAll` : a class that has been entered has an entry;
* `Program.entered_behind_ancestors` : the order, and what is in the table when a class is checked.
-/

namespace Cool

namespace ClassTable

variable {t : ClassTable} {a b : String} {done before behind : List String}

/-- The parent of a class is listed before it. -/
theorem ParentsFirst.mem_of_parentOf? (h : t.ParentsFirst done (before ++ a :: behind))
    (hp : t.parentOf? a = some b) : b ∈ done ∨ b ∈ before := by
  induction before generalizing done with
  | nil =>
    obtain ⟨-, hparent, -⟩ := parentsFirst_cons_iff.mp h
    exact Or.inl (hparent b hp)
  | cons c before ih =>
    obtain ⟨-, -, hmore⟩ := parentsFirst_cons_iff.mp h
    rcases ih hmore with hdone | hbefore
    · rcases List.mem_cons.mp hdone with rfl | hdone
      · exact Or.inr List.mem_cons_self
      · exact Or.inl hdone
    · exact Or.inr (List.mem_cons_of_mem c hbefore)

/-- All proper ancestors of a class are listed before it: with every class its parent is, and the
first step from the class leads to one of them. -/
theorem ParentsFirst.mem_of_inherits (h : t.ParentsFirst [] (before ++ a :: behind))
    (hab : t.Inherits a b) (hne : b ≠ a) : b ∈ before := by
  have hclosed : ∀ c ∈ before, ∀ d, t.parentOf? c = some d → d ∈ before := by
    intro c hc d hd
    obtain ⟨front, back, rfl⟩ := List.append_of_mem hc
    rw [List.append_assoc, List.cons_append] at h
    exact List.mem_append_left _ ((h.mem_of_parentOf? hd).resolve_left List.not_mem_nil)
  rcases Relation.ReflTransGen.cases_head hab with rfl | ⟨c, hc, hcb⟩
  · exact absurd rfl hne
  · have hparent := (h.mem_of_parentOf? hc).resolve_left List.not_mem_nil
    exact Inherits.mem_of_closed hcb hclosed hparent

end ClassTable

namespace FeatureTable

variable {p : Program} {classes : ClassTable} {i : Nat} {c : ClassDecl} {b : String}
  {before behind : List (Nat × ClassDecl)}

/-- The declarations that get an entry, in the order in which they do. -/
def entered (p : Program) : List (Nat × ClassDecl) :=
  p.classTable.resolvedOrder.filterMap (declaration? p.classTable p)

theorem featureTable_eq_enterAll (p : Program) :
    p.featureTable = (enterAll p.classTable .basic (entered p)).1 := rfl

theorem enterAll_append (t : FeatureTable) (before behind : List (Nat × ClassDecl)) :
    (enterAll classes t (before ++ behind)).1 =
      (enterAll classes (enterAll classes t before).1 behind).1 := by
  induction before generalizing t with
  | nil => rfl
  | cons entry before ih => exact ih _

theorem exists_find?_enterAll {cs : List (Nat × ClassDecl)} (h : (i, c) ∈ cs) (t : FeatureTable) :
    ∃ own, (enterAll classes t cs).1.find? c.name = some own := by
  induction cs generalizing t with
  | nil => cases h
  | cons entry cs ih =>
    rcases List.mem_cons.mp h with rfl | h
    · have hinsert : ∃ own, (t.insert c.name (t.checkClass classes true c).value).find? c.name =
          some own := by
        rw [find?_insert, if_pos rfl]
        cases t.find? c.name with
        | none => exact ⟨_, rfl⟩
        | some own => exact ⟨own, rfl⟩
      obtain ⟨own, hown⟩ := hinsert
      exact ⟨own, find?_enterAll_of_find? cs hown⟩
    · exact ih h _

/-- A declaration is entered behind those of the classes that are listed before its own. -/
theorem exists_order_of_entered (h : entered p = before ++ (i, c) :: behind) :
    ∃ front back, p.classTable.resolvedOrder = front ++ c.name :: back ∧
      front.filterMap (declaration? p.classTable p) = before := by
  obtain ⟨front, rest, horder, hfront, hrest⟩ := List.filterMap_eq_append_iff.mp h
  obtain ⟨skipped, a, back, rfl, hskipped, ha, -⟩ := List.filterMap_eq_cons_iff.mp hrest
  obtain ⟨-, rfl⟩ := declaration?_eq_some_iff.mp ha
  refine ⟨front ++ skipped, back, ?_, ?_⟩
  · rw [horder, List.append_assoc]
  · rw [List.filterMap_append, hfront, List.filterMap_eq_nil_iff.mpr hskipped, List.append_nil]

/-- When a class is entered, its proper ancestors have their entries: the basic classes have them
from the start, and all others have been entered. -/
theorem exists_find?_of_inherits (h : entered p = before ++ (i, c) :: behind)
    (hb : p.classTable.Inherits c.name b) (hne : b ≠ c.name) :
    ∃ own, (enterAll p.classTable .basic before).1.find? b = some own := by
  have hs := ClassTable.sound_ofProgram p
  obtain ⟨front, back, horder, hfront⟩ := exists_order_of_entered h
  have hfirst := ClassTable.parentsFirst_resolvedOrder hs
  rw [horder] at hfirst
  have hmem : b ∈ front := hfirst.mem_of_inherits hb hne
  have hr : p.classTable.isResolved b = true := by
    rw [← ClassTable.mem_resolvedOrder_iff hs, horder]
    exact List.mem_append_left _ hmem
  obtain ⟨info, hinfo⟩ := ClassTable.contains_iff.mp (ClassTable.contains_of_isResolved hr)
  obtain ⟨hbasic | ⟨j, d, haccepts, rfl⟩, rfl⟩ := ClassTable.find?_ofProgram.mp hinfo
  · have hentries : ∀ info ∈ ClassTable.basic.classes,
        (FeatureTable.basic.find? info.name).isSome = true := by decide
    obtain ⟨own, hown⟩ := Option.isSome_iff_exists.mp (hentries info hbasic)
    exact ⟨own, find?_enterAll_of_find? before hown⟩
  · -- the first class of the name is the one that is declared for it
    have hdecl := declaration?_eq_some_iff.mpr ⟨haccepts, rfl⟩
    have hentered : (j, d) ∈ before := hfront ▸ List.mem_filterMap.mpr ⟨d.name, hmem, hdecl⟩
    exact exists_find?_enterAll hentered .basic

end FeatureTable

open FeatureTable in
/-- The order of the resolved classes lists each of them once, behind its parent, and nothing else.
The declarations of resolved classes are entered in this order; and when one is checked, the table
has the entries of all its proper ancestors, which are those that it has at the end. -/
theorem Program.entered_behind_ancestors (p : Program) :
    (∀ a, p.classTable.resolvedOrder.count a = if p.classTable.isResolved a then 1 else 0) ∧
    (∀ before a behind b, p.classTable.resolvedOrder = before ++ a :: behind →
      p.classTable.parentOf? a = some b → b ∈ before) ∧
    (∀ i c, (i, c) ∈ entered p ↔ p.Accepts i c ∧ p.classTable.isResolved c.name = true) ∧
    ∀ before i c behind, entered p = before ++ (i, c) :: behind →
      let now := (enterAll p.classTable .basic before).1
      let own := (now.checkClass p.classTable true c).value
      p.featureTable = (enterAll p.classTable (now.insert c.name own) behind).1 ∧
      ∀ b, p.classTable.Inherits c.name b → b ≠ c.name →
        ∃ inherited, now.find? b = some inherited ∧ p.featureTable.find? b = some inherited := by
  have hs := ClassTable.sound_ofProgram p
  have hfirst := ClassTable.parentsFirst_resolvedOrder hs
  refine ⟨fun a => ?_, fun before a behind b horder hp => ?_, fun i c => ?_,
    fun before i c behind h => ⟨?_, fun b hb hne => ?_⟩⟩
  · split_ifs with hr
    · exact List.count_eq_one_of_mem hfirst.nodup ((ClassTable.mem_resolvedOrder_iff hs).mpr hr)
    · exact List.count_eq_zero.mpr fun ha => hr ((ClassTable.mem_resolvedOrder_iff hs).mp ha)
  · rw [horder] at hfirst
    exact (hfirst.mem_of_parentOf? hp).resolve_left List.not_mem_nil
  · rw [entered, List.mem_filterMap]
    constructor
    · rintro ⟨a, ha, hdecl⟩
      obtain ⟨haccepts, rfl⟩ := declaration?_eq_some_iff.mp hdecl
      exact ⟨haccepts, (ClassTable.mem_resolvedOrder_iff hs).mp ha⟩
    · rintro ⟨haccepts, hr⟩
      exact ⟨c.name, (ClassTable.mem_resolvedOrder_iff hs).mpr hr,
        declaration?_eq_some_iff.mpr ⟨haccepts, rfl⟩⟩
  · rw [featureTable_eq_enterAll, h, enterAll_append]
    rfl
  · obtain ⟨own, hown⟩ := exists_find?_of_inherits h hb hne
    refine ⟨own, hown, ?_⟩
    rw [featureTable_eq_enterAll, h, enterAll_append]
    exact find?_enterAll_of_find? _ hown

/-- The child is declared before its parent, and a class without a defined parent between them. -/
example : Sample.outOfOrder.classTable.resolvedOrder =
    ["Object", "IO", "Int", "Bool", "String", "A", "B"] := by
  decide +kernel

end Cool
