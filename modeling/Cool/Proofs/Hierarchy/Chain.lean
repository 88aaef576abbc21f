import Cool.ClassTable.Basic
import Mathlib.Data.List.Nodup
import Mathlib.Logic.Relation

/-!
# Chains of ancestors

The ancestors of a class are cut off at the size of the table. A chain that ends by itself, at a
class without parent, names no class twice and so is never cut; on such chains the list of the
ancestors and the relation of inheriting say the same.

* `ClassTable.Inherits` : the reflexive and transitive closure of the parents;
* `ClassTable.IsChain` : the classes from a class up to one without parent; `IsChain.unique`,
  `IsChain.nodup`, `IsChain.suffix_of_mem`;
* `ancestors_eq_of_isChain` : the bound on the ancestors does not cut a chain;
* `mem_ancestors_iff` : the ancestors are the classes that a class inherits from;
* `ClassTable.Sound` : all resolved classes have such chains, of resolved classes, up to `Object`.
-/

namespace Cool

namespace ClassTable

variable {t : ClassTable} {a b c : String} {info : ClassInfo} {l l' : List ClassInfo}

/-! ## Single classes -/

theorem name_of_find? (h : t.find? a = some info) : info.name = a := by
  simpa using List.find?_some h

theorem mem_of_find? (h : t.find? a = some info) : info ∈ t.classes :=
  List.mem_of_find?_eq_some h

theorem find?_eq_some_iff (h : (t.classes.map ClassInfo.name).Nodup) :
    t.find? a = some info ↔ info ∈ t.classes ∧ info.name = a := by
  refine ⟨fun hfind => ⟨mem_of_find? hfind, name_of_find? hfind⟩, ?_⟩
  rintro ⟨hmem, rfl⟩
  have hsome : (t.find? info.name).isSome = true :=
    List.find?_isSome.mpr ⟨info, hmem, beq_self_eq_true info.name⟩
  obtain ⟨found, hfound⟩ := Option.isSome_iff_exists.mp hsome
  rw [hfound, List.inj_on_of_nodup_map h (mem_of_find? hfound) hmem (name_of_find? hfound)]

theorem contains_iff : t.contains a = true ↔ ∃ info, t.find? a = some info := by
  rw [contains, Option.isSome_iff_exists]

theorem contains_of_find? (h : t.find? a = some info) : t.contains a = true :=
  contains_iff.mpr ⟨info, h⟩

theorem contains_iff_mem : t.contains a = true ↔ a ∈ t.classes.map ClassInfo.name := by
  simp [contains, find?, List.find?_isSome]

theorem parentOf?_eq_of_find? (h : t.find? a = some info) : t.parentOf? a = info.parent := by
  simp [parentOf?, h]

theorem parentOf?_eq_some_iff :
    t.parentOf? a = some b ↔ ∃ info, t.find? a = some info ∧ info.parent = some b := by
  simp [parentOf?, Option.bind_eq_some_iff]

theorem contains_of_parentOf? (h : t.parentOf? a = some b) : t.contains a = true := by
  obtain ⟨info, hinfo, -⟩ := parentOf?_eq_some_iff.mp h
  exact contains_of_find? hinfo

theorem isResolved_iff : t.isResolved a = true ↔ t.contains a = true ∧ a ∉ t.unresolved := by
  simp [isResolved]

theorem contains_of_isResolved (h : t.isResolved a = true) : t.contains a = true :=
  (isResolved_iff.mp h).1

theorem resolveType?_eq_some_iff {τ : Ty} :
    t.resolveType? a = some τ ↔ τ = .ofName a ∧ (a = Names.selfType ∨ t.contains a = true) := by
  unfold resolveType? Ty.ofName
  split_ifs with hself hc
  · exact ⟨fun h => ⟨(Option.some.inj h).symm, Or.inl hself⟩, fun h => congrArg some h.1.symm⟩
  · exact ⟨fun h => ⟨(Option.some.inj h).symm, Or.inr hc⟩, fun h => congrArg some h.1.symm⟩
  · refine ⟨nofun, ?_⟩
    rintro ⟨-, h | h⟩
    · exact absurd h hself
    · exact absurd h hc

/-! ## Inheriting -/

/-- `b` is `a`, or its parent, or the parent of that, and so on. -/
def Inherits (t : ClassTable) : String → String → Prop :=
  Relation.ReflTransGen fun a b => t.parentOf? a = some b

theorem Inherits.refl (t : ClassTable) (a : String) : t.Inherits a a :=
  Relation.ReflTransGen.refl

theorem Inherits.trans (h : t.Inherits a b) (h' : t.Inherits b c) : t.Inherits a c :=
  Relation.ReflTransGen.trans h h'

theorem Inherits.head (h : t.parentOf? a = some b) (h' : t.Inherits b c) : t.Inherits a c :=
  Relation.ReflTransGen.head h h'

/-- All that a class with a parent inherits from but itself is inherited through the parent. -/
theorem Inherits.cases_parent (h : t.Inherits a c) (hp : t.parentOf? a = some b) :
    a = c ∨ t.Inherits b c := by
  rcases Relation.ReflTransGen.cases_head h with rfl | ⟨b', hb', h'⟩
  · exact Or.inl rfl
  · rw [hp] at hb'
    cases hb'
    exact Or.inr h'

theorem Inherits.eq_of_parentOf?_eq_none (h : t.Inherits a c) (hp : t.parentOf? a = none) :
    a = c := by
  rcases Relation.ReflTransGen.cases_head h with rfl | ⟨b, hb, -⟩
  · rfl
  · rw [hp] at hb
    cases hb

/-! ## Chains -/

/-- The classes from `a` on, each the parent of the one before, up to one that has none. -/
inductive IsChain (t : ClassTable) : String → List ClassInfo → Prop
  | root {a : String} {info : ClassInfo} (h : t.find? a = some info) (hp : info.parent = none) :
    IsChain t a [info]
  | child {a b : String} {info : ClassInfo} {l : List ClassInfo} (h : t.find? a = some info)
    (hp : info.parent = some b) (hl : IsChain t b l) : IsChain t a (info :: l)

namespace IsChain

theorem unique (h : t.IsChain a l) (h' : t.IsChain a l') : l = l' := by
  induction h generalizing l' with
  | root h hp =>
    cases h' with
    | root h' _ =>
      rw [h] at h'
      cases h'
      rfl
    | child h' hp' _ =>
      rw [h] at h'
      cases h'
      rw [hp] at hp'
      cases hp'
  | child h hp _ ih =>
    cases h' with
    | root h' hp' =>
      rw [h] at h'
      cases h'
      rw [hp] at hp'
      cases hp'
    | child h' hp' hl' =>
      rw [h] at h'
      cases h'
      rw [hp] at hp'
      cases hp'
      rw [ih hl']

theorem ne_nil (h : t.IsChain a l) : l ≠ [] := by
  cases h <;> simp

theorem head_name (h : t.IsChain a (info :: l)) : info.name = a := by
  cases h with
  | root h _ => exact name_of_find? h
  | child h _ _ => exact name_of_find? h

/-- A chain tells the class that it starts with. -/
theorem start_unique (h : t.IsChain a l) (h' : t.IsChain b l) : a = b := by
  obtain ⟨info, below, rfl⟩ := List.exists_cons_of_ne_nil h.ne_nil
  rw [← h.head_name, ← h'.head_name]

theorem subset_classes (h : t.IsChain a l) : l ⊆ t.classes := by
  induction h with
  | root h _ => simpa using mem_of_find? h
  | child h _ _ ih => exact List.cons_subset.mpr ⟨mem_of_find? h, ih⟩

/-- From each of its classes on, a chain is the chain of that class. -/
theorem suffix_of_mem (h : t.IsChain a l) (hb : b ∈ l.map ClassInfo.name) :
    ∃ above below, l = above ++ below ∧ t.IsChain b below ∧ b ∉ above.map ClassInfo.name := by
  induction h with
  | root h hp =>
    rw [List.map_singleton, List.mem_singleton, name_of_find? h] at hb
    exact ⟨[], _, rfl, hb ▸ .root h hp, by simp⟩
  | @child a _ info l h hp hl ih =>
    by_cases hab : a = b
    · exact ⟨[], _, rfl, hab ▸ .child h hp hl, by simp⟩
    · have hname := name_of_find? h
      rw [List.map_cons, List.mem_cons, hname] at hb
      obtain ⟨above, below, rfl, hbelow, hnot⟩ := ih (hb.resolve_left (Ne.symm hab))
      refine ⟨info :: above, below, rfl, hbelow, ?_⟩
      rw [List.map_cons, List.mem_cons, hname]
      exact not_or.mpr ⟨Ne.symm hab, hnot⟩

theorem of_append {above below : List ClassInfo} (h : t.IsChain a (above ++ info :: below)) :
    t.IsChain info.name (info :: below) := by
  generalize hl : above ++ info :: below = l at h
  induction h generalizing above with
  | root h hp =>
    cases above with
    | nil =>
      cases hl
      exact name_of_find? h ▸ .root h hp
    | cons first above => simp at hl
  | child h hp hl' ih =>
    cases above with
    | nil =>
      cases hl
      exact name_of_find? h ▸ .child h hp hl'
    | cons first above =>
      cases hl
      exact ih rfl

/-- A class that came again would start a chain that is longer than itself. -/
theorem nodup (h : t.IsChain a l) : (l.map ClassInfo.name).Nodup := by
  induction h with
  | root => simp
  | @child a _ info l h hp hl ih =>
    rw [List.map_cons, List.nodup_cons]
    refine ⟨fun hmem => ?_, ih⟩
    rw [name_of_find? h] at hmem
    obtain ⟨above, below, hsplit, hbelow, -⟩ := hl.suffix_of_mem hmem
    have hlen := congrArg List.length (hbelow.unique (.child h hp hl))
    rw [hsplit] at hlen
    simp only [List.length_cons, List.length_append] at hlen
    omega

theorem length_le (h : t.IsChain a l) : l.length ≤ t.classes.length :=
  (List.Nodup.of_map _ h.nodup).length_le_of_subset h.subset_classes

theorem chain_eq (h : t.IsChain a l) : ∀ {n : Nat}, l.length ≤ n → t.chain n a = l := by
  induction h with
  | root h hp =>
    intro n hn
    obtain ⟨n, rfl⟩ := Nat.exists_eq_add_of_le' hn
    simp [chain, h, hp]
  | child h hp _ ih =>
    intro n hn
    obtain ⟨m, rfl⟩ := Nat.exists_eq_add_of_le' hn
    rw [List.length_cons, ← Nat.add_assoc]
    simp only [chain, h, hp]
    rw [ih (by omega)]

theorem inherits_iff (h : t.IsChain a l) : t.Inherits a b ↔ b ∈ l.map ClassInfo.name := by
  induction h with
  | root h hp =>
    rw [List.map_singleton, List.mem_singleton, name_of_find? h]
    refine ⟨fun hab => ?_, fun hab => hab ▸ .refl t _⟩
    have hnone := parentOf?_eq_of_find? h
    rw [hp] at hnone
    exact (hab.eq_of_parentOf?_eq_none hnone).symm
  | child h hp _ ih =>
    have hparent := parentOf?_eq_some_iff.mpr ⟨_, h, hp⟩
    rw [List.map_cons, List.mem_cons, name_of_find? h, ← ih]
    refine ⟨fun hab => (hab.cases_parent hparent).imp_left Eq.symm, ?_⟩
    rintro (rfl | hab)
    · exact .refl t _
    · exact .head hparent hab

end IsChain

theorem ancestors_eq_of_isChain (h : t.IsChain a l) : t.ancestors a = l :=
  h.chain_eq h.length_le

theorem contains_of_mem_ancestors (h : b ∈ (t.ancestors a).map ClassInfo.name) :
    t.contains a = true := by
  cases hfind : t.find? a with
  | some info => exact contains_of_find? hfind
  | none =>
    have hnil : ∀ n, t.chain n a = [] := by
      intro n
      cases n with
      | zero => rfl
      | succ n => rw [chain, hfind]
    rw [ancestors, hnil] at h
    exact absurd h List.not_mem_nil

theorem mem_ancestors_iff (h : t.IsChain a l) :
    b ∈ (t.ancestors a).map ClassInfo.name ↔ t.Inherits a b := by
  rw [ancestors_eq_of_isChain h, h.inherits_iff]

/-- Of two classes that a class inherits from, one inherits from the other. -/
theorem Inherits.comparable (hb : t.Inherits a b) (hc : t.Inherits a c) :
    t.Inherits b c ∨ t.Inherits c b := by
  refine Relation.ReflTransGen.total_of_right_unique (fun _ _ _ h h' => ?_) hb hc
  rw [h] at h'
  exact Option.some.inj h'

theorem Inherits.antisymm (hab : t.Inherits a b) (h : t.IsChain a l) (hba : t.Inherits b a) :
    a = b := by
  obtain ⟨above, below, rfl, hbelow, -⟩ := h.suffix_of_mem (h.inherits_iff.mp hab)
  obtain ⟨above', below', rfl, hbelow', -⟩ := hbelow.suffix_of_mem (hbelow.inherits_iff.mp hba)
  have hlen := congrArg List.length (h.unique hbelow')
  simp only [List.length_append] at hlen
  obtain rfl : above' = [] := List.eq_nil_of_length_eq_zero (by omega)
  exact hbelow'.start_unique hbelow

/-! ## Sound tables -/

structure Sound (t : ClassTable) : Prop where
  chain : ∀ a, t.isResolved a = true → ∃ l, t.IsChain a l
  parent : ∀ a b, t.isResolved a = true → t.parentOf? a = some b → t.isResolved b = true
  root : ∀ a info, t.find? a = some info → info.parent = none → a = Names.object

theorem Sound.isResolved_of_inherits (hs : t.Sound) (ha : t.isResolved a = true)
    (h : t.Inherits a b) : t.isResolved b = true := by
  induction h with
  | refl => exact ha
  | tail _ hp ih => exact hs.parent _ _ ih hp

theorem IsChain.inherits_object (h : t.IsChain a l)
    (hroot : ∀ a info, t.find? a = some info → info.parent = none → a = Names.object) :
    t.Inherits a Names.object := by
  induction h with
  | root h hp =>
    rw [hroot _ _ h hp]
    exact .refl t _
  | child h hp _ ih => exact .head (parentOf?_eq_some_iff.mpr ⟨_, h, hp⟩) ih

theorem Sound.inherits_object (hs : t.Sound) (ha : t.isResolved a = true) :
    t.Inherits a Names.object := by
  obtain ⟨l, hl⟩ := hs.chain a ha
  exact hl.inherits_object hs.root

theorem Sound.mem_ancestors_iff (hs : t.Sound) (ha : t.isResolved a = true) :
    b ∈ (t.ancestors a).map ClassInfo.name ↔ t.Inherits a b := by
  obtain ⟨l, hl⟩ := hs.chain a ha
  exact ClassTable.mem_ancestors_iff hl

theorem Sound.antisymm (hs : t.Sound) (ha : t.isResolved a = true) (hab : t.Inherits a b)
    (hba : t.Inherits b a) : a = b := by
  obtain ⟨l, hl⟩ := hs.chain a ha
  exact hab.antisymm hl hba

end ClassTable

end Cool
