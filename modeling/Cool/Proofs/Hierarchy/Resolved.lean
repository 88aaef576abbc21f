import Cool.Proofs.Hierarchy.Built

/-!
# What it means to be resolved

A class is resolved exactly if its parents lead to `Object` and none of the declared classes on the
way has a parent that must not be inherited from. Whatever a walk makes unresolved lacks this: the
path of a walk that ends badly leads to a class that was unresolved before, or into a cycle. As the
property speaks of the parents alone, the order of the walks makes no difference.

* `WellRooted` : the property, without walks;
* `Walks.not_wellRooted`, `not_wellRooted_walkAll` : what becomes unresolved does not have it;
* `isResolved_walkedIn_iff` : what is resolved, in whatever order the classes are visited;
* `WholeChain` : a chain of ancestors that is not cut;
* `resolved_ofProgram` : the resolved classes and their chains.
-/

namespace Cool

namespace ClassTable

variable {t t' : ClassTable} {p : Program} {a b name : String} {done names path path' : List String}
  {next : Option String} {ending : Walk} {l : List ClassInfo} {object : ClassInfo}

/-! ## Classes that lead to the root -/

/-- The parents of a class of the table lead to `Object`, and no declared class on the way has a
class of values or `SELF_TYPE` for a parent. -/
structure WellRooted (t : ClassTable) (a : String) : Prop where
  contains : t.contains a = true
  inherits : t.Inherits a Names.object
  legal : ∀ b info, t.Inherits a b → t.find? b = some info → info.isBasic = false →
    ∀ parent ∈ info.parent, parent ∉ Names.values ∧ parent ≠ Names.selfType

/-- A class of the table that does not lead to `Object` so. -/
def Stray (t : ClassTable) (a : String) : Prop :=
  t.contains a = true ∧ ¬t.WellRooted a

theorem WellRooted.of_classes_eq (h : t.WellRooted a) (hclasses : t'.classes = t.classes) :
    t'.WellRooted a := by
  cases t
  cases t'
  cases hclasses
  exact ⟨h.contains, h.inherits, h.legal⟩

theorem Stray.of_classes_eq (h : t.Stray a) (hclasses : t'.classes = t.classes) : t'.Stray a := by
  refine ⟨?_, fun hwell => h.2 (hwell.of_classes_eq hclasses.symm)⟩
  rw [contains_iff_mem, hclasses, ← contains_iff_mem]
  exact h.1

section Root

variable (hobject : t.find? Names.object = some object) (hroot : object.parent = none)
include hobject hroot

theorem exists_isChain_of_inherits (h : t.Inherits a Names.object) : ∃ l, t.IsChain a l := by
  induction h using Relation.ReflTransGen.head_induction_on with
  | refl => exact ⟨_, .root hobject hroot⟩
  | head hp _ ih =>
    obtain ⟨info, hinfo, hparent⟩ := parentOf?_eq_some_iff.mp hp
    obtain ⟨l, hl⟩ := ih
    exact ⟨_, .child hinfo hparent hl⟩

/-- All that a class inherits from on its way to the root leads there too. -/
theorem WellRooted.of_inherits (h : t.WellRooted a) (hab : t.Inherits a b) : t.WellRooted b := by
  have hnone : t.parentOf? Names.object = none := by
    rw [parentOf?_eq_of_find? hobject, hroot]
  have hb : t.Inherits b Names.object := by
    rcases hab.comparable h.inherits with hb | hb
    · exact hb
    · rw [hb.eq_of_parentOf?_eq_none hnone]
      exact .refl t b
  refine ⟨?_, hb, fun c info hbc => h.legal c info (hab.trans hbc)⟩
  rcases Relation.ReflTransGen.cases_head hb with rfl | ⟨c, hbc, -⟩
  · exact contains_of_find? hobject
  · exact contains_of_parentOf? hbc

/-- A class above itself does not lead to the root. -/
theorem not_wellRooted_of_cycle
    (h : Relation.TransGen (fun a b => t.parentOf? a = some b) a a) : ¬t.WellRooted a := by
  intro hwell
  obtain ⟨b, hab, hba⟩ := Relation.TransGen.head'_iff.mp h
  obtain ⟨l, hl⟩ := exists_isChain_of_inherits hobject hroot hwell.inherits
  have hnodup := hl.nodup
  cases hl with
  | root hfind hp =>
    rw [parentOf?_eq_of_find? hfind, hp] at hab
    cases hab
  | child hfind hp hl =>
    rw [parentOf?_eq_of_find? hfind, hp] at hab
    cases hab
    rw [List.map_cons, List.nodup_cons, name_of_find? hfind] at hnodup
    exact hnodup.1 (hl.inherits_iff.mp hba)

/-! ## Walks that end badly -/

/-- Where a walk ends badly, no class of its path leads to the root: the classes of the path lead
to where the walk ends. -/
theorem Walks.not_wellRooted (h : Walks t done path next path' ending)
    (hpath : ∀ a ∈ path, ∀ b ∈ next, Relation.TransGen (fun a b => t.parentOf? a = some b) a b)
    (hu : ∀ a ∈ t.unresolved, ¬t.WellRooted a) (hbad : ending ≠ .settled false) :
    ∀ a ∈ path', ¬t.WellRooted a := by
  induction h with
  | root => exact absurd rfl hbad
  | cycle hmem =>
    intro a ha hwell
    refine not_wellRooted_of_cycle hobject hroot (hpath _ hmem _ rfl) ?_
    exact hwell.of_inherits hobject hroot (hpath a ha _ rfl).to_reflTransGen
  | @settled path name _ _ =>
    intro a ha hwell
    have hname : name ∈ t.unresolved := by
      by_contra hnot
      exact hbad (by simp [hnot])
    exact hu name hname (hwell.of_inherits hobject hroot (hpath a ha _ rfl).to_reflTransGen)
  | step _ _ _ _ ih =>
    refine ih (fun a ha b hb => ?_) hbad
    rcases List.mem_append.mp ha with ha | ha
    · exact (hpath a ha _ rfl).tail hb
    · rw [List.mem_singleton.mp ha]
      exact .single hb

theorem stray_settle (h : Walks t done [] next path' ending)
    (hu : ∀ a ∈ t.unresolved, t.Stray a) :
    ∀ a ∈ (t.settle path' ending).value.unresolved, t.Stray a := by
  intro a ha
  have hempty : ∀ a ∈ ([] : List String), ∀ b ∈ next,
      Relation.TransGen (fun a b => t.parentOf? a = some b) a b :=
    fun a ha => absurd ha List.not_mem_nil
  rcases mem_unresolved_settle ha with hold | hpath
  · exact hu a hold
  · by_cases hgood : ending = .settled false
    · rw [hgood] at ha
      exact hu a ha
    · refine ⟨((h.path_subset.2 a hpath).resolve_left List.not_mem_nil).2, ?_⟩
      exact h.not_wellRooted hobject hroot hempty (fun b hb => (hu b hb).2) hgood a hpath

end Root

/-- Only classes that do not lead to the root become unresolved. -/
theorem stray_walkAll (hroot : object.parent = none) :
    ∀ (names : List String) (t : ClassTable) (done : List String),
      t.find? Names.object = some object → (∀ a ∈ t.unresolved, t.Stray a) →
        ∀ a ∈ (t.walkAll done names).value.unresolved, t.Stray a
  | [], _, _, _, hu => hu
  | name :: names, t, done, hobject, hu => by
    rcases walkAll_cons t done name names with ⟨-, heq⟩ | ⟨-, path, ending, hw, heq⟩
    · rw [heq]
      exact stray_walkAll hroot names t done hobject hu
    · rw [heq, Diagnosed.value_bind]
      have hclasses : (t.settle path ending).value.classes = t.classes := classes_settle _ _
      have hobject' : (t.settle path ending).value.find? Names.object = some object := by
        rw [find?, hclasses]
        exact hobject
      intro a ha
      refine (stray_walkAll hroot names _ _ hobject' (fun b hb => ?_) a ha).of_classes_eq
        hclasses.symm
      exact (stray_settle hobject hroot hw hu b hb).of_classes_eq hclasses

/-! ## Programs -/

theorem find?_object_checkedIn (p : Program) :
    ∃ object, (checkedIn p).value.find? Names.object = some object ∧ object.parent = none := by
  obtain ⟨object, hmem, hname, hparent⟩ := exists_object
  exact ⟨object, find?_checkedIn.mpr ⟨Or.inl hmem, hname⟩, hparent⟩

/-- What is unresolved before the walks has an illegal parent, or none that is defined. -/
theorem stray_checkedIn (p : Program) :
    ∀ a ∈ (checkedIn p).value.unresolved, (checkedIn p).value.Stray a := by
  intro a ha
  obtain ⟨object, hobject, hroot⟩ := find?_object_checkedIn p
  rcases mem_unresolved_checkedIn.mp ha with hdeclared | ⟨info, hinfo, hundefined, rfl⟩
  · obtain ⟨i, c, hc, rfl, hillegal⟩ := mem_unresolved_declaredIn.mp hdeclared
    have hfind : (checkedIn p).value.find? c.name = some (c.info i) :=
      find?_checkedIn.mpr ⟨Or.inr ⟨i, c, hc, rfl⟩, rfl⟩
    refine ⟨contains_of_find? hfind, fun hwell => ?_⟩
    have hlegal := hwell.legal c.name _ (.refl _ _) hfind rfl c.parent rfl
    simp [isIllegalParent, hlegal] at hillegal
  · obtain ⟨-, parent, hparent, hnot⟩ := undefinedParent?_isSome.mp hundefined
    have hfind : (checkedIn p).value.find? info.name = some info :=
      find?_checkedIn.mpr ⟨mem_classes_declaredIn.mp hinfo, rfl⟩
    refine ⟨contains_of_find? hfind, fun hwell => ?_⟩
    have hp := parentOf?_eq_some_iff.mpr ⟨info, hfind, hparent⟩
    have hcontains := (hwell.of_inherits hobject hroot (.head hp (.refl _ _))).contains
    rw [contains_checkedIn, hnot] at hcontains
    cases hcontains

theorem find?_walkedIn (hnames : ∀ a, a ∈ names ↔ (declaredIn p).value.contains a = true) :
    (walkedIn p names).value.find? a = (ofProgram p).value.find? a := by
  rw [find?, find?, (exists_settled_walkedIn hnames).1, (exists_settled_ofProgram p).1]

/-- Whatever is not unresolved after the walks leads to the root. -/
theorem wellRooted_walkedIn (hnames : ∀ a, a ∈ names ↔ (declaredIn p).value.contains a = true)
    (h : (walkedIn p names).value.isResolved a = true) : (walkedIn p names).value.WellRooted a := by
  obtain ⟨hclasses, hgrow, -, done, hs, hcover⟩ := exists_settled_walkedIn hnames
  have hclosed : ∀ b, (walkedIn p names).value.Inherits a b →
      (walkedIn p names).value.isResolved b = true := by
    intro b hab
    induction hab with
    | refl => exact h
    | tail _ hp ih =>
      obtain ⟨hc, hn⟩ := isResolved_iff.mp ih
      exact isResolved_iff.mpr ⟨hs.closed _ _ hn hp, (hs.parent _ (hcover _ hc) hn _ hp).2⟩
  obtain ⟨hc, hn⟩ := isResolved_iff.mp h
  obtain ⟨l, hl⟩ := hs.chain a (hcover a hc) hn
  refine ⟨hc, hl.inherits_object fun b info hb => ?_,
    fun b info hab hb hdeclared parent hparent => ?_⟩
  · rw [find?_walkedIn hnames] at hb
    exact (sound_ofProgram p).root b info hb
  · rw [find?_walkedIn hnames] at hb
    obtain ⟨hbasic | ⟨i, c, haccepts, rfl⟩, rfl⟩ := find?_ofProgram.mp hb
    · rw [(parent_of_mem_basic info hbasic).1] at hdeclared
      cases hdeclared
    · cases hparent
      -- an illegal parent would have made the class unresolved from the start
      have hlegal : isIllegalParent c.parent = false := by
        rw [Bool.eq_false_iff]
        intro hillegal
        refine (isResolved_iff.mp (hclosed _ hab)).2 (hgrow (mem_unresolved_checkedIn.mpr ?_))
        exact Or.inl (mem_unresolved_declaredIn.mpr ⟨i, c, haccepts, rfl, hillegal⟩)
      simpa [isIllegalParent] using hlegal

/-- The resolved classes are those that lead to the root, in whatever order the walks start. -/
theorem isResolved_walkedIn_iff (hnames : ∀ a, a ∈ names ↔ (declaredIn p).value.contains a = true) :
    (walkedIn p names).value.isResolved a = true ↔ (walkedIn p names).value.WellRooted a := by
  refine ⟨wellRooted_walkedIn hnames, fun hwell => isResolved_iff.mpr ⟨hwell.contains, ?_⟩⟩
  obtain ⟨object, hobject, hroot⟩ := find?_object_checkedIn p
  have hclasses : (walkedIn p names).value.classes = (checkedIn p).value.classes :=
    (exists_settled_walkedIn hnames).1
  intro ha
  exact (stray_walkAll hroot names _ (knownIn p) hobject (stray_checkedIn p) a ha).2
    (hwell.of_classes_eq hclasses.symm)

theorem isResolved_ofProgram_iff :
    (ofProgram p).value.isResolved a = true ↔ (ofProgram p).value.WellRooted a := by
  rw [← walkedIn_classes p]
  exact isResolved_walkedIn_iff fun _ => contains_iff_mem.symm

/-- What is unresolved does not depend on the order of the walks. -/
theorem mem_unresolved_walkedIn_iff
    (hnames : ∀ a, a ∈ names ↔ (declaredIn p).value.contains a = true) :
    a ∈ (walkedIn p names).value.unresolved ↔ (checkedIn p).value.Stray a := by
  obtain ⟨object, hobject, hroot⟩ := find?_object_checkedIn p
  have hclasses : (walkedIn p names).value.classes = (checkedIn p).value.classes :=
    (exists_settled_walkedIn hnames).1
  refine ⟨stray_walkAll hroot names _ (knownIn p) hobject (stray_checkedIn p) a, fun ha => ?_⟩
  by_contra hnot
  have hstray := ha.of_classes_eq hclasses
  exact hstray.2 (wellRooted_walkedIn hnames (isResolved_iff.mpr ⟨hstray.1, hnot⟩))

/-! ## Whole chains -/

/-- The chain from a class to `Object`, each class behind its child, and nothing cut off it: with a
greater bound on its length it would be the same. -/
structure WholeChain (t : ClassTable) (a : String) (l : List ClassInfo) : Prop where
  head : l.head?.map ClassInfo.name = some a
  parents : l.IsChain fun c d => c.parent = some d.name
  last : l.getLast?.map ClassInfo.name = some Names.object
  entries : ∀ c ∈ l, t.find? c.name = some c
  nodup : (l.map ClassInfo.name).Nodup
  resolved : ∀ c ∈ l, t.isResolved c.name = true
  uncut : ∀ n, t.classes.length ≤ n → t.chain n a = l

theorem IsChain.parents (h : t.IsChain a l) : l.IsChain fun c d => c.parent = some d.name := by
  induction h with
  | root => exact .singleton _
  | child _ hp hl ih =>
    obtain ⟨info, below, rfl⟩ := List.exists_cons_of_ne_nil hl.ne_nil
    exact List.isChain_cons_cons.mpr ⟨hl.head_name ▸ hp, ih⟩

theorem IsChain.entries (h : t.IsChain a l) : ∀ c ∈ l, t.find? c.name = some c := by
  induction h with
  | root hfind _ =>
    intro c hc
    rw [List.mem_singleton.mp hc, name_of_find? hfind]
    exact hfind
  | child hfind _ _ ih =>
    refine List.forall_mem_cons.mpr ⟨?_, ih⟩
    rw [name_of_find? hfind]
    exact hfind

/-- A chain of a table is one of every table that has its classes. -/
theorem IsChain.of_entries (h : t.IsChain a l) (hentries : ∀ c ∈ l, t'.find? c.name = some c) :
    t'.IsChain a l := by
  induction h with
  | root hfind hp =>
    have hinfo := hentries _ List.mem_cons_self
    rw [name_of_find? hfind] at hinfo
    exact .root hinfo hp
  | child hfind hp _ ih =>
    obtain ⟨hinfo, hl⟩ := List.forall_mem_cons.mp hentries
    rw [name_of_find? hfind] at hinfo
    exact .child hinfo hp (ih hl)

/-- A chain ends at a class without parent. -/
theorem IsChain.last (h : t.IsChain a l)
    (hroot : ∀ a info, t.find? a = some info → info.parent = none → a = Names.object) :
    l.getLast?.map ClassInfo.name = some Names.object := by
  induction h with
  | root hfind hp =>
    rw [List.getLast?_singleton, Option.map_some, name_of_find? hfind, hroot _ _ hfind hp]
  | child _ _ hl ih =>
    obtain ⟨info, below, rfl⟩ := List.exists_cons_of_ne_nil hl.ne_nil
    rw [List.getLast?_cons_cons]
    exact ih

theorem Sound.wholeChain (hs : t.Sound) (ha : t.isResolved a = true) :
    t.WholeChain a (t.ancestors a) := by
  obtain ⟨l, hl⟩ := hs.chain a ha
  rw [ancestors_eq_of_isChain hl]
  refine ⟨?_, hl.parents, hl.last hs.root, hl.entries, hl.nodup, fun c hc => ?_, fun n hn => ?_⟩
  · obtain ⟨info, below, rfl⟩ := List.exists_cons_of_ne_nil hl.ne_nil
    exact congrArg some hl.head_name
  · exact hs.isResolved_of_inherits ha (hl.inherits_iff.mpr (List.mem_map_of_mem hc))
  · exact hl.chain_eq (hl.length_le.trans hn)

/-- The resolved classes of a program are the classes of its table whose parents lead to `Object`
past no declared class with an illegal parent. The ancestors of a resolved class are the whole of
that way. So the parents of resolved classes are resolved; and the walks find the same classes
unresolved in whatever order they start from the classes of the table. -/
theorem resolved_ofProgram (p : Program) :
    (∀ a, (ofProgram p).value.isResolved a = true ↔ (ofProgram p).value.WellRooted a) ∧
    (∀ a, (ofProgram p).value.isResolved a = true →
      (ofProgram p).value.WholeChain a ((ofProgram p).value.ancestors a)) ∧
    (∀ a b, (ofProgram p).value.isResolved a = true → (ofProgram p).value.parentOf? a = some b →
      (ofProgram p).value.isResolved b = true) ∧
    ∀ names, names.Perm ((ofProgram p).value.classes.map ClassInfo.name) →
      ∀ a, a ∈ (walkedIn p names).value.unresolved ↔ a ∈ (ofProgram p).value.unresolved := by
  have hs := sound_ofProgram p
  have hdeclared : ∀ a, a ∈ (declaredIn p).value.classes.map ClassInfo.name ↔
      (declaredIn p).value.contains a = true := fun _ => contains_iff_mem.symm
  rw [← walkedIn_classes p] at hs ⊢
  refine ⟨fun a => isResolved_walkedIn_iff hdeclared, fun a ha => hs.wholeChain ha, hs.parent,
    fun names hperm a => ?_⟩
  rw [(exists_settled_walkedIn hdeclared).1] at hperm
  rw [mem_unresolved_walkedIn_iff hdeclared,
    mem_unresolved_walkedIn_iff fun a => hperm.mem_iff.trans (hdeclared a)]

end ClassTable

/-- A class with two heirs, and a class that inherits from itself with an heir declared before. -/
def Sample.hierarchy : Program :=
  ⟨[⟨"A", "Object", [], "", default⟩, ⟨"B", "A", [], "", default⟩, ⟨"C", "A", [], "", default⟩,
    ⟨"D", "E", [], "", default⟩, ⟨"E", "E", [], "", default⟩]⟩

example : (ClassTable.ofProgram Sample.hierarchy).value.unresolved = ["D", "E"] := by
  decide +kernel

end Cool
