import Cool.Proofs.Diagnosed
import Cool.Proofs.Hierarchy.Resolved

/-!
# Cycles of inheritance

Every cycle is reported once, by the walk that is the first to run into it: the walk passes all
classes of the cycle, so that no other walk gets there. Hence there are as many reports as cycles,
in whatever order the classes are visited; only the class that a cycle is reported at is found by
its position.

* `Cyclic` : a class that is above itself;
* `CycleHeads` : one class of each cycle; all such choices have one length;
* `IsTrail` : how the classes of a path lead to each other;
* `Walks.cyclic_or_settled` : where a walk ends, and what it has passed;
* `Heads`, `EnteredBefore` : the first class of a cycle, and the order in which cycles are entered;
* `exists_heads_findCycles` : what is reported;
* `exists_cycleHeads_findCycles` : the number of reports;
* `reportsOnly_findCycles` : where they are.
-/

namespace Cool

namespace ClassTable

variable {t t' : ClassTable} {p : Program} {a b name : String}
  {done path path' heads heads' : List String} {next : Option String} {ending : Walk}
  {object : ClassInfo}

/-! ## Classes above themselves -/

/-- The parent of a class, or the parent of that, and so on, is the class itself. -/
def Cyclic (t : ClassTable) (a : String) : Prop :=
  Relation.TransGen (fun a b => t.parentOf? a = some b) a a

theorem Cyclic.contains (h : t.Cyclic a) : t.contains a = true := by
  obtain ⟨b, hab, -⟩ := Relation.TransGen.head'_iff.mp h
  exact contains_of_parentOf? hab

/-- There is no way out of a cycle. -/
theorem Cyclic.inherits_symm (h : t.Cyclic a) (hab : t.Inherits a b) : t.Inherits b a := by
  induction hab with
  | refl => exact .refl t a
  | @tail b c _ hp ih =>
    rcases Relation.ReflTransGen.cases_head ih with rfl | ⟨d, hd, hda⟩
    · obtain ⟨d, hd, hda⟩ := Relation.TransGen.head'_iff.mp h
      rw [hp] at hd
      cases hd
      exact hda
    · rw [hp] at hd
      cases hd
      exact hda

theorem Cyclic.of_inherits (h : t.Cyclic a) (hab : t.Inherits a b) : t.Cyclic b :=
  Relation.TransGen.trans_right (h.inherits_symm hab) (Relation.TransGen.trans_left h hab)

theorem inherits_congr (h : t'.parentOf? = t.parentOf?) : t'.Inherits = t.Inherits := by
  unfold Inherits
  rw [h]

theorem cyclic_congr (h : t'.parentOf? = t.parentOf?) : t'.Cyclic = t.Cyclic := by
  unfold Cyclic
  rw [h]

/-! ## One class of each cycle -/

/-- Classes of cycles, no two of the same, and one of each. -/
structure CycleHeads (t : ClassTable) (heads : List String) : Prop where
  cyclic : ∀ a ∈ heads, t.Cyclic a
  apart : heads.Pairwise fun a b => ¬t.Inherits a b
  cover : ∀ a, t.Cyclic a → ∃ b ∈ heads, t.Inherits a b

namespace CycleHeads

/-- Each class of the first list has one of its cycle in the second, and no two have the same. -/
theorem length_le (h : t.CycleHeads heads) (h' : t.CycleHeads heads') :
    heads.length ≤ heads'.length := by
  have hexists : ∀ a ∈ heads, ∃ b ∈ heads', t.Inherits a b :=
    fun a ha => h'.cover a (h.cyclic a ha)
  choose! f hmem hinherits using hexists
  have hnodup : (heads.map f).Nodup := by
    refine List.pairwise_map.mpr (h.apart.imp_of_mem fun {a b} ha hb hapart heq => hapart ?_)
    have hback : t.Inherits (f b) b := (h.cyclic b hb).inherits_symm (hinherits b hb)
    exact (heq ▸ hinherits a ha).trans hback
  have hle : (heads.map f).length ≤ heads'.length := by
    refine hnodup.length_le_of_subset fun b hb => ?_
    obtain ⟨a, ha, rfl⟩ := List.mem_map.mp hb
    exact hmem a ha
  rwa [List.length_map] at hle

theorem length_eq (h : t.CycleHeads heads) (h' : t.CycleHeads heads') :
    heads.length = heads'.length :=
  Nat.le_antisymm (h.length_le h') (h'.length_le h)

theorem congr (h : t.CycleHeads heads) (hparent : t'.parentOf? = t.parentOf?) :
    t'.CycleHeads heads := by
  constructor
  · rw [cyclic_congr hparent]
    exact h.cyclic
  · rw [inherits_congr hparent]
    exact h.apart
  · rw [cyclic_congr hparent, inherits_congr hparent]
    exact h.cover

end CycleHeads

/-! ## Single walks -/

/-- The parents of the classes that were passed were passed, as far as they are in the table. -/
def Closed (t : ClassTable) (done : List String) : Prop :=
  ∀ a ∈ done, ∀ b, t.parentOf? a = some b → t.contains b = true → b ∈ done

/-- Whatever a passed class inherits from was passed, as far as it is in the table. -/
theorem Closed.mem_of_inherits (hd : t.Closed done) (ha : a ∈ done) (h : t.Inherits a b)
    (hb : t.contains b = true) : b ∈ done := by
  induction h with
  | refl => exact ha
  | tail _ hp ih => exact hd _ (ih (contains_of_parentOf? hp)) _ hp hb

theorem Walks.mem_of_parentOf? (h : Walks t done path next path' ending)
    (hpath : ∀ a ∈ path, ∀ b, t.parentOf? a = some b → b ∈ path ∨ next = some b) :
    ∀ a ∈ path', ∀ b, t.parentOf? a = some b → t.contains b = true → b ∈ done ∨ b ∈ path' := by
  induction h with
  | root path => exact fun a ha b hb _ => Or.inr ((hpath a ha b hb).resolve_right nofun)
  | @cycle path name hmem =>
    intro a ha b hb _
    rcases hpath a ha b hb with hb | hb
    · exact Or.inr hb
    · cases hb
      exact Or.inr hmem
  | @settled path name _ hd =>
    intro a ha b hb hc
    rcases hpath a ha b hb with hb | hb
    · exact Or.inr hb
    · cases hb
      exact Or.inl (hd.resolve_right (by simp [hc]))
  | @step path path' name ending _ _ _ _ ih =>
    refine ih fun a ha b hb => ?_
    rcases List.mem_append.mp ha with ha | ha
    · rcases hpath a ha b hb with hb | hb
      · exact Or.inl (List.mem_append_left _ hb)
      · cases hb
        exact Or.inl (by simp)
    · rw [List.mem_singleton.mp ha] at hb
      exact Or.inr hb

theorem Closed.append (hd : t.Closed done) (h : Walks t done [] next path' ending) :
    t.Closed (done ++ path') := by
  intro a ha b hb hc
  rw [List.mem_append] at ha ⊢
  rcases ha with ha | ha
  · exact Or.inl (hd a ha b hb hc)
  · exact h.mem_of_parentOf? (fun a ha => absurd ha List.not_mem_nil) a ha b hb hc

/-- The classes of a path lead from one to the next, and the last one to `next`. -/
structure IsTrail (t : ClassTable) (path : List String) (next : Option String) : Prop where
  ends : ∀ a ∈ path, ∃ b, t.Inherits a b ∧ t.parentOf? b = next
  leads : ∀ a l, a :: l <:+ path → ∀ b ∈ a :: l, t.Inherits a b
  /-- From any of its classes on, the path is left only for `next`. -/
  left : ∀ l, l <:+ path → ∀ a ∈ l, ∀ b, t.parentOf? a = some b → b ∈ l ∨ next = some b

namespace IsTrail

theorem nil (next : Option String) : t.IsTrail [] next where
  ends _ ha := absurd ha List.not_mem_nil
  leads _ _ hl := absurd (hl.subset List.mem_cons_self) List.not_mem_nil
  left _ hl _ ha := absurd (hl.subset ha) List.not_mem_nil

theorem inherits (h : t.IsTrail path (some name)) (ha : a ∈ path) : t.Inherits a name := by
  obtain ⟨b, hab, hb⟩ := h.ends a ha
  exact hab.tail hb

theorem step (h : t.IsTrail path (some name)) : t.IsTrail (path ++ [name]) (t.parentOf? name) where
  ends a ha := by
    rcases List.mem_append.mp ha with ha | ha
    · exact ⟨name, h.inherits ha, rfl⟩
    · rw [List.mem_singleton.mp ha]
      exact ⟨name, .refl t name, rfl⟩
  leads a l hl b hb := by
    rcases List.suffix_concat_iff.mp hl with hnil | ⟨_ | ⟨c, l'⟩, hl', hsuffix⟩
    · cases hnil
    · cases hl'
      rw [List.mem_singleton.mp hb]
      exact .refl t name
    · cases hl'
      rcases List.mem_append.mp (show b ∈ (a :: l') ++ [name] from hb) with hb | hb
      · exact h.leads a l' hsuffix b hb
      · rw [List.mem_singleton.mp hb]
        exact h.inherits (hsuffix.subset List.mem_cons_self)
  left l hl a ha b hb := by
    rcases List.suffix_concat_iff.mp hl with rfl | ⟨l, rfl, hsuffix⟩
    · exact absurd ha List.not_mem_nil
    · rcases List.mem_append.mp ha with ha | ha
      · rcases h.left l hsuffix a ha b hb with hb | hb
        · exact Or.inl (List.mem_append_left _ hb)
        · cases hb
          exact Or.inl (by simp)
      · rw [List.mem_singleton.mp ha] at hb
        exact Or.inr hb

/-- A path that comes back to one of its classes goes round a cycle from there on. -/
theorem cyclic (h : t.IsTrail path (some name)) (hmem : name ∈ path) : t.Cyclic name := by
  obtain ⟨b, hab, hb⟩ := h.ends name hmem
  exact Relation.TransGen.tail' hab hb

theorem mem_members_iff (h : t.IsTrail path (some name)) (hmem : name ∈ path) :
    a ∈ path.dropWhile (fun c => c != name) ↔ t.Inherits name a := by
  obtain ⟨l, hl⟩ := exists_dropWhile_eq_cons hmem
  have hsuffix := hl ▸ List.dropWhile_suffix (fun c => c != name) (l := path)
  rw [hl]
  refine ⟨h.leads name l hsuffix a, fun ha => ?_⟩
  induction ha with
  | refl => exact List.mem_cons_self
  | tail _ hp ih =>
    -- the members are left only for `name`, which is one of them
    refine (h.left _ hsuffix _ ih _ hp).elim id fun hb => ?_
    cases hb
    exact List.mem_cons_self

end IsTrail

/-- A walk either runs into a cycle, to which its whole path leads, or it passes no class of a
cycle that was not passed before. -/
theorem Walks.cyclic_or_settled (h : Walks t done path next path' ending) (hd : t.Closed done)
    (hpath : t.IsTrail path next) :
    (∃ members head, ending = .cycle members ∧ head ∈ path' ∧ t.Cyclic head ∧
      (∀ a, a ∈ members ↔ t.Inherits head a) ∧ ∀ a ∈ path', t.Inherits a head) ∨
    ((∃ broken, ending = .settled broken) ∧ ∀ a ∈ path', t.Cyclic a → a ∈ done) := by
  induction h with
  | root path =>
    refine Or.inr ⟨⟨_, rfl⟩, fun a ha hcyclic => ?_⟩
    obtain ⟨b, hab, hb⟩ := hpath.ends a ha
    obtain ⟨c, hc, -⟩ := Relation.TransGen.head'_iff.mp (hcyclic.of_inherits hab)
    rw [hb] at hc
    cases hc
  | @cycle path name hmem =>
    exact Or.inl ⟨_, name, rfl, hmem, hpath.cyclic hmem, fun _ => hpath.mem_members_iff hmem,
      fun _ => hpath.inherits⟩
  | @settled path name _ hname =>
    refine Or.inr ⟨⟨_, rfl⟩, fun a ha hcyclic => ?_⟩
    have hinherits := hpath.inherits ha
    have hmem : name ∈ done :=
      hname.resolve_right (by simp [(hcyclic.of_inherits hinherits).contains])
    exact hd.mem_of_inherits hmem (hcyclic.inherits_symm hinherits) hcyclic.contains
  | step _ _ _ _ ih => exact ih hpath.step

theorem Walks.members_subset {members : List String} (h : Walks t done path next path' ending)
    (hcycle : ending = .cycle members) : members ⊆ path' := by
  induction h with
  | root | settled => cases hcycle
  | cycle =>
    cases hcycle
    exact (List.dropWhile_suffix _).subset
  | step _ _ _ _ ih => exact ih hcycle

/-! ## What is reported -/

theorem reports_settle_settled (path : List String) (broken : Bool) :
    (t.settle path (.settled broken)).reports = [] := by
  cases broken <;> rfl

theorem reports_settle_cycle (path members : List String) :
    (t.settle path (.cycle members)).reports = (t.reportCycle members).reports := by
  rw [settle, Diagnosed.reports_bind, Diagnosed.reports_pure, List.append_nil]

theorem parentOf?_settle (path : List String) (ending : Walk) :
    (t.settle path ending).value.parentOf? = t.parentOf? := by
  funext a
  rw [parentOf?, parentOf?, find?, find?, classes_settle]

theorem contains_settle (path : List String) (ending : Walk) :
    (t.settle path ending).value.contains = t.contains := by
  funext a
  rw [contains, contains, find?, find?, classes_settle]

theorem Closed.settle (hd : t.Closed done) (path : List String) (ending : Walk) :
    (t.settle path ending).value.Closed done := by
  unfold Closed
  rw [parentOf?_settle, contains_settle]
  exact hd

/-! ## All walks -/

/-- A class of a cycle that is the first of its cycle in the table. -/
structure Heads (t : ClassTable) (c : ClassInfo) : Prop where
  cyclic : t.Cyclic c.name
  first : ∃ before behind, t.classes = before ++ c :: behind ∧
    ∀ d ∈ before, ¬t.Inherits c.name d.name

theorem Heads.of_classes_eq {c : ClassInfo} (h : t'.Heads c) (hclasses : t'.classes = t.classes) :
    t.Heads c := by
  have hparent : t'.parentOf? = t.parentOf? := by
    funext a
    rw [parentOf?, parentOf?, find?, find?, hclasses]
  refine ⟨cyclic_congr hparent ▸ h.cyclic, ?_⟩
  rw [← inherits_congr hparent, ← hclasses]
  exact h.first

/-- Some of these names, from the first on, lead to `a`, and none of them leads to `b`. -/
def EnteredBefore (t : ClassTable) (names : List String) (a b : String) : Prop :=
  ∃ first, first <+: names ∧ (∃ c ∈ first, t.Inherits c a) ∧ ∀ c ∈ first, ¬t.Inherits c b

theorem EnteredBefore.cons {names : List String} (h : t.EnteredBefore names a b)
    (hname : ¬t.Inherits name b) : t.EnteredBefore (name :: names) a b := by
  obtain ⟨first, hfirst, ⟨c, hc, hca⟩, hnot⟩ := h
  exact ⟨name :: first, List.cons_prefix_cons.mpr ⟨rfl, hfirst⟩,
    ⟨c, List.mem_cons_of_mem _ hc, hca⟩, List.forall_mem_cons.mpr ⟨hname, hnot⟩⟩

/-- Of two cycles, the one that is entered before does not lead to the other. -/
theorem EnteredBefore.not_inherits {names : List String} (h : t.EnteredBefore names a b) :
    ¬t.Inherits a b := by
  obtain ⟨first, -, ⟨c, hc, hca⟩, hnot⟩ := h
  exact fun hab => hnot c hc (hca.trans hab)

theorem enteredBefore_congr (h : t'.parentOf? = t.parentOf?) :
    t'.EnteredBefore = t.EnteredBefore := by
  unfold EnteredBefore
  rw [inherits_congr h]

/-- A cycle is reported at its head. -/
theorem exists_heads_settle {members : List String} {head : String} (hcyclic : t.Cyclic head)
    (hmembers : ∀ a, a ∈ members ↔ t.Inherits head a) (path : List String) :
    ∃ c, t.Heads c ∧ t.Inherits head c.name ∧
      (t.settle path (.cycle members)).reports = [cycleReport c] := by
  obtain ⟨c, before, behind, hclasses, hbefore, hmem, hreports⟩ :=
    exists_reports_reportCycle ⟨head, (hmembers head).mpr (.refl t head), hcyclic.contains⟩
  have hc := (hmembers c.name).mp hmem
  refine ⟨c, ⟨hcyclic.of_inherits hc, before, behind, hclasses, fun d hd hcd => ?_⟩, hc, ?_⟩
  · exact hbefore d hd ((hmembers d.name).mpr (hc.trans hcd))
  · rw [reports_settle_cycle, hreports]

/-- A walk passes whatever of the table its first class leads to. -/
theorem Walks.mem_of_inherits (h : Walks t done [] (some name) path ending) (hd : t.Closed done)
    (hname : name ∉ done) (hb : t.Cyclic b) (hab : t.Inherits name b) : b ∈ done ++ path := by
  have hc : t.contains name = true := by
    rcases Relation.ReflTransGen.cases_head hab with rfl | ⟨c, hc, -⟩
    · exact hb.contains
    · exact contains_of_parentOf? hc
  exact (hd.append h).mem_of_inherits (List.mem_append_right _ (h.start_mem hname hc)) hab
    hb.contains

/-- The walks report the cycles that were not passed before, each once and at its head, in the order
in which the names lead to them. -/
theorem exists_heads_walkAll : ∀ (names : List String) (t : ClassTable) (done : List String),
    t.Closed done → ∃ heads : List ClassInfo,
      (t.walkAll done names).reports = heads.map cycleReport ∧
      (∀ c ∈ heads, t.Heads c ∧ c.name ∉ done) ∧
      heads.Pairwise (fun c d => t.EnteredBefore names c.name d.name) ∧
      ∀ a ∈ names, t.Cyclic a → a ∈ done ∨ ∃ c ∈ heads, t.Inherits a c.name
  | [], _, _, _ => ⟨[], rfl, List.forall_mem_nil _, .nil, List.forall_mem_nil _⟩
  | name :: names, t, done, hd => by
    rcases walkAll_cons t done name names with ⟨hname, heq⟩ | ⟨hname, path, ending, hw, heq⟩
    · rw [heq]
      obtain ⟨heads, hreports, hheads, horder, hcover⟩ := exists_heads_walkAll names t done hd
      refine ⟨heads, hreports, hheads, horder.imp_of_mem fun _ hmem h => h.cons fun hnd => ?_,
        List.forall_mem_cons.mpr ⟨fun _ => Or.inl hname, hcover⟩⟩
      exact (hheads _ hmem).2 (hd.mem_of_inherits hname hnd (hheads _ hmem).1.cyclic.contains)
    · rw [heq, Diagnosed.reports_bind]
      have hclosed := hd.append hw
      obtain ⟨heads, hreports, hheads, horder, hcover⟩ :=
        exists_heads_walkAll names _ _ (hclosed.settle path ending)
      have hparent := parentOf?_settle (t := t) path ending
      rw [enteredBefore_congr hparent] at horder
      rw [inherits_congr hparent, cyclic_congr hparent] at hcover
      replace hheads : ∀ c ∈ heads, t.Heads c ∧ c.name ∉ done ++ path := fun c hc =>
        ⟨(hheads c hc).1.of_classes_eq (classes_settle path ending), (hheads c hc).2⟩
      -- the cycles that are found later are not those that `name` leads to
      have hlater : ∀ c ∈ heads, ¬t.Inherits name c.name := fun c hc h =>
        (hheads c hc).2 (hw.mem_of_inherits hd hname (hheads c hc).1.cyclic h)
      replace horder := horder.imp_of_mem fun _ hmem h => h.cons (hlater _ hmem)
      have hkept : ∀ c ∈ heads, t.Heads c ∧ c.name ∉ done := fun c hc =>
        ⟨(hheads c hc).1, fun hmem => (hheads c hc).2 (List.mem_append_left _ hmem)⟩
      have hstart : t.Cyclic name → name ∈ path :=
        fun hcyclic => hw.start_mem hname hcyclic.contains
      rcases hw.cyclic_or_settled hd (.nil _) with
        ⟨members, head, rfl, hhead, hcyclic, hmembers, hpath⟩ | ⟨⟨broken, rfl⟩, hpath⟩
      · obtain ⟨c, hc, hinherits, hcreports⟩ := exists_heads_settle hcyclic hmembers path
        have hnew : c.name ∉ done := fun hmem =>
          ((hw.path_subset.2 head hhead).resolve_left List.not_mem_nil).1
            (hd.mem_of_inherits hmem (hcyclic.inherits_symm hinherits) hcyclic.contains)
        have hlead : ∀ a ∈ path, t.Inherits a c.name := fun a ha => (hpath a ha).trans hinherits
        have hname := hw.start_mem_of_mem hhead
        refine ⟨c :: heads, ?_, List.forall_mem_cons.mpr ⟨⟨hc, hnew⟩, hkept⟩,
          List.pairwise_cons.mpr ⟨fun d hd => ⟨[name], ?_, ?_, ?_⟩, horder⟩,
          List.forall_mem_cons.mpr ⟨fun _ => ?_, fun a ha h => ?_⟩⟩
        · rw [hcreports, hreports, List.map_cons, List.singleton_append]
        · exact List.cons_prefix_cons.mpr ⟨rfl, List.nil_prefix⟩
        · exact ⟨name, List.mem_singleton_self name, hlead name hname⟩
        · exact List.forall_mem_singleton.mpr (hlater d hd)
        · exact Or.inr ⟨c, List.mem_cons_self, hlead name hname⟩
        · rcases hcover a ha h with hmem | ⟨d, hd, had⟩
          · exact (List.mem_append.mp hmem).imp_right
              fun hmem => ⟨c, List.mem_cons_self, hlead a hmem⟩
          · exact Or.inr ⟨d, List.mem_cons_of_mem _ hd, had⟩
      · refine ⟨heads, ?_, hkept, horder,
          List.forall_mem_cons.mpr ⟨fun hname => ?_, fun a ha h => ?_⟩⟩
        · rw [reports_settle_settled, List.nil_append, hreports]
        · exact Or.inl (hpath name (hstart hname) hname)
        · refine (hcover a ha h).imp_left fun hmem => ?_
          exact (List.mem_append.mp hmem).elim id fun hmem => hpath a hmem h

/-- Whatever the walks report is a cycle, at a class that does not lead to the root. -/
theorem reportsOnly_walkAll_cycles (hroot : object.parent = none) :
    ∀ (names : List String) (t : ClassTable) (done : List String),
      t.find? Names.object = some object → (∀ a ∈ t.unresolved, t.Stray a) →
        (t.walkAll done names).ReportsOnly fun d =>
          ∃ info ∈ t.classes, ¬t.WellRooted info.name ∧ d = cycleReport info
  | [], _, _, _, _ => Diagnosed.reportsOnly_pure _
  | name :: names, t, done, hobject, hu => by
    rcases walkAll_cons t done name names with ⟨-, heq⟩ | ⟨-, path, ending, hw, heq⟩
    · rw [heq]
      exact reportsOnly_walkAll_cycles hroot names t done hobject hu
    · rw [heq]
      have hclasses : (t.settle path ending).value.classes = t.classes := classes_settle _ _
      refine Diagnosed.ReportsOnly.bind ?_ fun d hd => ?_
      · cases ending with
        | settled broken =>
          rw [Diagnosed.ReportsOnly, reports_settle_settled]
          exact List.forall_mem_nil _
        | cycle members =>
          obtain ⟨info, before, behind, hclasses, -, hmem, hreports⟩ :=
            exists_reports_reportCycle (hw.exists_member rfl (by simp))
          rw [Diagnosed.ReportsOnly, reports_settle_cycle, hreports]
          refine List.forall_mem_singleton.mpr ⟨info, by simp [hclasses], ?_, rfl⟩
          refine hw.not_wellRooted hobject hroot (fun a ha => absurd ha List.not_mem_nil)
            (fun b hb => (hu b hb).2) nofun info.name (hw.members_subset rfl hmem)
      · have hobject' : (t.settle path ending).value.find? Names.object = some object := by
          rw [find?, hclasses]
          exact hobject
        have hu' : ∀ b ∈ (t.settle path ending).value.unresolved,
            (t.settle path ending).value.Stray b :=
          fun b hb => (stray_settle hobject hroot hw hu b hb).of_classes_eq hclasses
        obtain ⟨info, hinfo, hnot, rfl⟩ :=
          reportsOnly_walkAll_cycles hroot names _ _ hobject' hu' d hd
        rw [hclasses] at hinfo
        exact ⟨info, hinfo, fun hwell => hnot (hwell.of_classes_eq hclasses), rfl⟩

/-! ## Programs -/

/-- What is unresolved before the walks inherits from a class of values, or from nothing that is in
the table. -/
theorem mem_values_of_unresolved (ha : a ∈ (checkedIn p).value.unresolved)
    (hb : (checkedIn p).value.parentOf? a = some b) (hc : (checkedIn p).value.contains b = true) :
    b ∈ Names.values := by
  obtain ⟨info, hinfo, hparent⟩ := parentOf?_eq_some_iff.mp hb
  rcases mem_unresolved_checkedIn.mp ha with hdeclared | ⟨info', hinfo', hundefined, hname⟩
  · obtain ⟨i, c, haccepts, rfl, hillegal⟩ := mem_unresolved_declaredIn.mp hdeclared
    have hfind : (checkedIn p).value.find? c.name = some (c.info i) :=
      find?_checkedIn.mpr ⟨Or.inr ⟨i, c, haccepts, rfl⟩, rfl⟩
    cases hinfo.symm.trans hfind
    cases hparent
    rw [isIllegalParent, Bool.or_eq_true] at hillegal
    refine hillegal.elim (fun hmem => by simpa using hmem) fun hself => ?_
    have hself : c.parent = Names.selfType := by simpa using hself
    have hnot := contains_selfType_eq_false p
    rw [contains, find?_eq_find?_checkedIn, ← hself] at hnot
    exact absurd hc (Bool.eq_false_iff.mp hnot)
  · obtain ⟨-, parent, hparent', hnot⟩ := undefinedParent?_isSome.mp hundefined
    have hfind : (checkedIn p).value.find? a = some info' :=
      find?_checkedIn.mpr ⟨mem_classes_declaredIn.mp hinfo', hname⟩
    cases hinfo.symm.trans hfind
    cases hparent.symm.trans hparent'
    rw [contains_checkedIn, hnot] at hc
    cases hc

theorem mem_knownIn_of_mem_basic (ha : a ∈ Names.basic) : a ∈ knownIn p := by
  obtain ⟨info, hinfo, rfl⟩ := exists_mem_basic a ha
  exact mem_knownIn.mpr ⟨info, find?_checkedIn.mpr ⟨Or.inl hinfo, rfl⟩, Or.inl hinfo⟩

theorem closed_knownIn (p : Program) : (checkedIn p).value.Closed (knownIn p) := by
  have hvalues : ∀ a ∈ Names.values, a ∈ Names.basic := by decide
  intro a ha b hb hc
  by_cases hu : a ∈ (checkedIn p).value.unresolved
  · exact mem_knownIn_of_mem_basic (hvalues b (mem_values_of_unresolved hu hb hc))
  · exact ((settled_checkedIn p).parent a ha hu b hb).1

theorem IsChain.not_cyclic {l : List ClassInfo} (h : t.IsChain a l) : ¬t.Cyclic a := by
  induction h with
  | root hfind hp =>
    intro hcyclic
    obtain ⟨b, hb, -⟩ := Relation.TransGen.head'_iff.mp hcyclic
    rw [parentOf?_eq_of_find? hfind, hp] at hb
    cases hb
  | child hfind hp _ ih =>
    intro hcyclic
    exact ih (hcyclic.of_inherits (.head (parentOf?_eq_some_iff.mpr ⟨_, hfind, hp⟩) (.refl t _)))

/-- No cycle goes through a class that is passed from the start. -/
theorem not_cyclic_of_mem_knownIn (ha : a ∈ knownIn p) : ¬(checkedIn p).value.Cyclic a := by
  have hresolved : ∀ a ∈ knownIn p, a ∉ (checkedIn p).value.unresolved →
      ¬(checkedIn p).value.Cyclic a := by
    intro a ha hu
    obtain ⟨l, hl⟩ := (settled_checkedIn p).chain a ha hu
    exact hl.not_cyclic
  by_cases hu : a ∈ (checkedIn p).value.unresolved
  · intro hcyclic
    obtain ⟨b, hb, -⟩ := Relation.TransGen.head'_iff.mp hcyclic
    have hcyclic' := hcyclic.of_inherits (.head hb (.refl _ b))
    have hreserved : ∀ a ∈ Names.values, a ∈ Names.basic ∧ isReserved a = true := by decide
    obtain ⟨hbasic, hb⟩ := hreserved b (mem_values_of_unresolved hu hb hcyclic'.contains)
    refine hresolved b (mem_knownIn_of_mem_basic hbasic) (fun hmem => ?_) hcyclic'
    obtain ⟨i, c, hc, rfl⟩ := accepts_of_mem_unresolved hmem
    rw [hc.2.1] at hb
    cases hb
  · exact hresolved a ha hu

/-- Each cycle is reported once, at its head, in the order in which the classes lead to them. -/
theorem exists_heads_findCycles (p : Program) : ∃ heads : List ClassInfo,
    (checkedIn p).value.findCycles.reports = heads.map cycleReport ∧
      (∀ c ∈ heads, (checkedIn p).value.Heads c) ∧
      heads.Pairwise (fun c d => (checkedIn p).value.EnteredBefore
        ((checkedIn p).value.classes.map ClassInfo.name) c.name d.name) ∧
      ∀ a, (checkedIn p).value.Cyclic a → ∃ c ∈ heads, (checkedIn p).value.Inherits a c.name := by
  obtain ⟨heads, hreports, hheads, horder, hcover⟩ := exists_heads_walkAll
    ((checkedIn p).value.classes.map ClassInfo.name) _ _ (closed_knownIn p)
  refine ⟨heads, hreports, fun c hc => (hheads c hc).1, horder, fun a ha => ?_⟩
  exact (hcover a (contains_iff_mem.mp ha.contains) ha).resolve_left
    fun hmem => not_cyclic_of_mem_knownIn hmem ha

/-- The walks report as many cycles as there are. -/
theorem exists_cycleHeads_findCycles (p : Program) : ∃ heads : List String,
    (checkedIn p).value.CycleHeads heads ∧
      heads.length = (checkedIn p).value.findCycles.reports.length := by
  obtain ⟨heads, hreports, hheads, horder, hcover⟩ := exists_heads_findCycles p
  refine ⟨heads.map ClassInfo.name, ⟨?_, ?_, fun a ha => ?_⟩, ?_⟩
  · exact List.forall_mem_map.mpr fun c hc => (hheads c hc).cyclic
  · exact List.pairwise_map.mpr (horder.imp fun h => h.not_inherits)
  · obtain ⟨c, hc, hac⟩ := hcover a ha
    exact ⟨c.name, List.mem_map_of_mem hc, hac⟩
  · rw [hreports, List.length_map, List.length_map]

theorem reportsOnly_findCycles (p : Program) : (checkedIn p).value.findCycles.ReportsOnly fun d =>
    ∃ info ∈ (checkedIn p).value.classes, ¬(checkedIn p).value.WellRooted info.name ∧
      d = cycleReport info := by
  obtain ⟨object, hobject, hroot⟩ := find?_object_checkedIn p
  exact reportsOnly_walkAll_cycles hroot _ _ _ hobject (stray_checkedIn p)

end ClassTable

end Cool
