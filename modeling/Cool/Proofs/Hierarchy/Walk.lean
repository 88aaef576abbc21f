import Cool.Proofs.Hierarchy.Declared
import Mathlib.Data.List.TakeWhile

/-!
# Walking along the parents

A walk adds classes that no former walk has passed to its path, so its steps are at most as many
as there are classes, and its allowance is never used up. What is known about the classes that were
passed is kept by every walk: those that are not unresolved have a chain, and their parents are
among them.

* `Walks` : the steps of a walk, without an allowance; `walks_walk` joins it to `walk`;
* `Settled` : what is known about the classes that were passed;
* `Walks.sound` : the path of a walk that ends well may be added to these;
* `exists_settled_walkAll` : after all walks, every class is settled;
* `unresolved_walkAll_eq_nil` : if no walk reports a cycle, no class becomes unresolved.
-/

namespace Cool

namespace ClassTable

variable {t t' : ClassTable} {a b name : String} {done path path' : List String}
  {next : Option String} {ending : Walk} {l : List ClassInfo}

/-! ## The steps of a walk -/

/-- A walk goes on from `next` behind `path`, and ends with the path `path'`. -/
inductive Walks (t : ClassTable) (done : List String) :
    List String → Option String → List String → Walk → Prop
  | root (path : List String) : Walks t done path none path (.settled false)
  | cycle {path : List String} {name : String} (h : name ∈ path) :
    Walks t done path (some name) path (.cycle (path.dropWhile fun c => c != name))
  | settled {path : List String} {name : String} (h : name ∉ path)
    (hd : name ∈ done ∨ t.contains name = false) :
    Walks t done path (some name) path (.settled (t.unresolved.contains name))
  | step {path path' : List String} {name : String} {ending : Walk} (h : name ∉ path)
    (hd : name ∉ done) (hc : t.contains name = true)
    (hrest : Walks t done (path ++ [name]) (t.parentOf? name) path' ending) :
    Walks t done path (some name) path' ending

/-- An allowance of one more than the classes that are not on the path is enough. -/
theorem walks_walk (done : List String) :
    ∀ (n : Nat) (path : List String) (next : Option String), path.Nodup →
      (∀ a ∈ path, t.contains a = true) → t.classes.length < n + path.length →
        Walks t done path next (t.walk done n path next).1 (t.walk done n path next).2
  | _, path, none, _, _, _ => by
    simp only [walk]
    exact .root path
  | 0, path, some name, hnodup, hcontains, hlen => by
    have hsub : path ⊆ t.classes.map ClassInfo.name :=
      fun a ha => contains_iff_mem.mp (hcontains a ha)
    have hle := hnodup.length_le_of_subset hsub
    rw [List.length_map] at hle
    omega
  | n + 1, path, some name, hnodup, hcontains, hlen => by
    rw [walk]
    split_ifs with hmem hd
    · exact .cycle (by simpa using hmem)
    · exact .settled (by simpa using hmem) (by simpa using hd)
    · simp only [List.contains_eq_mem, Bool.or_eq_true, decide_eq_true_eq, Bool.not_eq_true',
        not_or, Bool.not_eq_false] at hmem hd
      refine .step hmem hd.1 hd.2 (walks_walk done n _ _ ?_ ?_ ?_)
      · exact List.nodup_append.mpr ⟨hnodup, List.nodup_singleton _, by
          rintro c hc _ hb rfl
          exact hmem (List.mem_singleton.mp hb ▸ hc)⟩
      · simpa [or_imp, forall_and] using ⟨hcontains, hd.2⟩
      · rw [List.length_append, List.length_singleton]
        omega

/-- A walk keeps its path, and adds only classes that were not passed before. -/
theorem Walks.path_subset (h : Walks t done path next path' ending) :
    path ⊆ path' ∧ ∀ a ∈ path', a ∈ path ∨ a ∉ done ∧ t.contains a = true := by
  induction h with
  | root | cycle | settled => exact ⟨List.Subset.refl _, fun a ha => Or.inl ha⟩
  | step h hd hc _ ih =>
    refine ⟨fun a ha => ih.1 (List.mem_append_left _ ha), fun a ha => ?_⟩
    rcases ih.2 a ha with ha | ha
    · rcases List.mem_append.mp ha with ha | ha
      · exact Or.inl ha
      · rw [List.mem_singleton.mp ha]
        exact Or.inr ⟨hd, hc⟩
    · exact Or.inr ha

/-- A walk that starts at a class that was not passed passes it. -/
theorem Walks.start_mem (h : Walks t done [] (some name) path' ending) (hd : name ∉ done)
    (hc : t.contains name = true) : name ∈ path' := by
  cases h with
  | cycle h => exact absurd h List.not_mem_nil
  | settled _ hd' =>
    rw [hc] at hd'
    exact absurd (hd'.resolve_right (by simp)) hd
  | step _ _ _ hrest => exact hrest.path_subset.1 (by simp)

theorem Walks.start_mem_of_mem (h : Walks t done [] (some name) path' ending) (hb : b ∈ path') :
    name ∈ path' := by
  cases h with
  | cycle | settled => exact absurd hb List.not_mem_nil
  | step _ _ _ hrest => exact hrest.path_subset.1 (by simp)

/-! ## What is known about the classes that were passed -/

structure Settled (t : ClassTable) (done : List String) : Prop where
  unresolved : ∀ a ∈ t.unresolved, a ∈ done
  /-- Only an unresolved class can lack its parent. -/
  closed : ∀ a b, a ∉ t.unresolved → t.parentOf? a = some b → t.contains b = true
  chain : ∀ a ∈ done, a ∉ t.unresolved → ∃ l, t.IsChain a l
  parent : ∀ a ∈ done, a ∉ t.unresolved → ∀ b, t.parentOf? a = some b →
    b ∈ done ∧ b ∉ t.unresolved

/-- A class whose parent has a chain, if it has a parent, has one. -/
theorem exists_isChain (hc : t.contains a = true)
    (hp : ∀ b, t.parentOf? a = some b → ∃ l, t.IsChain b l) : ∃ l, t.IsChain a l := by
  obtain ⟨info, hinfo⟩ := contains_iff.mp hc
  cases hparent : info.parent with
  | none => exact ⟨_, .root hinfo hparent⟩
  | some b =>
    obtain ⟨l, hl⟩ := hp b (parentOf?_eq_some_iff.mpr ⟨info, hinfo, hparent⟩)
    exact ⟨_, .child hinfo hparent hl⟩

theorem IsChain.congr (hclasses : t'.classes = t.classes) (h : t.IsChain a l) :
    t'.IsChain a l := by
  have hfind : ∀ a, t'.find? a = t.find? a := fun a => by rw [find?, find?, hclasses]
  induction h with
  | root h hp => exact .root ((hfind _).trans h) hp
  | child h hp _ ih => exact .child ((hfind _).trans h) hp ih

/-- Where a walk ends well, its path consists of classes with a chain, and so does `next`. -/
theorem Walks.sound (h : Walks t done path next path' ending) (hs : Settled t done)
    (hgood : ending = .settled false) (hnext : ∀ a, next = some a → t.contains a = true) :
    (∀ a, next = some a →
      (∃ l, t.IsChain a l) ∧ (a ∈ done ∨ a ∈ path') ∧ a ∉ t.unresolved) ∧
      ∀ a ∈ path', a ∈ path ∨ (∃ l, t.IsChain a l) ∧
        ∀ b, t.parentOf? a = some b → (b ∈ done ∨ b ∈ path') ∧ b ∉ t.unresolved := by
  induction h with
  | root path => exact ⟨nofun, fun a ha => Or.inl ha⟩
  | cycle => cases hgood
  | @settled path name h hd =>
    have hmem : name ∈ done := hd.resolve_right (by simp [hnext name rfl])
    have hunresolved : name ∉ t.unresolved := by simpa using hgood
    refine ⟨fun a ha => ?_, fun a ha => Or.inl ha⟩
    cases ha
    exact ⟨hs.chain name hmem hunresolved, Or.inl hmem, hunresolved⟩
  | @step path path' name ending h hd hc hrest ih =>
    have hunresolved : name ∉ t.unresolved := fun hmem => hd (hs.unresolved name hmem)
    obtain ⟨hparent, hpath⟩ := ih hgood fun b hb => hs.closed name b hunresolved hb
    have hchain : ∃ l, t.IsChain name l := exists_isChain hc fun b hb => (hparent b hb).1
    have hname : name ∈ path' := hrest.path_subset.1 (by simp)
    refine ⟨fun a ha => ?_, fun a ha => ?_⟩
    · cases ha
      exact ⟨hchain, Or.inr hname, hunresolved⟩
    · rcases hpath a ha with ha | ha
      · rcases List.mem_append.mp ha with ha | ha
        · exact Or.inl ha
        · rw [List.mem_singleton.mp ha]
          exact Or.inr ⟨hchain, fun b hb => (hparent b hb).2⟩
      · exact Or.inr ha

/-- The path of a walk that ended badly becomes unresolved as a whole. -/
theorem Settled.markUnresolved (hs : Settled t done) (h : Walks t done [] next path' ending) :
    Settled (t.markUnresolved path') (done ++ path') where
  unresolved a ha := by
    rw [unresolved_markUnresolved, List.mem_append] at ha
    exact List.mem_append.mpr (ha.imp_left (hs.unresolved a))
  closed a b ha hb := hs.closed a b (fun h => ha (List.mem_append_left _ h)) hb
  chain a ha hn := by
    rw [unresolved_markUnresolved, List.mem_append, not_or] at hn
    obtain ⟨l, hl⟩ := hs.chain a ((List.mem_append.mp ha).resolve_right hn.2) hn.1
    exact ⟨l, hl.congr (classes_markUnresolved path')⟩
  parent a ha hn b hb := by
    rw [unresolved_markUnresolved, List.mem_append, not_or] at hn
    obtain ⟨hbd, hbn⟩ := hs.parent a ((List.mem_append.mp ha).resolve_right hn.2) hn.1 b hb
    refine ⟨List.mem_append_left _ hbd, ?_⟩
    rw [unresolved_markUnresolved, List.mem_append, not_or]
    refine ⟨hbn, fun hmem => ?_⟩
    exact ((h.path_subset.2 b hmem).resolve_left List.not_mem_nil).1 hbd

theorem Settled.append (hs : Settled t done)
    (h : Walks t done [] next path' (.settled false))
    (hnext : ∀ a, next = some a → t.contains a = true) : Settled t (done ++ path') := by
  have hpath := fun a ha => ((h.sound hs rfl hnext).2 a ha).resolve_left List.not_mem_nil
  refine ⟨fun a ha => List.mem_append_left _ (hs.unresolved a ha), hs.closed, ?_, ?_⟩
  · intro a ha hn
    rcases List.mem_append.mp ha with ha | ha
    · exact hs.chain a ha hn
    · exact (hpath a ha).1
  · intro a ha hn b hb
    rw [List.mem_append]
    rcases List.mem_append.mp ha with ha | ha
    · exact (hs.parent a ha hn b hb).imp_left Or.inl
    · exact (hpath a ha).2 b hb

/-! ## All walks -/

/-- A walk from a class of the table settles its path, whatever its end. -/
theorem Settled.settle (hs : Settled t done) (h : Walks t done [] (some name) path' ending)
    (hc : t.contains name = true) : Settled (t.settle path' ending).value (done ++ path') := by
  cases ending with
  | settled broken =>
    cases broken with
    | false => exact hs.append h (fun a ha => by cases ha; exact hc)
    | true => exact hs.markUnresolved h
  | cycle members => exact hs.markUnresolved h

theorem classes_settle (path : List String) (ending : Walk) :
    (t.settle path ending).value.classes = t.classes := by
  cases ending with
  | settled broken => cases broken <;> rfl
  | cycle members => rfl

theorem mem_unresolved_settle (h : a ∈ (t.settle path ending).value.unresolved) :
    a ∈ t.unresolved ∨ a ∈ path := by
  cases ending with
  | settled broken =>
    cases broken with
    | false => exact Or.inl h
    | true => exact List.mem_append.mp h
  | cycle members => exact List.mem_append.mp h

theorem unresolved_subset_settle (path : List String) (ending : Walk) :
    t.unresolved ⊆ (t.settle path ending).value.unresolved := by
  cases ending with
  | settled broken =>
    cases broken with
    | false => exact List.Subset.refl _
    | true => exact List.subset_append_left _ _
  | cycle members => exact List.subset_append_left _ _

/-- A name that was passed is left out, and another is walked from. -/
theorem walkAll_cons (t : ClassTable) (done : List String) (name : String) (names : List String) :
    name ∈ done ∧ t.walkAll done (name :: names) = t.walkAll done names ∨
      name ∉ done ∧ ∃ path ending, Walks t done [] (some name) path ending ∧
        t.walkAll done (name :: names) =
          t.settle path ending >>= fun t => t.walkAll (done ++ path) names := by
  rw [walkAll]
  split_ifs with hd
  · exact Or.inl ⟨by simpa using hd, rfl⟩
  · refine Or.inr ⟨by simpa using hd, _, _, ?_, rfl⟩
    exact walks_walk done (t.classes.length + 1) [] (some name) List.nodup_nil (by simp) (by simp)

/-- What holds of a table with the classes passed so far, before and behind every walk. -/
theorem exists_settled_walkAll :
    ∀ (names : List String) (t : ClassTable) (done : List String), Settled t done →
      (∀ a ∈ names, t.contains a = true) →
        ∃ done', Settled (t.walkAll done names).value done' ∧ done ⊆ done' ∧ names ⊆ done' ∧
          (t.walkAll done names).value.classes = t.classes ∧
          (∀ a ∈ done, a ∈ (t.walkAll done names).value.unresolved → a ∈ t.unresolved) ∧
          t.unresolved ⊆ (t.walkAll done names).value.unresolved
  | [], t, done, hs, _ =>
    ⟨done, hs, List.Subset.refl _, List.nil_subset _, rfl, fun _ _ h => h, List.Subset.refl _⟩
  | name :: names, t, done, hs, hnames => by
    obtain ⟨hc, hnames⟩ := List.forall_mem_cons.mp hnames
    rcases walkAll_cons t done name names with ⟨hd, heq⟩ | ⟨hd, path, ending, hw, heq⟩
    · rw [heq]
      obtain ⟨done', hs', hsub, hcover, hrest⟩ := exists_settled_walkAll names t done hs hnames
      exact ⟨done', hs', hsub, List.cons_subset.mpr ⟨hsub hd, hcover⟩, hrest⟩
    · rw [heq, Diagnosed.value_bind]
      have hclasses : (t.settle path ending).value.classes = t.classes := classes_settle _ _
      obtain ⟨done', hs', hsub, hcover, hclasses', hkept, hgrow⟩ :=
        exists_settled_walkAll names _ _ (hs.settle hw hc) fun a ha => by
          rw [contains_iff_mem, hclasses, ← contains_iff_mem]
          exact hnames a ha
      refine ⟨done', hs', fun a ha => hsub (List.mem_append_left _ ha), ?_,
        hclasses'.trans hclasses, fun a ha h => ?_,
        List.Subset.trans (unresolved_subset_settle _ _) hgrow⟩
      · exact List.cons_subset.mpr
          ⟨hsub (List.mem_append_right _ (hw.start_mem hd hc)), hcover⟩
      · refine (mem_unresolved_settle (hkept a (List.mem_append_left _ ha) h)).resolve_right ?_
        exact fun hmem => ((hw.path_subset.2 a hmem).resolve_left List.not_mem_nil).1 ha

/-! ## Walks without a report -/

theorem Walks.exists_unresolved (h : Walks t done path next path' ending)
    (hbad : ending = .settled true) : ∃ a, a ∈ t.unresolved := by
  induction h with
  | root | cycle => cases hbad
  | @settled _ name _ _ => exact ⟨name, by simpa using hbad⟩
  | step _ _ _ _ ih => exact ih hbad

/-- The cycle that a path runs into starts with the class that the path comes back to. -/
theorem exists_dropWhile_eq_cons {path : List String} (h : name ∈ path) :
    ∃ l, path.dropWhile (fun c => c != name) = name :: l := by
  induction path with
  | nil => exact absurd h List.not_mem_nil
  | cons a path ih =>
    by_cases ha : a = name
    · exact ⟨path, by simp [ha]⟩
    · obtain ⟨l, hl⟩ := ih ((List.mem_cons.mp h).resolve_left (Ne.symm ha))
      exact ⟨l, by simp [ha, hl]⟩

theorem Walks.exists_member {members : List String} (h : Walks t done path next path' ending)
    (hcycle : ending = .cycle members) (hpath : ∀ a ∈ path, t.contains a = true) :
    ∃ a ∈ members, t.contains a = true := by
  induction h with
  | root | settled => cases hcycle
  | @cycle path name h =>
    cases hcycle
    obtain ⟨l, hl⟩ := exists_dropWhile_eq_cons h
    exact ⟨name, hl ▸ List.mem_cons_self, hpath name h⟩
  | step _ _ hc _ ih =>
    refine ih hcycle fun a ha => ?_
    rcases List.mem_append.mp ha with ha | ha
    · exact hpath a ha
    · rw [List.mem_singleton.mp ha]
      exact hc

/-- The report of a cycle at a class. -/
def cycleReport (info : ClassInfo) : Diagnostic :=
  .located (.structural (.inheritanceCycle info.name)) info.file info.span

/-- A cycle of classes of the table is reported at the first of them. -/
theorem exists_reports_reportCycle {members : List String}
    (h : ∃ a ∈ members, t.contains a = true) :
    ∃ info before behind, t.classes = before ++ info :: behind ∧
      (∀ c ∈ before, c.name ∉ members) ∧ info.name ∈ members ∧
      (t.reportCycle members).reports = [cycleReport info] := by
  obtain ⟨a, ha, hc⟩ := h
  rw [contains_iff_mem, List.mem_map] at hc
  obtain ⟨info, hinfo, rfl⟩ := hc
  have hsome : (t.classes.find? fun c => members.contains c.name).isSome = true :=
    List.find?_isSome.mpr ⟨info, hinfo, by simpa using ha⟩
  obtain ⟨first, hfirst⟩ := Option.isSome_iff_exists.mp hsome
  obtain ⟨hmem, before, behind, hclasses, hbefore⟩ := List.find?_eq_some_iff_append.mp hfirst
  refine ⟨first, before, behind, hclasses, fun c hc => ?_, by simpa using hmem, ?_⟩
  · simpa using hbefore c hc
  · rw [reportCycle, hfirst]
    rfl

theorem unresolved_walkAll_eq_nil :
    ∀ (names : List String) (t : ClassTable) (done : List String), t.unresolved = [] →
      (t.walkAll done names).reports = [] → (t.walkAll done names).value.unresolved = []
  | [], _, _, h, _ => h
  | name :: names, t, done, h, hnil => by
    rcases walkAll_cons t done name names with ⟨-, heq⟩ | ⟨-, path, ending, hw, heq⟩
    · rw [heq] at hnil ⊢
      exact unresolved_walkAll_eq_nil names t done h hnil
    · rw [heq, Diagnosed.reports_bind, List.append_eq_nil_iff] at hnil
      rw [heq, Diagnosed.value_bind]
      refine unresolved_walkAll_eq_nil names _ _ ?_ hnil.2
      cases ending with
      | settled broken =>
        cases broken with
        | false => exact h
        | true =>
          obtain ⟨a, ha⟩ := hw.exists_unresolved rfl
          rw [h] at ha
          cases ha
      | cycle members =>
        obtain ⟨info, -, -, -, -, -, hreports⟩ :=
          exists_reports_reportCycle (hw.exists_member rfl (by simp))
        simp [settle, hreports] at hnil

end ClassTable

end Cool
