import Cool.Proofs.Hierarchy.Chain

/-!
# The order in which classes are visited

The features of a class are checked against those of its ancestors, so the ancestors have to be
visited before. The resolved classes are listed chain by chain, every chain from its far end.

* `ParentsFirst` : every class of a list is new, and its parent comes before it;
* `mem_resolvedOrder_iff` : the resolved classes are listed, and no others;
* `parentsFirst_resolvedOrder` : every one behind its parent.
-/

namespace Cool

namespace ClassTable

variable {t : ClassTable} {a b : String} {l : List ClassInfo} {done order : List String}

/-- The classes of a list come behind those of `done`, each once and behind its parent. -/
inductive ParentsFirst (t : ClassTable) : List String → List String → Prop
  | nil {done : List String} : ParentsFirst t done []
  | cons {done order : List String} {a : String} (hnew : a ∉ done)
    (hp : ∀ b, t.parentOf? a = some b → b ∈ done) (h : ParentsFirst t (a :: done) order) :
    ParentsFirst t done (a :: order)

theorem parentsFirst_cons_iff : t.ParentsFirst done (a :: order) ↔
    a ∉ done ∧ (∀ b ∈ t.parentOf? a, b ∈ done) ∧ t.ParentsFirst (a :: done) order := by
  constructor
  · rintro (_ | ⟨hnew, hp, h⟩)
    exact ⟨hnew, hp, h⟩
  · rintro ⟨hnew, hp, h⟩
    exact .cons hnew hp h

instance decidableParentsFirst (t : ClassTable) :
    ∀ done order, Decidable (t.ParentsFirst done order)
  | _, [] => .isTrue .nil
  | done, a :: order =>
    have := decidableParentsFirst t (a :: done) order
    decidable_of_iff _ parentsFirst_cons_iff.symm

namespace ParentsFirst

theorem snoc (h : t.ParentsFirst done order) (hdone : a ∉ done) (horder : a ∉ order)
    (hp : ∀ b, t.parentOf? a = some b → b ∈ done ∨ b ∈ order) :
    t.ParentsFirst done (order ++ [a]) := by
  induction h with
  | nil => exact .cons hdone (fun b hb => (hp b hb).resolve_right List.not_mem_nil) .nil
  | @cons done order c hnew hpc _ ih =>
    rw [List.mem_cons, not_or] at horder
    refine .cons hnew hpc (ih ?_ horder.2 fun b hb => ?_)
    · rw [List.mem_cons, not_or]
      exact ⟨horder.1, hdone⟩
    · have hmem := hp b hb
      rw [List.mem_cons] at hmem ⊢
      tauto

/-- No class is listed twice. -/
theorem not_mem_done (h : t.ParentsFirst done order) (ha : a ∈ order) : a ∉ done := by
  induction h with
  | nil => cases ha
  | cons hnew _ _ ih =>
    rcases List.mem_cons.mp ha with rfl | ha
    · exact hnew
    · exact fun hmem => ih ha (List.mem_cons_of_mem _ hmem)

end ParentsFirst

/-- Where parents are in a set with their children, so are all ancestors. -/
theorem Inherits.mem_of_closed (h : t.Inherits a b)
    (hclosed : ∀ a ∈ done, ∀ b, t.parentOf? a = some b → b ∈ done) (ha : a ∈ done) :
    b ∈ done := by
  induction h with
  | refl => exact ha
  | tail _ hp ih => exact hclosed _ ih _ hp

/-! ## Chains -/

theorem mem_addChain : ∀ (l : List ClassInfo) (order : List String),
    a ∈ addChain order l ↔ a ∈ order ∨ a ∈ l.map ClassInfo.name
  | [], order => by simp [addChain]
  | c :: l, order => by
    have hstep : addChain order (c :: l) =
        addChain (if order.contains c.name then order else order ++ [c.name]) l := rfl
    rw [hstep, mem_addChain l, List.map_cons, List.mem_cons]
    split_ifs with hc
    · have hmem : c.name ∈ order := by simpa using hc
      constructor
      · tauto
      · rintro (h | rfl | h)
        · exact Or.inl h
        · exact Or.inl hmem
        · exact Or.inr h
    · rw [List.mem_append, List.mem_singleton, or_assoc]

theorem addChain_concat (order : List String) (l : List ClassInfo) (c : ClassInfo) :
    addChain order (l ++ [c]) =
      if (addChain order l).contains c.name then addChain order l
      else addChain order l ++ [c.name] := by
  rw [addChain, List.foldl_append]
  rfl

/-- A chain is added from its far end, so that every class finds its parent before it. -/
theorem ParentsFirst.addChain (h : t.IsChain a l) (ho : t.ParentsFirst [] order) :
    t.ParentsFirst [] (addChain order l.reverse) := by
  induction h with
  | root h hp =>
    have hnone := parentOf?_eq_of_find? h
    rw [hp] at hnone
    rw [List.reverse_singleton, ← List.nil_append [_], addChain_concat]
    split_ifs with hc
    · exact ho
    · refine ParentsFirst.snoc ho List.not_mem_nil (by simpa using hc) fun b hb => ?_
      rw [name_of_find? h, hnone] at hb
      cases hb
  | child h hp hl ih =>
    rw [List.reverse_cons, addChain_concat]
    split_ifs with hc
    · exact ih
    · refine ih.snoc List.not_mem_nil (by simpa using hc) fun b hb => Or.inr ?_
      rw [name_of_find? h, parentOf?_eq_of_find? h, hp] at hb
      cases hb
      rw [mem_addChain, List.map_reverse, List.mem_reverse]
      exact Or.inr (hl.inherits_iff.mp (.refl t _))

/-! ## All classes -/

/-- The order after some of the classes. -/
theorem parentsFirst_foldl (hs : t.Sound) :
    ∀ (cs : List ClassInfo) (order : List String), t.ParentsFirst [] order →
      t.ParentsFirst [] (cs.foldl (fun order c =>
        if t.isResolved c.name then addChain order (t.ancestors c.name).reverse else order) order)
  | [], _, h => h
  | c :: cs, order, h => by
    rw [List.foldl_cons]
    refine parentsFirst_foldl hs cs _ ?_
    split_ifs with hr
    · obtain ⟨l, hl⟩ := hs.chain c.name hr
      rw [ancestors_eq_of_isChain hl]
      exact h.addChain hl
    · exact h

theorem parentsFirst_resolvedOrder (hs : t.Sound) : t.ParentsFirst [] t.resolvedOrder :=
  parentsFirst_foldl hs t.classes [] .nil

theorem mem_foldl_addChain (hs : t.Sound) :
    ∀ (cs : List ClassInfo) (order : List String),
      a ∈ cs.foldl (fun order c =>
        if t.isResolved c.name then addChain order (t.ancestors c.name).reverse else order) order ↔
        a ∈ order ∨ ∃ c ∈ cs, t.isResolved c.name = true ∧ t.Inherits c.name a
  | [], _ => by simp
  | c :: cs, order => by
    rw [List.foldl_cons, mem_foldl_addChain hs cs, List.exists_mem_cons_iff, ← or_assoc]
    refine or_congr_left ?_
    split_ifs with hr
    · rw [mem_addChain, List.map_reverse, List.mem_reverse, hs.mem_ancestors_iff hr, hr]
      simp
    · simp [hr]

theorem mem_resolvedOrder_iff (hs : t.Sound) :
    a ∈ t.resolvedOrder ↔ t.isResolved a = true := by
  rw [resolvedOrder, mem_foldl_addChain hs]
  constructor
  · rintro (h | ⟨c, -, hr, h⟩)
    · cases h
    · exact hs.isResolved_of_inherits hr h
  · intro hr
    obtain ⟨info, hinfo⟩ := contains_iff.mp (contains_of_isResolved hr)
    have hname := name_of_find? hinfo
    refine Or.inr ⟨info, mem_of_find? hinfo, ?_⟩
    rw [hname]
    exact ⟨hr, .refl t a⟩

end ClassTable

end Cool
