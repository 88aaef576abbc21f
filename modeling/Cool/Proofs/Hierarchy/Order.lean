import Cool.Conformance
import Cool.Proofs.Hierarchy.Chain
import Cool.Proofs.Typing.World

/-!
# Conformance and joins of tables

On resolved classes the two questions of the table are those of the order: a class conforms to
those that it inherits from, and the first class of one chain that is in the other is the least
that both inherit from, because the chains stay together from where they meet.

* `any_ancestors_iff`, `exists_meeting` : the two on chains;
* `conforms_of_contains`, `join_of_contains` : the two on any classes of the table;
* `conforms_of_isResolved`, `Sound.exists_join` : the two on resolved classes;
* `conforms_iff`, `join_iff` : the two in a table all of whose classes are resolved.
-/

namespace Cool

namespace ClassTable

variable {t : ClassTable} {f : FeatureTable} {a b enclosing : String} {sub sup τ : Ty}

theorem Sound.any_ancestors_iff (hs : t.Sound) (ha : t.isResolved a = true) :
    ((t.ancestors a).any fun c => c.name == b) = true ↔ t.Inherits a b := by
  rw [← hs.mem_ancestors_iff ha]
  simp [List.any_eq_true]

/-- Two chains that end at `Object` meet, and the class where they do is the least of those on
both. -/
theorem Sound.exists_meeting (hs : t.Sound) (ha : t.isResolved a = true)
    (hb : t.isResolved b = true) :
    ∃ c, meeting? (t.ancestors a) (t.ancestors b) = some c ∧ t.Inherits a c ∧ t.Inherits b c ∧
      ∀ d, t.Inherits a d → t.Inherits b d → t.Inherits c d := by
  obtain ⟨l, hl⟩ := hs.chain b hb
  have hmem : ∀ {d}, ((t.ancestors a).any fun c => c.name == d) = true ↔ t.Inherits a d :=
    hs.any_ancestors_iff ha
  rw [meeting?, ancestors_eq_of_isChain hl]
  have hsome : (l.find? fun c => (t.ancestors a).any fun d => d.name == c.name).isSome = true := by
    obtain ⟨object, hobject, hname⟩ :=
      List.mem_map.mp (hl.inherits_iff.mp (hs.inherits_object hb))
    refine List.find?_isSome.mpr ⟨object, hobject, hmem.mpr ?_⟩
    rw [hname]
    exact hs.inherits_object ha
  obtain ⟨info, hinfo⟩ := Option.isSome_iff_exists.mp hsome
  obtain ⟨hin, above, below, hsplit, hfirst⟩ := List.find?_eq_some_iff_append.mp hinfo
  refine ⟨info.name, by rw [hinfo]; rfl, hmem.mp hin, ?_, fun d had hbd => ?_⟩
  · rw [hl.inherits_iff, hsplit]
    simp
  · have hbelow : t.IsChain info.name (info :: below) := (hsplit ▸ hl).of_append
    rw [hl.inherits_iff, hsplit, List.map_append, List.mem_append] at hbd
    refine hbelow.inherits_iff.mpr (hbd.resolve_left fun hd => ?_)
    obtain ⟨other, hother, rfl⟩ := List.mem_map.mp hd
    have hnot := hfirst other hother
    rw [hmem.mpr had] at hnot
    cases hnot

/-! ## Questions that are answered -/

theorem known_eq_ok (h : t.contains a = true) : t.known a = .ok () :=
  if_pos h

theorem contains_of_known {u : Unit} (h : t.known a = .ok u) : t.contains a = true := by
  by_contra hnot
  rw [known, if_neg hnot] at h
  cases h

theorem contains_of_bind_known {α : Type} {x : Except UndefinedType α} {r : α}
    (h : (t.known a >>= fun _ => x) = .ok r) : t.contains a = true ∧ x = .ok r := by
  cases hknown : t.known a with
  | error e =>
    rw [hknown] at h
    cases h
  | ok u =>
    rw [hknown] at h
    exact ⟨contains_of_known hknown, h⟩

theorem conforms_named_unfold (t : ClassTable) (enclosing : String) (sub : Ty) (b : String) :
    t.conforms enclosing sub (.named b) = (t.known b >>= fun _ =>
      t.known (sub.resolve enclosing) >>= fun _ =>
        if t.isResolved (sub.resolve enclosing) && t.isResolved b then
          pure ((t.ancestors (sub.resolve enclosing)).any fun c => c.name == b)
        else pure true) := by
  cases sub <;> rfl

theorem join_unfold (hself : (sub.isSelfType && sup.isSelfType) = false) :
    t.join enclosing sub sup = (t.known (sub.resolve enclosing) >>= fun _ =>
      t.known (sup.resolve enclosing) >>= fun _ =>
        if t.isResolved (sub.resolve enclosing) && t.isResolved (sup.resolve enclosing) then
          pure (.named ((meeting? (t.ancestors (sub.resolve enclosing))
            (t.ancestors (sup.resolve enclosing))).getD Names.object))
        else pure .object) := by
  rw [join, hself]
  rfl

/-- About classes of the table, the answer is "yes" unless both are resolved. -/
theorem conforms_of_contains (ha : t.contains (sub.resolve enclosing) = true)
    (hb : t.contains b = true) :
    t.conforms enclosing sub (.named b) =
      .ok (if t.isResolved (sub.resolve enclosing) && t.isResolved b then
        (t.ancestors (sub.resolve enclosing)).any fun c => c.name == b
      else true) := by
  rw [conforms_named_unfold, known_eq_ok hb, known_eq_ok ha]
  exact (apply_ite Except.ok _ _ _).symm

/-- The join of classes of the table is `Object` unless both are resolved. -/
theorem join_of_contains (hself : (sub.isSelfType && sup.isSelfType) = false)
    (ha : t.contains (sub.resolve enclosing) = true)
    (hb : t.contains (sup.resolve enclosing) = true) :
    t.join enclosing sub sup =
      .ok (if t.isResolved (sub.resolve enclosing) && t.isResolved (sup.resolve enclosing) then
        .named ((meeting? (t.ancestors (sub.resolve enclosing))
          (t.ancestors (sup.resolve enclosing))).getD Names.object)
      else .object) := by
  rw [join_unfold hself, known_eq_ok ha, known_eq_ok hb]
  exact (apply_ite Except.ok _ _ _).symm

/-! ## Resolved classes -/

theorem conforms_of_isResolved (ha : t.isResolved (sub.resolve enclosing) = true)
    (hb : t.isResolved b = true) :
    t.conforms enclosing sub (.named b) =
      .ok ((t.ancestors (sub.resolve enclosing)).any fun c => c.name == b) := by
  rw [conforms_of_contains (contains_of_isResolved ha) (contains_of_isResolved hb), ha, hb]
  rfl

/-- Two types of which not both are `SELF_TYPE` have a class for a join. -/
theorem Sound.exists_join (hs : t.Sound) (hself : (sub.isSelfType && sup.isSelfType) = false)
    (ha : t.isResolved (sub.resolve enclosing) = true)
    (hb : t.isResolved (sup.resolve enclosing) = true) :
    ∃ c, t.join enclosing sub sup = .ok (.named c) ∧
      (World.ofTables t f).IsJoin enclosing [sub, sup] (.named c) := by
  obtain ⟨c, hmeet, hac, hbc, hleast⟩ := hs.exists_meeting ha hb
  have hc := contains_of_isResolved (hs.isResolved_of_inherits ha hac)
  refine ⟨c, ?_, ?_, ?_⟩
  · rw [join_of_contains hself (contains_of_isResolved ha) (contains_of_isResolved hb), ha, hb,
      hmeet]
    rfl
  · intro τ hτ
    rw [World.conforms_named_iff]
    rcases List.mem_cons.mp hτ with rfl | hτ
    · exact ⟨contains_of_isResolved ha, hac⟩
    · rw [List.mem_singleton.mp hτ]
      exact ⟨contains_of_isResolved hb, hbc⟩
  · intro υ hυ
    have hsub := hυ sub (by simp)
    have hsup := hυ sup (by simp)
    cases υ with
    | named d =>
      have hd := hleast d (World.conforms_named_iff.mp hsub).2 (World.conforms_named_iff.mp hsup).2
      exact .named hc hd
    | selfType =>
      rw [World.conforms_selfType_iff.mp hsub, World.conforms_selfType_iff.mp hsup] at hself
      cases hself

/-! ## Tables all of whose classes are resolved -/

section Resolved

variable (hs : t.Sound) (hall : ∀ a, t.contains a = true → t.isResolved a = true)
include hs hall

theorem contains_of_inherits (ha : t.contains a = true) (h : t.Inherits a b) :
    t.contains b = true :=
  contains_of_isResolved (hs.isResolved_of_inherits (hall a ha) h)

theorem conforms_iff :
    t.conforms enclosing sub sup = .ok true ↔
      (World.ofTables t f).Conforms enclosing sub sup := by
  cases sup with
  | named b =>
    rw [World.conforms_named_iff, conforms_named_unfold]
    constructor
    · intro h
      obtain ⟨hb, h⟩ := contains_of_bind_known h
      obtain ⟨ha, h⟩ := contains_of_bind_known h
      rw [hall _ ha, hall _ hb] at h
      exact ⟨ha, (hs.any_ancestors_iff (hall _ ha)).mp (Except.ok.inj h)⟩
    · rintro ⟨ha, h⟩
      have hb : t.contains b = true := contains_of_inherits hs hall ha h
      rw [known_eq_ok hb, known_eq_ok ha, hall _ ha, hall _ hb]
      exact congrArg Except.ok ((hs.any_ancestors_iff (hall _ ha)).mpr h)
  | selfType =>
    rw [World.conforms_selfType_iff]
    cases sub with
    | named a =>
      refine ⟨fun h => ?_, nofun⟩
      have hfalse := (contains_of_bind_known h).2
      cases hfalse
    | selfType => exact ⟨fun _ => rfl, fun _ => rfl⟩

theorem antisymm_ofTables (a b : String) (ha : (World.ofTables t f).IsClass a)
    (hab : (World.ofTables t f).Inherits a b) (hba : (World.ofTables t f).Inherits b a) : a = b :=
  hs.antisymm (hall a ha) hab hba

theorem join_iff :
    t.join enclosing sub sup = .ok τ ↔
      (World.ofTables t f).IsJoin enclosing [sub, sup] τ := by
  by_cases hself : (sub.isSelfType && sup.isSelfType) = true
  · obtain ⟨rfl, rfl⟩ : sub = .selfType ∧ sup = .selfType := by
      cases sub <;> cases sup <;> simp_all [Ty.isSelfType]
    have hjoin : (World.ofTables t f).IsJoin enclosing [.selfType, .selfType] .selfType :=
      ⟨fun τ hτ => by simp_all [World.conforms_selfType_iff], fun υ hυ => hυ _ (by simp)⟩
    constructor
    · intro h
      cases h
      exact hjoin
    · intro h
      rw [← hjoin.unique (antisymm_ofTables hs hall) h]
      rfl
  · rw [Bool.not_eq_true] at hself
    by_cases hknown : t.contains (sub.resolve enclosing) = true ∧
        t.contains (sup.resolve enclosing) = true
    · obtain ⟨c, hc, hjoin⟩ :=
        hs.exists_join (f := f) hself (hall _ hknown.1) (hall _ hknown.2)
      rw [hc]
      constructor
      · intro h
        cases h
        exact hjoin
      · intro h
        rw [hjoin.unique (antisymm_ofTables hs hall) h]
    · constructor
      · intro h
        rw [join_unfold hself] at h
        obtain ⟨ha, h⟩ := contains_of_bind_known h
        exact absurd ⟨ha, (contains_of_bind_known h).1⟩ hknown
      · intro h
        cases τ with
        | named c =>
          exact absurd ⟨(World.conforms_named_iff.mp (h.upper sub (by simp))).1,
            (World.conforms_named_iff.mp (h.upper sup (by simp))).1⟩ hknown
        | selfType =>
          rw [World.conforms_selfType_iff.mp (h.upper sub (by simp)),
            World.conforms_selfType_iff.mp (h.upper sup (by simp))] at hself
          cases hself

end Resolved

end ClassTable

end Cool
