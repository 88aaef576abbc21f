import Cool.Proofs.Hierarchy.Resolved
import Cool.Proofs.Signature.Rebuilt

/-!
# A hierarchy that is mended

If unresolved classes are given other parents, so that in the end all classes are resolved, then
the classes that were resolved before have the ancestors and the features that they had.

* `ClassTable.Unresolved` : classes that are in a table, but not resolved;
* `ClassDecl.Reparented`, `Program.MendedBy` : such classes with other parents;
* `Program.MendedBy.find?_eq` : resolved classes stay as they are;
* `Program.MendedBy.agreesAbout` : the tables agree about them.
-/

namespace Cool

/-- The class can be named, but its chain of ancestors is not sound. -/
def ClassTable.Unresolved (t : ClassTable) (a : String) : Prop :=
  t.contains a = true ∧ t.isResolved a = false

instance (t : ClassTable) (a : String) : Decidable (t.Unresolved a) :=
  inferInstanceAs (Decidable (_ ∧ _))

/-- A declaration is the same, or that of an unresolved class with another parent. -/
def ClassDecl.Reparented (t : ClassTable) (c d : ClassDecl) : Prop :=
  d = c ∨ t.Unresolved c.name ∧ d = { c with parent := d.parent }

/-- The second program has other parents for unresolved classes of the first, and no unresolved
classes. -/
structure Program.MendedBy (p q : Program) : Prop where
  length : q.classes.length = p.classes.length
  reparented : ∀ (i : Nat) (c d : ClassDecl), p.classes[i]? = some c → q.classes[i]? = some d →
    c.Reparented p.classTable d
  resolved : ∀ i d, q.Accepts i d → q.classTable.isResolved d.name = true

namespace ClassDecl.Reparented

variable {t : ClassTable} {c d : ClassDecl}

theorem name_eq (h : c.Reparented t d) : d.name = c.name := by
  rcases h with rfl | ⟨-, h⟩
  · rfl
  · rw [h]

/-- Declarations of resolved classes are the same. -/
theorem eq_of_isResolved (h : c.Reparented t d) (hr : t.isResolved c.name = true) : d = c := by
  refine h.resolve_right fun ⟨hunresolved, _⟩ => ?_
  rw [hunresolved.2] at hr
  cases hr

end ClassDecl.Reparented

namespace Program.MendedBy

variable {p q : Program} {a : String} {i : Nat} {c d : ClassDecl} {info : ClassInfo}
  (h : p.MendedBy q)
include h

/-! ## Declarations -/

theorem exists_right (hc : p.classes[i]? = some c) :
    ∃ d, q.classes[i]? = some d ∧ c.Reparented p.classTable d := by
  have hi : i < q.classes.length := by
    rw [h.length]
    exact (List.getElem?_eq_some_iff.mp hc).1
  have hd := List.getElem?_eq_getElem hi
  exact ⟨_, hd, h.reparented i c _ hc hd⟩

theorem exists_left (hd : q.classes[i]? = some d) :
    ∃ c, p.classes[i]? = some c ∧ c.Reparented p.classTable d := by
  have hi : i < p.classes.length := by
    rw [← h.length]
    exact (List.getElem?_eq_some_iff.mp hd).1
  have hc := List.getElem?_eq_getElem hi
  exact ⟨_, hc, h.reparented i _ d hc hd⟩

/-- The declarations at the same positions are accepted. -/
theorem accepts_iff (hc : p.classes[i]? = some c) (hd : q.classes[i]? = some d) :
    p.Accepts i c ↔ q.Accepts i d := by
  have hname := (h.reparented i c d hc hd).name_eq
  constructor
  · rintro ⟨-, hreserved, hfirst⟩
    refine ⟨hd, hname ▸ hreserved, fun k d' hk hd' => ?_⟩
    obtain ⟨c', hc', hsame⟩ := h.exists_left hd'
    rw [hsame.name_eq, hname]
    exact hfirst k c' hk hc'
  · rintro ⟨-, hreserved, hfirst⟩
    refine ⟨hc, hname ▸ hreserved, fun k c' hk hc' => ?_⟩
    obtain ⟨d', hd', hsame⟩ := h.exists_right hc'
    rw [← hsame.name_eq, ← hname]
    exact hfirst k d' hk hd'

theorem accepts_right (hc : p.Accepts i c) :
    ∃ d, q.Accepts i d ∧ c.Reparented p.classTable d := by
  obtain ⟨d, hd, hsame⟩ := h.exists_right hc.1
  exact ⟨d, (h.accepts_iff hc.1 hd).mp hc, hsame⟩

theorem accepts_left (hd : q.Accepts i d) :
    ∃ c, p.Accepts i c ∧ c.Reparented p.classTable d := by
  obtain ⟨c, hc, hsame⟩ := h.exists_left hd.1
  exact ⟨c, (h.accepts_iff hc hd.1).mpr hd, hsame⟩

/-- Declarations of resolved classes are kept. -/
theorem accepts_of_isResolved (hc : p.Accepts i c) (hr : p.classTable.isResolved c.name = true) :
    q.Accepts i c := by
  obtain ⟨d, hd, hsame⟩ := h.accepts_right hc
  rwa [← hsame.eq_of_isResolved hr]

theorem exists_accepts_iff (hr : p.classTable.isResolved c.name = true) :
    (∃ i, p.Accepts i c) ↔ ∃ i, q.Accepts i c := by
  constructor
  · rintro ⟨i, hc⟩
    exact ⟨i, h.accepts_of_isResolved hc hr⟩
  · rintro ⟨i, hd⟩
    obtain ⟨c', hc', hsame⟩ := h.accepts_left hd
    rw [hsame.name_eq] at hr
    rw [hsame.eq_of_isResolved hr]
    exact ⟨i, hc'⟩

/-! ## The class table -/

/-- There are the same classes. -/
theorem contains_eq (a : String) : q.classTable.contains a = p.classTable.contains a := by
  rw [Bool.eq_iff_iff, ClassTable.contains_iff, ClassTable.contains_iff]
  constructor
  · rintro ⟨info, hinfo⟩
    obtain ⟨hbasic | ⟨i, d, hd, rfl⟩, rfl⟩ := ClassTable.find?_ofProgram.mp hinfo
    · exact ⟨info, ClassTable.find?_ofProgram.mpr ⟨Or.inl hbasic, rfl⟩⟩
    · obtain ⟨c, hc, hsame⟩ := h.accepts_left hd
      exact ⟨c.info i, ClassTable.find?_ofProgram.mpr ⟨Or.inr ⟨i, c, hc, rfl⟩, hsame.name_eq.symm⟩⟩
  · rintro ⟨info, hinfo⟩
    obtain ⟨hbasic | ⟨i, c, hc, rfl⟩, rfl⟩ := ClassTable.find?_ofProgram.mp hinfo
    · exact ⟨info, ClassTable.find?_ofProgram.mpr ⟨Or.inl hbasic, rfl⟩⟩
    · obtain ⟨d, hd, hsame⟩ := h.accepts_right hc
      exact ⟨d.info i, ClassTable.find?_ofProgram.mpr ⟨Or.inr ⟨i, d, hd, rfl⟩, hsame.name_eq⟩⟩

theorem isResolved_of_contains (ha : q.classTable.contains a = true) :
    q.classTable.isResolved a = true := by
  obtain ⟨info, hinfo⟩ := ClassTable.contains_iff.mp ha
  obtain ⟨hbasic | ⟨i, d, hd, rfl⟩, rfl⟩ := ClassTable.find?_ofProgram.mp hinfo
  · have hmem : ∀ info ∈ ClassTable.basic.classes, info.name ∈ Names.basic := by decide
    exact ClassTable.isResolved_of_mem_basic (hmem info hbasic)
  · exact h.resolved i d hd

theorem isResolved (hr : p.classTable.isResolved a = true) : q.classTable.isResolved a = true := by
  apply h.isResolved_of_contains
  rw [h.contains_eq]
  exact ClassTable.contains_of_isResolved hr

/-- Resolved classes stay as they are. -/
theorem find?_eq (hr : p.classTable.isResolved a = true)
    (hinfo : p.classTable.find? a = some info) : q.classTable.find? a = some info := by
  obtain ⟨hbasic | ⟨i, c, hc, rfl⟩, rfl⟩ := ClassTable.find?_ofProgram.mp hinfo
  · exact ClassTable.find?_ofProgram.mpr ⟨Or.inl hbasic, rfl⟩
  · exact ClassTable.find?_of_accepts (h.accepts_of_isResolved hc hr)

theorem resolveType?_eq (name : String) :
    q.classTable.resolveType? name = p.classTable.resolveType? name := by
  rw [ClassTable.resolveType?, ClassTable.resolveType?, h.contains_eq]

/-- Resolved classes keep their ancestors. -/
theorem ancestors_eq (hr : p.classTable.isResolved a = true) :
    q.classTable.ancestors a = p.classTable.ancestors a := by
  have hs := ClassTable.sound_ofProgram p
  obtain ⟨l, hl⟩ := hs.chain a hr
  have hl' : q.classTable.IsChain a l := hl.of_entries fun info hinfo => by
    have hinherits := hl.inherits_iff.mpr (List.mem_map_of_mem hinfo)
    exact h.find?_eq (hs.isResolved_of_inherits hr hinherits) (hl.entries info hinfo)
  rw [ClassTable.ancestors_eq_of_isChain hl, ClassTable.ancestors_eq_of_isChain hl']

/-- The two programs agree about the classes that are resolved in the first. -/
theorem agreesAbout :
    p.AgreesAbout (fun a => p.classTable.isResolved a = true) (fun _ => True) q where
  classes :=
    { contains := fun a _ => h.contains_eq a
      resolved := fun _ hr => (h.isResolved hr).trans hr.symm
      ancestors := fun _ hr => congrArg _ (h.ancestors_eq hr)
      closed := fun a hr info hinfo => by
        have hs := ClassTable.sound_ofProgram p
        have hinherits := (hs.mem_ancestors_iff hr).mp (List.mem_map_of_mem hinfo)
        exact hs.isResolved_of_inherits hr hinherits }
  names name _ := h.resolveType?_eq name
  accepts _ hr := h.exists_accepts_iff hr
  types _ _ _ _ f _ := f.known_true

end Program.MendedBy

end Cool
