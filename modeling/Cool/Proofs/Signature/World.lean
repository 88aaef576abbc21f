import Cool.Proofs.Hierarchy.Order
import Cool.Proofs.Signature.Built

/-!
# The tables of a well-declared program

Where the hierarchy and the features of a program are without defects, its tables hold what it
declares and nothing else: the world as the tables have it is the world as the program declares it.

* `Program.WellDeclared` : the two tables are built without a report;
* `ofTables_eq_world` : the tables and the program are views of one world;
* `isType_of_declares` : all types in signatures are types of the program.
-/

namespace Cool

/-- The hierarchy and the features of the program are without defects. -/
structure Program.WellDeclared (p : Program) : Prop where
  classes : (ClassTable.ofProgram p).reports = []
  features : (FeatureTable.ofProgram p p.classTable).reports = []

namespace Program.WellDeclared

variable {p : Program} {a : String} {i : Nat} {c : ClassDecl} {m : MethodSig}

/-! ## Classes -/

theorem accepts (h : p.WellDeclared) (hc : p.classes[i]? = some c) : p.Accepts i c :=
  ClassTable.accepts_of_reports_eq_nil h.classes hc

theorem exists_accepts (h : p.WellDeclared) (hc : c ∈ p.classes) : ∃ i, p.Accepts i c := by
  obtain ⟨i, hi⟩ := List.mem_iff_getElem?.mp hc
  exact ⟨i, h.accepts hi⟩

theorem isResolved (h : p.WellDeclared) (ha : p.classTable.contains a = true) :
    p.classTable.isResolved a = true :=
  ClassTable.isResolved_of_reports_eq_nil h.classes ha

theorem contains_of_accepts (haccepts : p.Accepts i c) : p.classTable.contains c.name = true :=
  ClassTable.contains_of_find? (ClassTable.find?_of_accepts haccepts)

theorem wellDeclared_class (h : p.WellDeclared) (haccepts : p.Accepts i c) :
    c.WellDeclared p.featureTable p.classTable true := by
  have hr := h.isResolved (contains_of_accepts haccepts)
  exact hr ▸ FeatureTable.reports_ofProgram_eq_nil_iff.mp h.features i c haccepts

/-- The classes of the table, as the program has them. -/
theorem exists_find?_iff (h : p.WellDeclared) {P : Option String → Prop} :
    (∃ info, p.classTable.find? a = some info ∧ P info.parent) ↔
      (∃ k ∈ Builtin.classes, k.name = a ∧ P k.parent) ∨
        ∃ c ∈ p.classes, c.name = a ∧ P (some c.parent) := by
  simp only [ClassTable.find?_ofProgram]
  constructor
  · rintro ⟨info, ⟨hbasic | ⟨i, c, haccepts, rfl⟩, rfl⟩, hP⟩
    · obtain ⟨k, hk, rfl⟩ := List.mem_map.mp hbasic
      exact Or.inl ⟨k, hk, rfl, hP⟩
    · exact Or.inr ⟨c, List.mem_of_getElem? haccepts.1, rfl, hP⟩
  · rintro (⟨k, hk, rfl, hP⟩ | ⟨c, hc, rfl, hP⟩)
    · exact ⟨_, ⟨Or.inl (List.mem_map_of_mem hk), rfl⟩, hP⟩
    · obtain ⟨i, haccepts⟩ := h.exists_accepts hc
      exact ⟨c.info i, ⟨Or.inr ⟨i, c, haccepts, rfl⟩, rfl⟩, hP⟩

/-! ## Features -/

theorem name_of_method? {own : ClassFeatures} {name : String} (h : own.method? name = some m) :
    m.name = name := by
  simpa using List.find?_some h

theorem method?_signatures (hnodup : (c.methods.map Method.name).Nodup) {d : Method}
    (hd : d ∈ c.methods) : c.signatures.method? d.name = some (d.signature c.name) := by
  have hsome : (c.signatures.method? d.name).isSome = true := by
    refine List.find?_isSome.mpr ⟨d.signature c.name, List.mem_map_of_mem hd, ?_⟩
    exact beq_self_eq_true d.name
  obtain ⟨m, hm⟩ := Option.isSome_iff_exists.mp hsome
  obtain ⟨e, he, rfl⟩ := List.mem_map.mp (List.mem_of_find?_eq_some hm)
  have hname : e.name = d.name := name_of_method? hm
  rw [hm, List.inj_on_of_nodup_map hnodup he hd hname]

theorem declares_iff (h : p.WellDeclared) :
    p.featureTable.ownMethod? a m.name = some m ↔
      (∃ k ∈ Builtin.classes, k.name = a ∧ ∃ d ∈ k.methods, m = FeatureTable.signature a d) ∨
        ∃ c ∈ p.classes, c.name = a ∧ ∃ d ∈ c.methods, m = d.signature a := by
  constructor
  · intro hm
    obtain ⟨own, hown, hm⟩ := Option.bind_eq_some_iff.mp hm
    have hmem : m ∈ own.methods := List.mem_of_find?_eq_some hm
    rcases FeatureTable.find?_ofProgram_iff.mp hown with hbasic | ⟨i, c, haccepts, rfl, hr, -⟩
    · obtain ⟨k, hk, rfl, d, hd, -, rfl⟩ :=
        FeatureTable.ownMethod?_basic_iff.mp (Option.bind_eq_some_iff.mpr ⟨own, hbasic, hm⟩)
      exact Or.inl ⟨k, hk, rfl, d, hd, rfl⟩
    · rw [FeatureTable.find?_of_reports_eq_nil h.features haccepts hr] at hown
      cases hown
      obtain ⟨d, hd, rfl⟩ := List.mem_map.mp hmem
      exact Or.inr ⟨c, List.mem_of_getElem? haccepts.1, rfl, d, hd, rfl⟩
  · rintro (⟨k, hk, rfl, d, hd, rfl⟩ | ⟨c, hc, rfl, d, hd, rfl⟩)
    · have hbasic := FeatureTable.ownMethod?_of_basic k hk d hd
      obtain ⟨own, hown, hd⟩ := Option.bind_eq_some_iff.mp hbasic
      exact Option.bind_eq_some_iff.mpr
        ⟨own, FeatureTable.find?_ofProgram_iff.mpr (Or.inl hown), hd⟩
    · obtain ⟨i, haccepts⟩ := h.exists_accepts hc
      have hr := h.isResolved (contains_of_accepts haccepts)
      exact Option.bind_eq_some_iff.mpr
        ⟨c.signatures, FeatureTable.find?_of_reports_eq_nil h.features haccepts hr,
          method?_signatures (h.wellDeclared_class haccepts).nodupMethods hd⟩

/-- The tables and the program are views of one world. -/
theorem ofTables_eq_world (h : p.WellDeclared) :
    World.ofTables p.classTable p.featureTable = p.world := by
  have hclass : ∀ a, p.classTable.contains a = true ↔ p.world.IsClass a := by
    intro a
    have hfind := h.exists_find?_iff (a := a) (P := fun _ => True)
    simp only [and_true, ← ClassTable.contains_iff] at hfind
    exact hfind
  have hparent : ∀ a b, p.classTable.parentOf? a = some b ↔ p.world.Parent a b := by
    intro a b
    rw [ClassTable.parentOf?_eq_some_iff, h.exists_find?_iff (P := fun parent => parent = some b)]
    simp only [Option.some.injEq]
    exact Iff.rfl
  have hdeclares : ∀ a m, p.featureTable.ownMethod? a m.name = some m ↔ p.world.Declares a m :=
    fun a m => h.declares_iff
  rw [World.ofTables, funext fun a => propext (hclass a),
    funext fun a => funext fun b => propext (hparent a b),
    funext fun a => funext fun m => propext (hdeclares a m)]

/-! ## Types in signatures -/

theorem isType_ofName {b : String} (hb : b = Names.selfType ∨ p.classTable.contains b = true) :
    (World.ofTables p.classTable p.featureTable).IsType (.ofName b) := by
  unfold Ty.ofName
  split_ifs with hself
  · trivial
  · exact hb.resolve_left hself

/-- A method takes values of classes, and returns values of a type. -/
theorem isType_of_declares (h : p.WellDeclared)
    (hm : (World.ofTables p.classTable p.featureTable).Declares a m) :
    (∀ f ∈ m.formals, f.type ≠ .selfType) ∧
      (World.ofTables p.classTable p.featureTable).IsType m.returnType := by
  rcases h.declares_iff.mp hm with ⟨k, hk, rfl, d, hd, rfl⟩ | ⟨c, hc, rfl, d, hd, rfl⟩
  · have hformals : ∀ k ∈ Builtin.classes, ∀ d ∈ k.methods,
        ∀ f ∈ (FeatureTable.signature k.name d).formals, f.type ≠ .selfType := by
      decide
    have hreturn : ∀ k ∈ Builtin.classes, ∀ d ∈ k.methods,
        d.returnType = .selfType ∨ ∃ b ∈ Names.basic, d.returnType = .named b := by
      decide
    refine ⟨hformals k hk d hd, ?_⟩
    show (World.ofTables p.classTable p.featureTable).IsType d.returnType
    rcases hreturn k hk d hd with hself | ⟨b, hb, hnamed⟩
    · rw [hself]
      trivial
    · rw [hnamed]
      exact ClassTable.contains_of_isResolved (ClassTable.isResolved_of_mem_basic hb)
  · obtain ⟨i, haccepts⟩ := h.exists_accepts hc
    have hd := (h.wellDeclared_class haccepts).methods d hd
    refine ⟨fun f hf => ?_, isType_ofName hd.returnType⟩
    obtain ⟨g, hg, rfl⟩ := List.mem_map.mp hf
    have hne := (hd.formals g hg).type
    simp [Formal.signature, Ty.ofName, hne]

end Program.WellDeclared

end Cool
