import Cool.Proofs.Signature.Attributes

/-!
# What is asked of the features, as they are written

A declaration is checked against the entries of its ancestors, and an entry need not be what its
declaration says: what is undefined is replaced, and a method that does not agree gets another
signature. Still, nothing is reported exactly if the declarations themselves are in order, each
compared with what its ancestors write and not with their entries. For if all are in order, then the
entries are what is written, from `Object` down every chain.

* `Program.Writes`, `Program.DeclaresAttribute` : what a class declares, as it is written;
* `Method.Repeats`, `ClassDecl.WellWritten` : what is asked for, of the declarations alone;
* `Program.AsWritten`, `asWritten_of_isChain` : the entries of a chain are what is written;
* `reports_eq_nil_iff_wellWritten` : nothing is reported exactly if all is well written.
-/

namespace Cool

/-! ## Types by name -/

/-- The type is the one that its name stands for. -/
def Ty.IsNamed (τ : Ty) : Prop :=
  .ofName τ.name = τ

theorem Ty.isNamed_ofName (a : String) : (Ty.ofName a).IsNamed := by
  rw [IsNamed, name_ofName]

theorem Ty.IsNamed.eq_ofName_iff {τ : Ty} {a : String} (h : τ.IsNamed) :
    .ofName a = τ ↔ a = τ.name := by
  constructor
  · rintro rfl
    rw [name_ofName]
  · rintro rfl
    exact h

/-- A method is written with the types of a signature. -/
structure Method.Repeats (d : Method) (m : MethodSig) : Prop where
  formals : d.formals.map Formal.type = m.formals.map fun f => f.type.name
  returnType : d.returnType = m.returnType.name

theorem Method.repeats_iff {d : Method} {m : MethodSig} {a : String}
    (hformals : ∀ f ∈ m.formals, f.type.IsNamed) (hreturn : m.returnType.IsNamed) :
    d.Repeats m ↔ (d.signature a).Agrees m := by
  have htypes : (d.signature a).formals.map FormalSig.type =
      (d.formals.map Formal.type).map Ty.ofName := by
    rw [Method.signature, List.map_map, List.map_map]
    rfl
  constructor
  · rintro ⟨h, hr⟩
    refine ⟨?_, hreturn.eq_ofName_iff.mpr hr⟩
    rw [htypes, h, List.map_map]
    exact List.map_congr_left hformals
  · rintro ⟨h, hr⟩
    refine ⟨?_, hreturn.eq_ofName_iff.mp hr⟩
    rw [htypes] at h
    have hnames := congrArg (List.map Ty.name) h
    rw [List.map_map, List.map_map] at hnames
    simpa [Function.comp_def] using hnames

namespace Program

variable {p : Program} {a b x name : String} {i k : Nat} {c d : ClassDecl} {m : MethodSig}
  {l : List ClassInfo}

/-! ## What is written -/

/-- The signature is that of a method which is built into a class, or written in its accepted
declaration. -/
def Writes (p : Program) (a : String) (m : MethodSig) : Prop :=
  (∃ k ∈ Builtin.classes, k.name = a ∧ ∃ d ∈ k.methods, m = FeatureTable.signature a d) ∨
    ∃ i c, p.Accepts i c ∧ c.name = a ∧ ∃ d ∈ c.methods, m = d.signature a

/-- The accepted declaration of a class has an attribute of this name. -/
def DeclaresAttribute (p : Program) (a x : String) : Prop :=
  ∃ i c, p.Accepts i c ∧ c.name = a ∧ ∃ d ∈ c.attributes, d.name = x

end Program

/-! ## What is asked for -/

structure Method.WellWritten (classes : ClassTable) (d : Method) : Prop where
  formals : ∀ f ∈ d.formals, f.WellDeclared classes
  nodup : (d.formals.map Formal.name).Nodup
  returnType : d.returnType = Names.selfType ∨ classes.contains d.returnType = true

/-- The features of a class are in order, as they and those of its ancestors are written. -/
structure Program.WellWritten (p : Program) (c : ClassDecl) : Prop where
  attributes : ∀ a ∈ c.attributes,
    a.name ≠ Names.self ∧ (a.type = Names.selfType ∨ p.classTable.contains a.type = true)
  nodupAttributes : (c.attributes.map Attribute.name).Nodup
  methods : ∀ d ∈ c.methods, d.WellWritten p.classTable
  nodupMethods : (c.methods.map Method.name).Nodup
  /-- No proper ancestor declares an attribute of the class. -/
  new : p.classTable.isResolved c.name = true → ∀ a ∈ c.attributes,
    ∀ b, p.classTable.Inherits c.parent b → ¬p.DeclaresAttribute b a.name
  /-- Every method is written as in the nearest proper ancestor that declares it. -/
  repeats : p.classTable.isResolved c.name = true → ∀ d ∈ c.methods,
    ∀ b, p.Nearest (p.classTable.ancestors c.parent) d.name b →
      ∀ m, p.Writes b m → m.name = d.name → d.Repeats m

namespace Program

variable {p : Program} {a b x name : String} {i k : Nat} {c : ClassDecl} {m : MethodSig}
  {l : List ClassInfo}

theorem Writes.isNamed (h : p.Writes a m) :
    (∀ f ∈ m.formals, f.type.IsNamed) ∧ m.returnType.IsNamed := by
  rcases h with ⟨k, hk, rfl, d, hd, rfl⟩ | ⟨i, c, -, -, d, -, rfl⟩
  · have hbuiltin : ∀ k ∈ Builtin.classes, ∀ d ∈ k.methods,
        (∀ f ∈ (FeatureTable.signature k.name d).formals, .ofName f.type.name = f.type) ∧
          .ofName d.returnType.name = d.returnType := by
      decide
    exact hbuiltin k hk d hd
  · refine ⟨fun f hf => ?_, Ty.isNamed_ofName d.returnType⟩
    obtain ⟨g, -, rfl⟩ := List.mem_map.mp hf
    exact Ty.isNamed_ofName g.type

/-! ## Entries that are what is written -/

theorem isResolved_parent (hc : p.Accepts i c) (hr : p.classTable.isResolved c.name = true) :
    p.classTable.isResolved c.parent = true :=
  (ClassTable.sound_ofProgram p).parent _ _ hr (FeatureTable.parentOf?_of_accepts hc)

/-- The class and its ancestors, as far as they are declared, have their signatures for entries, and
no two methods of one name. -/
def AsWritten (p : Program) (a : String) : Prop :=
  ∀ b, p.classTable.Inherits a b → ∀ i c, p.Accepts i c → c.name = b →
    p.featureTable.find? b = some c.signatures ∧ (c.methods.map Method.name).Nodup

theorem AsWritten.of_inherits (h : p.AsWritten a) (hab : p.classTable.Inherits a b) :
    p.AsWritten b :=
  fun d hbd => h d (hab.trans hbd)

theorem AsWritten.ownMethod?_iff (h : p.AsWritten a) :
    p.featureTable.ownMethod? a m.name = some m ↔ p.Writes a m := by
  constructor
  · intro hm
    rcases Program.ownMethod?_iff.mp hm with ⟨k, hk, hname, d, hd, -, heq⟩ | ⟨i, c, hc, hname, -⟩
    · exact Or.inl ⟨k, hk, hname, d, hd, heq⟩
    · obtain ⟨hfind, -⟩ := h a (.refl _ a) i c hc hname
      obtain ⟨own, hown, hm⟩ := Option.bind_eq_some_iff.mp hm
      cases hfind.symm.trans hown
      obtain ⟨d, hd, rfl⟩ := List.mem_map.mp (List.mem_of_find?_eq_some hm)
      exact Or.inr ⟨i, c, hc, hname, d, hd, by rw [hname]⟩
  · rintro (⟨k, hk, rfl, d, hd, rfl⟩ | ⟨i, c, hc, rfl, d, hd, rfl⟩)
    · exact Program.ownMethod?_iff.mpr (Or.inl ⟨k, hk, rfl, d, hd, rfl, rfl⟩)
    · obtain ⟨hfind, hnodup⟩ := h c.name (.refl _ c.name) i c hc rfl
      exact Option.bind_eq_some_iff.mpr
        ⟨c.signatures, hfind, WellDeclared.method?_signatures hnodup hd⟩

theorem AsWritten.ownAttribute?_eq_none_iff (h : p.AsWritten a) :
    p.featureTable.ownAttribute? a x = none ↔ ¬p.DeclaresAttribute a x := by
  rw [FeatureTable.ownAttribute?_eq_none_iff]
  constructor
  · rintro hnone ⟨i, c, hc, rfl, d, hd, rfl⟩
    rw [(h c.name (.refl _ c.name) i c hc rfl).1] at hnone
    exact hnone _ (List.mem_map_of_mem hd) rfl
  · intro hnot e he heq
    obtain ⟨i, c, hc, rfl, -⟩ := exists_accepts_of_mem_attributes he
    rw [(h c.name (.refl _ c.name) i c hc rfl).1] at he
    obtain ⟨d, hd, rfl⟩ := List.mem_map.mp he
    exact hnot ⟨i, c, hc, rfl, d, hd, heq⟩

theorem AsWritten.lookupAttribute?_eq_none_iff (h : p.AsWritten a)
    (hr : p.classTable.isResolved a = true) :
    p.featureTable.lookupAttribute? p.classTable a x = none ↔
      ∀ b, p.classTable.Inherits a b → ¬p.DeclaresAttribute b x := by
  have hs := ClassTable.sound_ofProgram p
  rw [FeatureTable.lookupAttribute?, List.findSome?_eq_none_iff]
  constructor
  · intro hnone b hab
    obtain ⟨info, hinfo, rfl⟩ := List.mem_map.mp ((hs.mem_ancestors_iff hr).mpr hab)
    exact ((h.of_inherits hab).ownAttribute?_eq_none_iff).mp (hnone info hinfo)
  · intro hnot info hinfo
    have hab := (hs.mem_ancestors_iff hr).mp (List.mem_map_of_mem hinfo)
    exact ((h.of_inherits hab).ownAttribute?_eq_none_iff).mpr (hnot info.name hab)

/-- A method is looked up in the nearest class that declares it. -/
theorem lookupMethod?_eq_some_iff_nearest (hr : p.classTable.isResolved a = true) :
    p.featureTable.lookupMethod? p.classTable a name = some m ↔
      ∃ b, p.Nearest (p.classTable.ancestors a) name b ∧
        p.featureTable.ownMethod? b name = some m := by
  have hresolved : ∀ c ∈ p.classTable.ancestors a, p.classTable.isResolved c.name = true :=
    ((ClassTable.sound_ofProgram p).wholeChain hr).resolved
  rw [FeatureTable.lookupMethod?, List.findSome?_eq_some_iff]
  constructor
  · rintro ⟨above, info, below, hsplit, hown, hfirst⟩
    rw [hsplit] at hresolved
    refine ⟨info.name, ⟨above, info, below, hsplit, rfl, ?_, fun c hc => ?_⟩, hown⟩
    · exact (declaresMethod_iff (hresolved info (by simp))).mpr ⟨m, hown⟩
    · rw [declaresMethod_iff (hresolved c (by simp [hc])), hfirst c hc]
      rintro ⟨_, hn⟩
      cases hn
  · rintro ⟨_, ⟨above, info, below, hsplit, rfl, -, hfirst⟩, hown⟩
    rw [hsplit] at hresolved
    refine ⟨above, info, below, hsplit, hown, fun c hc => ?_⟩
    rw [Option.eq_none_iff_forall_ne_some]
    intro n hn
    exact hfirst c hc ((declaresMethod_iff (hresolved c (by simp [hc]))).mpr ⟨n, hn⟩)

theorem AsWritten.lookupMethod?_eq_some_iff (h : p.AsWritten a)
    (hr : p.classTable.isResolved a = true) :
    p.featureTable.lookupMethod? p.classTable a name = some m ↔
      ∃ b, p.Nearest (p.classTable.ancestors a) name b ∧ p.Writes b m ∧ m.name = name := by
  rw [lookupMethod?_eq_some_iff_nearest hr]
  refine exists_congr fun b => and_congr_right fun hnearest => ?_
  have hab : p.classTable.Inherits a b := by
    obtain ⟨above, info, below, hsplit, rfl, -⟩ := hnearest
    refine ((ClassTable.sound_ofProgram p).mem_ancestors_iff hr).mp ?_
    rw [hsplit]
    exact List.mem_map_of_mem (by simp)
  constructor
  · intro hm
    obtain rfl : m.name = name := FeatureTable.name_of_ownMethod? hm
    exact ⟨(h.of_inherits hab).ownMethod?_iff.mp hm, rfl⟩
  · rintro ⟨hm, rfl⟩
    exact (h.of_inherits hab).ownMethod?_iff.mpr hm

/-- Where the entries of the ancestors are what is written, a declaration is in order against the
entries if it is in order against the declarations. -/
theorem wellDeclared_iff_wellWritten
    (h : p.classTable.isResolved c.name = true → p.AsWritten c.parent)
    (hc : p.Accepts i c) :
    c.WellDeclared p.featureTable p.classTable (p.classTable.isResolved c.name) ↔
      p.WellWritten c := by
  have hparent := isResolved_parent hc
  constructor
  · rintro ⟨hattributes, hnodupAttributes, hmethods, hnodupMethods⟩
    refine ⟨fun a ha => ⟨(hattributes a ha).name, (hattributes a ha).type⟩, hnodupAttributes,
      fun d hd => ⟨(hmethods d hd).formals, (hmethods d hd).nodup, (hmethods d hd).returnType⟩,
      hnodupMethods, fun hr a ha => ?_, fun hr d hd b hb m hm hname => ?_⟩
    · exact ((h hr).lookupAttribute?_eq_none_iff (hparent hr)).mp ((hattributes a ha).new hr)
    · refine (Method.repeats_iff hm.isNamed.1 hm.isNamed.2).mpr ((hmethods d hd).agrees hr m ?_)
      exact ((h hr).lookupMethod?_eq_some_iff (hparent hr)).mpr ⟨b, hb, hm, hname⟩
  · rintro ⟨hattributes, hnodupAttributes, hmethods, hnodupMethods, hnew, hrepeats⟩
    refine ⟨fun a ha => ⟨(hattributes a ha).1, (hattributes a ha).2, fun hr => ?_⟩,
      hnodupAttributes, fun d hd => ⟨(hmethods d hd).formals, (hmethods d hd).nodup,
        (hmethods d hd).returnType, fun hr m hm => ?_⟩, hnodupMethods⟩
    · exact ((h hr).lookupAttribute?_eq_none_iff (hparent hr)).mpr (hnew hr a ha)
    · obtain ⟨b, hb, hm, hname⟩ := ((h hr).lookupMethod?_eq_some_iff (hparent hr)).mp hm
      exact (Method.repeats_iff hm.isNamed.1 hm.isNamed.2).mp (hrepeats hr d hd b hb m hm hname)

/-- A class whose ancestors have their signatures for entries has its own, if it is in order. -/
theorem find?_of_wellWritten (hc : p.Accepts i c) (hr : p.classTable.isResolved c.name = true)
    (hparent : p.AsWritten c.parent) (h : p.WellWritten c) :
    p.featureTable.find? c.name = some c.signatures := by
  have hdeclared := (wellDeclared_iff_wellWritten (fun _ => hparent) hc).mpr h
  rw [hr] at hdeclared
  refine FeatureTable.find?_ofProgram_iff.mpr (Or.inr ⟨i, c, hc, rfl, hr, ?_⟩)
  rw [FeatureTable.checkClass_eq_pure_iff.mpr ⟨hdeclared, rfl⟩]
  rfl

theorem asWritten_of_isChain (h : ∀ i c, p.Accepts i c → p.WellWritten c)
    (hl : p.classTable.IsChain a l) (hr : p.classTable.isResolved a = true) : p.AsWritten a := by
  induction hl with
  | @root a info hinfo hp =>
    rintro b hab i c hc rfl
    rcases Relation.ReflTransGen.cases_head hab with rfl | ⟨d, hd, -⟩
    · rw [ClassTable.find?_of_accepts hc] at hinfo
      cases hinfo
      cases hp
    · rw [ClassTable.parentOf?_eq_of_find? hinfo, hp] at hd
      cases hd
  | @child a q info l hinfo hp _ ih =>
    have hq : p.classTable.parentOf? a = some q :=
      (ClassTable.parentOf?_eq_of_find? hinfo).trans hp
    have hparent := ih ((ClassTable.sound_ofProgram p).parent _ _ hr hq)
    rintro b hab i c hc rfl
    rcases Relation.ReflTransGen.cases_head hab with rfl | ⟨d, hd, hdb⟩
    · rw [FeatureTable.parentOf?_of_accepts hc] at hq
      cases hq
      exact ⟨find?_of_wellWritten hc hr hparent (h i c hc), (h i c hc).nodupMethods⟩
    · rw [hq] at hd
      cases hd
      exact hparent c.name hdb i c hc rfl

/-- Where nothing is reported, the entries of resolved classes are what is written. -/
theorem asWritten_of_reports_eq_nil (h : (FeatureTable.ofProgram p p.classTable).reports = [])
    (hr : p.classTable.isResolved a = true) : p.AsWritten a := by
  rintro b hab i c hc rfl
  have hr' := (ClassTable.sound_ofProgram p).isResolved_of_inherits hr hab
  exact ⟨FeatureTable.find?_of_reports_eq_nil h hc hr',
    (FeatureTable.reports_ofProgram_eq_nil_iff.mp h i c hc).nodupMethods⟩

theorem hasClass_ofProgram_iff : p.featureTable.hasClass a = true ↔ a ∈ Names.basic ∨
    ∃ i c, p.Accepts i c ∧ c.name = a ∧ p.classTable.isResolved a = true := by
  rw [FeatureTable.hasClass, Option.isSome_iff_exists]
  simp only [FeatureTable.find?_ofProgram_iff]
  constructor
  · rintro ⟨own, hbasic | ⟨i, c, hc, hname, hr, -⟩⟩
    · refine Or.inl (by_contra fun hnot => ?_)
      rw [FeatureTable.find?_basic_eq_none hnot] at hbasic
      cases hbasic
    · exact Or.inr ⟨i, c, hc, hname, hr⟩
  · rintro (hbasic | ⟨i, c, hc, hname, hr⟩)
    · have hentry : ∀ a ∈ Names.basic, (FeatureTable.basic.find? a).isSome = true := by decide
      obtain ⟨own, hown⟩ := Option.isSome_iff_exists.mp (hentry a hbasic)
      exact ⟨own, Or.inl hown⟩
    · exact ⟨_, Or.inr ⟨i, c, hc, hname, hr, rfl⟩⟩

/-- Nothing is reported on the features exactly if every accepted declaration is in order as it is
written. In any case the classes that have an entry are the basic ones and those declared ones that
are resolved. -/
theorem reports_eq_nil_iff_wellWritten (p : Program) :
    ((FeatureTable.ofProgram p p.classTable).reports = [] ↔
      ∀ i c, p.Accepts i c → p.WellWritten c) ∧
    ∀ a, p.featureTable.hasClass a = true ↔ a ∈ Names.basic ∨
      ∃ i c, p.Accepts i c ∧ c.name = a ∧ p.classTable.isResolved a = true := by
  refine ⟨⟨fun h i c hc => ?_, fun h => ?_⟩, fun a => hasClass_ofProgram_iff⟩
  · refine (wellDeclared_iff_wellWritten (fun hr => ?_) hc).mp
      (FeatureTable.reports_ofProgram_eq_nil_iff.mp h i c hc)
    exact asWritten_of_reports_eq_nil h (isResolved_parent hc hr)
  · refine FeatureTable.reports_ofProgram_eq_nil_iff.mpr fun i c hc => ?_
    refine (wellDeclared_iff_wellWritten (fun hr => ?_) hc).mpr (h i c hc)
    obtain ⟨l, hl⟩ := (ClassTable.sound_ofProgram p).chain _ (isResolved_parent hc hr)
    exact asWritten_of_isChain h hl (isResolved_parent hc hr)

end Program

end Cool
