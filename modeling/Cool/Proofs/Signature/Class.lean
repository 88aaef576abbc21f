import Cool.FeatureTable.Build
import Cool.Proofs.Diagnosed
import Cool.Proofs.Hierarchy.Chain
import Cool.Proofs.Typing.World

/-!
# The signatures of a class

What the check of a declaration asks for and what it makes of it. A declaration that meets all that
is asked gets the signatures that are written; and of the table that it is checked against, only the
entries of its ancestors count.

* `ClassDecl.signatures` : what a class declares, as it is written;
* `MethodSig.Agrees` : that a method may override another;
* `Formal.WellDeclared`, `Attribute.WellDeclared`, `Method.WellDeclared`,
  `ClassDecl.WellDeclared` : what is asked for;
* `checkClass_eq_pure_iff` : the check reports nothing exactly on well-declared classes;
* `checkClass_congr` : the check depends on the ancestors.
-/

namespace Cool

def Attribute.signature (owner : String) (a : Attribute) : AttributeSig :=
  ⟨a.name, .ofName a.type, owner⟩

def Feature.attribute? : Feature → Option Attribute
  | .attr a => some a
  | .method _ => none

def ClassDecl.attributes (c : ClassDecl) : List Attribute :=
  c.features.filterMap Feature.attribute?

/-- What a class declares, as it is written. -/
def ClassDecl.signatures (c : ClassDecl) : ClassFeatures :=
  ⟨c.attributes.map (Attribute.signature c.name), c.methods.map (Method.signature c.name)⟩

/-- The methods take values of the same types, and return values of the same type. -/
def MethodSig.Agrees (m n : MethodSig) : Prop :=
  m.formals.map FormalSig.type = n.formals.map FormalSig.type ∧ m.returnType = n.returnType

/-! ## What is asked for -/

structure Formal.WellDeclared (classes : ClassTable) (f : Formal) : Prop where
  name : f.name ≠ Names.self
  type : f.type ≠ Names.selfType
  contains : classes.contains f.type = true

structure Attribute.WellDeclared (t : FeatureTable) (classes : ClassTable) (c : ClassDecl)
    (resolved : Bool) (a : Attribute) : Prop where
  name : a.name ≠ Names.self
  type : a.type = Names.selfType ∨ classes.contains a.type = true
  /-- No ancestor has an attribute of the name. -/
  new : resolved = true → t.lookupAttribute? classes c.parent a.name = none

structure Method.WellDeclared (t : FeatureTable) (classes : ClassTable) (c : ClassDecl)
    (resolved : Bool) (m : Method) : Prop where
  formals : ∀ f ∈ m.formals, f.WellDeclared classes
  nodup : (m.formals.map Formal.name).Nodup
  returnType : m.returnType = Names.selfType ∨ classes.contains m.returnType = true
  /-- The method agrees with the one that it overrides. -/
  agrees : resolved = true → ∀ inherited, t.lookupMethod? classes c.parent m.name = some inherited →
    (m.signature c.name).Agrees inherited

structure ClassDecl.WellDeclared (t : FeatureTable) (classes : ClassTable) (resolved : Bool)
    (c : ClassDecl) : Prop where
  attributes : ∀ a ∈ c.attributes, a.WellDeclared t classes c resolved
  nodupAttributes : (c.attributes.map Attribute.name).Nodup
  methods : ∀ m ∈ c.methods, m.WellDeclared t classes c resolved
  nodupMethods : (c.methods.map Method.name).Nodup

namespace FeatureTable

variable {t t' : FeatureTable} {classes : ClassTable} {c : ClassDecl} {resolved : Bool}
  {own own' : ClassFeatures} {span : Span} {a b name : String}

/-! ## Types and formal parameters -/

theorem reportIn_bind_ne_pure {α : Type} (defect : DeclarationDefect) (f : Unit → Diagnosed α)
    (r : α) : (reportIn c span defect >>= f) ≠ pure r :=
  Diagnosed.report_bind_ne_pure _ _ _

theorem typeOrObject_eq_pure_iff {defect : DeclarationDefect} {τ : Ty} :
    typeOrObject classes c span name defect = pure τ ↔
      τ = .ofName name ∧ (name = Names.selfType ∨ classes.contains name = true) := by
  rw [← ClassTable.resolveType?_eq_some_iff, typeOrObject]
  cases classes.resolveType? name with
  | none => exact ⟨fun h => absurd h (reportIn_bind_ne_pure _ _ _), nofun⟩
  | some υ => rw [Diagnosed.pure_inj, Option.some.injEq]

theorem formalType_eq_pure_iff {f : Formal} {τ : Ty} :
    formalType classes c f = pure τ ↔
      τ = .ofName f.type ∧ f.type ≠ Names.selfType ∧ classes.contains f.type = true := by
  rw [formalType, Diagnosed.bind_eq_pure_iff]
  constructor
  · rintro ⟨υ, hυ, h⟩
    obtain ⟨rfl, hcontains⟩ := typeOrObject_eq_pure_iff.mp hυ
    split_ifs at h with hself
    · exact absurd h (reportIn_bind_ne_pure _ _ _)
    · have hne : f.type ≠ Names.selfType :=
        fun heq => hself (by simp [Ty.ofName, heq, Ty.isSelfType])
      exact ⟨(Diagnosed.pure_inj.mp h).symm, hne, hcontains.resolve_left hne⟩
  · rintro ⟨rfl, hne, hcontains⟩
    refine ⟨_, typeOrObject_eq_pure_iff.mpr ⟨rfl, Or.inr hcontains⟩, ?_⟩
    rw [if_neg (by simp [Ty.ofName, hne, Ty.isSelfType])]

theorem formalDefect?_eq_none_iff {seen : List String} {f : Formal} :
    formalDefect? seen f = none ↔ f.name ≠ Names.self ∧ f.name ∉ seen := by
  unfold formalDefect?
  split_ifs with hself hseen
  · exact ⟨nofun, fun h => absurd hself h.1⟩
  · exact ⟨nofun, fun h => absurd (by simpa using hseen) h.2⟩
  · exact ⟨fun _ => ⟨hself, by simpa using hseen⟩, fun _ => rfl⟩

theorem checkFormals_cons_eq_pure_iff {seen : List String} {f : Formal} {fs : List Formal}
    {sigs : List FormalSig} :
    checkFormals classes c seen (f :: fs) = pure sigs ↔
      formalDefect? seen f = none ∧ ∃ τ, formalType classes c f = pure τ ∧
        ∃ more, checkFormals classes c (f.name :: seen) fs = pure more ∧
          ⟨f.name, τ⟩ :: more = sigs := by
  rw [checkFormals]
  cases formalDefect? seen f with
  | some defect => exact ⟨fun h => absurd h (reportIn_bind_ne_pure _ _ _), nofun⟩
  | none => simp only [Diagnosed.bind_eq_pure_iff, Diagnosed.pure_inj, true_and]

theorem checkFormals_eq_pure_iff :
    ∀ {fs : List Formal} {seen : List String} {sigs : List FormalSig},
      checkFormals classes c seen fs = pure sigs ↔
        sigs = fs.map Formal.signature ∧ (fs.map Formal.name).Nodup ∧
          ∀ f ∈ fs, f.name ∉ seen ∧ f.WellDeclared classes
  | [], seen, sigs => by
    rw [checkFormals, Diagnosed.pure_inj]
    simp [eq_comm]
  | f :: fs, seen, sigs => by
    rw [checkFormals_cons_eq_pure_iff, formalDefect?_eq_none_iff, List.map_cons, List.map_cons,
      List.nodup_cons, List.forall_mem_cons]
    simp only [formalType_eq_pure_iff, checkFormals_eq_pure_iff]
    constructor
    · rintro ⟨⟨hself, hseen⟩, _, ⟨rfl, hne, hcontains⟩, _, ⟨rfl, hnodup, hall⟩, rfl⟩
      refine ⟨rfl, ⟨fun hmem => ?_, hnodup⟩, ⟨hseen, hself, hne, hcontains⟩, fun g hg => ?_⟩
      · obtain ⟨g, hg, hgf⟩ := List.mem_map.mp hmem
        exact (hall g hg).1 (hgf ▸ List.mem_cons_self)
      · exact ⟨fun hmem => (hall g hg).1 (List.mem_cons_of_mem _ hmem), (hall g hg).2⟩
    · rintro ⟨rfl, ⟨hnew, hnodup⟩, ⟨hseen, hself, hne, hcontains⟩, hall⟩
      refine ⟨⟨hself, hseen⟩, _, ⟨rfl, hne, hcontains⟩, _, ⟨rfl, hnodup, fun g hg => ?_⟩, rfl⟩
      refine ⟨fun hmem => ?_, (hall g hg).2⟩
      rcases List.mem_cons.mp hmem with heq | hmem
      · exact hnew (heq ▸ List.mem_map_of_mem hg)
      · exact (hall g hg).1 hmem

/-! ## Methods and attributes -/

theorem writtenSignature_eq_pure_iff {m : Method} {sig : MethodSig} :
    writtenSignature classes c m = pure sig ↔
      sig = m.signature c.name ∧ (∀ f ∈ m.formals, f.WellDeclared classes) ∧
        (m.formals.map Formal.name).Nodup ∧
        (m.returnType = Names.selfType ∨ classes.contains m.returnType = true) := by
  simp only [writtenSignature, Diagnosed.bind_eq_pure_iff, Diagnosed.pure_inj,
    checkFormals_eq_pure_iff, typeOrObject_eq_pure_iff]
  constructor
  · rintro ⟨_, ⟨rfl, hnodup, hall⟩, _, ⟨rfl, hreturn⟩, rfl⟩
    exact ⟨rfl, fun f hf => (hall f hf).2, hnodup, hreturn⟩
  · rintro ⟨rfl, hall, hnodup, hreturn⟩
    exact ⟨_, ⟨rfl, hnodup, fun f hf => ⟨List.not_mem_nil, hall f hf⟩⟩, _, ⟨rfl, hreturn⟩, rfl⟩

/-- The formal parameters are compared pairwise. -/
theorem find?_zip_eq_none_iff : ∀ {fs gs : List FormalSig}, fs.length = gs.length →
    ((fs.zip gs).find? (fun (f, g) => f.type ≠ g.type) = none ↔
      fs.map FormalSig.type = gs.map FormalSig.type)
  | [], [], _ => ⟨fun _ => rfl, fun _ => rfl⟩
  | f :: fs, g :: gs, h => by
    have ih := find?_zip_eq_none_iff (Nat.succ.inj h)
    rw [List.zip_cons_cons, List.find?_cons, List.map_cons, List.map_cons, List.cons.injEq, ← ih]
    by_cases heq : f.type = g.type <;> simp [heq]

theorem overrideDefect?_eq_none_iff {m n : MethodSig} :
    m.overrideDefect? n = none ↔ m.Agrees n := by
  unfold MethodSig.overrideDefect? MethodSig.Agrees
  by_cases hlen : m.formals.length = n.formals.length
  · rw [if_neg (not_not.mpr hlen), ← find?_zip_eq_none_iff hlen]
    cases (m.formals.zip n.formals).find? fun (f, g) => f.type ≠ g.type with
    | some pair => exact ⟨nofun, fun h => nomatch h.1⟩
    | none => by_cases hreturn : m.returnType = n.returnType <;> simp [hreturn]
  · rw [if_pos hlen]
    refine ⟨nofun, fun h => absurd ?_ hlen⟩
    simpa using congrArg List.length h.1

theorem agreedSignature_eq_pure_iff {m : Method} {written sig : MethodSig} :
    t.agreedSignature classes c m written = pure sig ↔
      sig = written ∧ ∀ inherited, t.lookupMethod? classes c.parent m.name = some inherited →
        written.Agrees inherited := by
  rw [agreedSignature]
  cases t.lookupMethod? classes c.parent m.name with
  | none =>
    rw [Diagnosed.pure_inj]
    exact ⟨fun h => ⟨h.symm, nofun⟩, fun h => h.1.symm⟩
  | some inherited =>
    have hagrees : (∀ n, some inherited = some n → written.Agrees n) ↔
        written.overrideDefect? inherited = none := by
      rw [overrideDefect?_eq_none_iff]
      exact ⟨fun h => h inherited rfl, fun h n hn => Option.some.inj hn ▸ h⟩
    rw [hagrees]
    cases hdefect : written.overrideDefect? inherited with
    | none =>
      simp only [hdefect, Diagnosed.pure_inj]
      exact ⟨fun h => ⟨h.symm, trivial⟩, fun h => h.1.symm⟩
    | some defect =>
      simp only [hdefect]
      exact ⟨fun h => absurd h (reportIn_bind_ne_pure _ _ _), fun h => nomatch h.2⟩

theorem checkMethod_eq_pure_iff {m : Method} :
    t.checkMethod classes c resolved own m = pure own' ↔
      own.method? m.name = none ∧ m.WellDeclared t classes c resolved ∧
        own' = { own with methods := own.methods ++ [m.signature c.name] } := by
  rw [checkMethod]
  split_ifs with hseen hresolved
  · refine ⟨fun h => absurd h (reportIn_bind_ne_pure _ _ _), fun h => ?_⟩
    rw [h.1] at hseen
    cases hseen
  · rw [Option.not_isSome_iff_eq_none] at hseen
    simp only [Diagnosed.bind_eq_pure_iff, Diagnosed.pure_inj, writtenSignature_eq_pure_iff,
      agreedSignature_eq_pure_iff]
    constructor
    · rintro ⟨_, ⟨rfl, hall, hnodup, hreturn⟩, _, ⟨rfl, hagrees⟩, rfl⟩
      exact ⟨hseen, ⟨hall, hnodup, hreturn, fun _ => hagrees⟩, rfl⟩
    · rintro ⟨-, ⟨hall, hnodup, hreturn, hagrees⟩, rfl⟩
      exact ⟨_, ⟨rfl, hall, hnodup, hreturn⟩, _, ⟨rfl, hagrees hresolved⟩, rfl⟩
  · rw [Option.not_isSome_iff_eq_none] at hseen
    simp only [Diagnosed.bind_eq_pure_iff, Diagnosed.pure_inj, writtenSignature_eq_pure_iff]
    constructor
    · rintro ⟨_, ⟨rfl, hall, hnodup, hreturn⟩, _, rfl, rfl⟩
      exact ⟨hseen, ⟨hall, hnodup, hreturn, fun h => absurd h hresolved⟩, rfl⟩
    · rintro ⟨-, ⟨hall, hnodup, hreturn, -⟩, rfl⟩
      exact ⟨_, ⟨rfl, hall, hnodup, hreturn⟩, _, rfl, rfl⟩

theorem attributeDefect?_eq_none_iff {a : Attribute} :
    t.attributeDefect? classes c resolved own a = none ↔
      a.name ≠ Names.self ∧ own.attribute? a.name = none ∧
        (resolved = true → t.lookupAttribute? classes c.parent a.name = none) := by
  unfold attributeDefect?
  split_ifs with hself hown hinherited
  · exact ⟨nofun, fun h => absurd hself h.1⟩
  · refine ⟨nofun, fun h => ?_⟩
    rw [h.2.1] at hown
    cases hown
  · rw [Bool.and_eq_true] at hinherited
    refine ⟨nofun, fun h => ?_⟩
    rw [h.2.2 hinherited.1] at hinherited
    cases hinherited.2
  · refine ⟨fun _ => ⟨hself, Option.not_isSome_iff_eq_none.mp hown, fun hresolved => ?_⟩,
      fun _ => rfl⟩
    rw [hresolved, Bool.true_and] at hinherited
    exact Option.not_isSome_iff_eq_none.mp hinherited

theorem checkAttribute_eq_pure_iff {a : Attribute} :
    t.checkAttribute classes c resolved own a = pure own' ↔
      own.attribute? a.name = none ∧ a.WellDeclared t classes c resolved ∧
        own' = { own with attributes := own.attributes ++ [a.signature c.name] } := by
  rw [checkAttribute]
  cases hdefect : t.attributeDefect? classes c resolved own a with
  | some defect =>
    refine ⟨fun h => absurd h (reportIn_bind_ne_pure _ _ _), ?_⟩
    rintro ⟨hown, ha, -⟩
    rw [attributeDefect?_eq_none_iff.mpr ⟨ha.name, hown, ha.new⟩] at hdefect
    cases hdefect
  | none =>
    obtain ⟨hself, hown, hnew⟩ := attributeDefect?_eq_none_iff.mp hdefect
    simp only [Diagnosed.bind_eq_pure_iff, Diagnosed.pure_inj, typeOrObject_eq_pure_iff]
    constructor
    · rintro ⟨_, ⟨rfl, htype⟩, rfl⟩
      exact ⟨hown, ⟨hself, htype, hnew⟩, rfl⟩
    · rintro ⟨-, ⟨-, htype, -⟩, rfl⟩
      exact ⟨_, ⟨rfl, htype⟩, rfl⟩

/-! ## Classes -/

theorem attribute?_snoc_eq_none_iff (sig : AttributeSig) :
    ({ own with attributes := own.attributes ++ [sig] } : ClassFeatures).attribute? name = none ↔
      own.attribute? name = none ∧ sig.name ≠ name := by
  simp [ClassFeatures.attribute?, List.find?_append]

theorem method?_snoc_eq_none_iff (sig : MethodSig) :
    ({ own with methods := own.methods ++ [sig] } : ClassFeatures).method? name = none ↔
      own.method? name = none ∧ sig.name ≠ name := by
  simp [ClassFeatures.method?, List.find?_append]

theorem checkFeatures_eq_pure_iff : ∀ {fs : List Feature} {own own' : ClassFeatures},
    t.checkFeatures classes c resolved own fs = pure own' ↔
      (∀ a ∈ fs.filterMap Feature.attribute?,
        own.attribute? a.name = none ∧ a.WellDeclared t classes c resolved) ∧
      ((fs.filterMap Feature.attribute?).map Attribute.name).Nodup ∧
      (∀ m ∈ fs.filterMap Feature.method?,
        own.method? m.name = none ∧ m.WellDeclared t classes c resolved) ∧
      ((fs.filterMap Feature.method?).map Method.name).Nodup ∧
      own' = ⟨own.attributes ++ (fs.filterMap Feature.attribute?).map (Attribute.signature c.name),
        own.methods ++ (fs.filterMap Feature.method?).map (Method.signature c.name)⟩
  | [], own, own' => by
    rw [checkFeatures, Diagnosed.pure_inj]
    cases own
    simpa using eq_comm
  | .attr a :: fs, own, own' => by
    have hattributes : (Feature.attr a :: fs).filterMap Feature.attribute? =
        a :: fs.filterMap Feature.attribute? := rfl
    have hmethods : (Feature.attr a :: fs).filterMap Feature.method? =
        fs.filterMap Feature.method? := rfl
    simp only [checkFeatures, checkFeature, Diagnosed.bind_eq_pure_iff, checkAttribute_eq_pure_iff,
      checkFeatures_eq_pure_iff, hattributes, hmethods, List.forall_mem_cons, List.map_cons,
      List.nodup_cons]
    constructor
    · rintro ⟨_, ⟨hown, ha, rfl⟩, hall, hnodup, hmethods, hnodupMethods, rfl⟩
      refine ⟨⟨⟨hown, ha⟩, fun b hb => ?_⟩, ⟨fun hmem => ?_, hnodup⟩, hmethods, hnodupMethods, ?_⟩
      · exact ⟨((attribute?_snoc_eq_none_iff _).mp (hall b hb).1).1, (hall b hb).2⟩
      · obtain ⟨b, hb, hba⟩ := List.mem_map.mp hmem
        exact ((attribute?_snoc_eq_none_iff _).mp (hall b hb).1).2 hba.symm
      · rw [List.append_assoc]
        rfl
    · rintro ⟨⟨⟨hown, ha⟩, hall⟩, ⟨hnew, hnodup⟩, hmethods, hnodupMethods, rfl⟩
      refine ⟨_, ⟨hown, ha, rfl⟩, fun b hb => ⟨?_, (hall b hb).2⟩, hnodup, hmethods,
        hnodupMethods, ?_⟩
      · refine (attribute?_snoc_eq_none_iff _).mpr ⟨(hall b hb).1, fun heq => hnew ?_⟩
        exact List.mem_map.mpr ⟨b, hb, heq.symm⟩
      · rw [List.append_assoc]
        rfl
  | .method m :: fs, own, own' => by
    have hattributes : (Feature.method m :: fs).filterMap Feature.attribute? =
        fs.filterMap Feature.attribute? := rfl
    have hmethods : (Feature.method m :: fs).filterMap Feature.method? =
        m :: fs.filterMap Feature.method? := rfl
    simp only [checkFeatures, checkFeature, Diagnosed.bind_eq_pure_iff, checkMethod_eq_pure_iff,
      checkFeatures_eq_pure_iff, hattributes, hmethods, List.forall_mem_cons, List.map_cons,
      List.nodup_cons]
    constructor
    · rintro ⟨_, ⟨hown, hm, rfl⟩, hattributes, hnodupAttributes, hall, hnodup, rfl⟩
      refine ⟨hattributes, hnodupAttributes, ⟨⟨hown, hm⟩, fun n hn => ?_⟩,
        ⟨fun hmem => ?_, hnodup⟩, ?_⟩
      · exact ⟨((method?_snoc_eq_none_iff _).mp (hall n hn).1).1, (hall n hn).2⟩
      · obtain ⟨n, hn, hnm⟩ := List.mem_map.mp hmem
        exact ((method?_snoc_eq_none_iff _).mp (hall n hn).1).2 hnm.symm
      · rw [List.append_assoc]
        rfl
    · rintro ⟨hattributes, hnodupAttributes, ⟨⟨hown, hm⟩, hall⟩, ⟨hnew, hnodup⟩, rfl⟩
      refine ⟨_, ⟨hown, hm, rfl⟩, hattributes, hnodupAttributes,
        fun n hn => ⟨?_, (hall n hn).2⟩, hnodup, ?_⟩
      · refine (method?_snoc_eq_none_iff _).mpr ⟨(hall n hn).1, fun heq => hnew ?_⟩
        exact List.mem_map.mpr ⟨n, hn, heq.symm⟩
      · rw [List.append_assoc]
        rfl

/-- The check reports nothing exactly if the class is well declared, and then finds what is
written. -/
theorem checkClass_eq_pure_iff :
    t.checkClass classes resolved c = pure own ↔
      c.WellDeclared t classes resolved ∧ own = c.signatures := by
  rw [checkClass, checkFeatures_eq_pure_iff]
  constructor
  · rintro ⟨hattributes, hnodupAttributes, hmethods, hnodupMethods, rfl⟩
    exact ⟨⟨fun a ha => (hattributes a ha).2, hnodupAttributes, fun m hm => (hmethods m hm).2,
      hnodupMethods⟩, rfl⟩
  · rintro ⟨⟨hattributes, hnodupAttributes, hmethods, hnodupMethods⟩, rfl⟩
    exact ⟨fun a ha => ⟨rfl, hattributes a ha⟩, hnodupAttributes,
      fun m hm => ⟨rfl, hmethods m hm⟩, hnodupMethods, rfl⟩

/-! ## What the check depends on -/

section Congr

variable (h : ∀ b ∈ (classes.ancestors a).map ClassInfo.name, t.find? b = t'.find? b)
include h

theorem lookupMethod?_congr : t.lookupMethod? classes a name = t'.lookupMethod? classes a name := by
  rw [lookupMethod?, lookupMethod?, ← List.head?_filterMap, ← List.head?_filterMap]
  refine congrArg List.head? (List.filterMap_congr fun info hinfo => ?_)
  rw [ownMethod?, ownMethod?, h info.name (List.mem_map_of_mem hinfo)]

theorem lookupAttribute?_congr :
    t.lookupAttribute? classes a name = t'.lookupAttribute? classes a name := by
  rw [lookupAttribute?, lookupAttribute?, ← List.head?_filterMap, ← List.head?_filterMap]
  refine congrArg List.head? (List.filterMap_congr fun info hinfo => ?_)
  rw [ownAttribute?, ownAttribute?, h info.name (List.mem_map_of_mem hinfo)]

end Congr

/-- Only the entries of the ancestors of the parent count. -/
theorem checkClass_congr
    (h : ∀ b ∈ (classes.ancestors c.parent).map ClassInfo.name, t.find? b = t'.find? b) :
    t.checkClass classes resolved c = t'.checkClass classes resolved c := by
  have hfeature : ∀ own f, t.checkFeature classes c resolved own f =
      t'.checkFeature classes c resolved own f := by
    intro own f
    cases f with
    | attr a =>
      rw [checkFeature, checkFeature, checkAttribute, checkAttribute, attributeDefect?,
        attributeDefect?, lookupAttribute?_congr h]
    | method m =>
      rw [checkFeature, checkFeature, checkMethod, checkMethod]
      simp only [agreedSignature, lookupMethod?_congr h]
  have hfeatures : ∀ fs own, t.checkFeatures classes c resolved own fs =
      t'.checkFeatures classes c resolved own fs := by
    intro fs
    induction fs with
    | nil => exact fun _ => rfl
    | cons f fs ih =>
      intro own
      rw [checkFeatures, checkFeatures, hfeature]
      exact congrArg _ (funext ih)
  exact hfeatures c.features .empty

end FeatureTable

end Cool
