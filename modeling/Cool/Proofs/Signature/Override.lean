import Cool.Proofs.Hierarchy.Resolved
import Cool.Proofs.Signature.World
import Cool.Proofs.Typing.Node

/-!
# Overriding

A method that does not agree with the one it overrides gets the overridden signature. So the
signatures of one name agree along every chain of ancestors, whatever is wrong with the program.

* `checkedSignature_cases` : the signature of a method is the one that is written, or the one that
  is overridden;
* `Program.ownMethod?_iff` : the methods that a class has of its own;
* `Program.agrees_of_parent`, `Program.exists_agrees_of_inherits` : signatures agree, from a class
  to its parent and to every ancestor;
* `Program.DeclaresMethod`, `Program.Nearest` : the nearest class of a chain with a method;
* `Program.lookupMethod?_ofProgram` : what is found for a class and its ancestors.
-/

namespace Cool

namespace MethodSig

variable {l m n : MethodSig}

theorem Agrees.refl (m : MethodSig) : m.Agrees m :=
  ⟨rfl, rfl⟩

theorem Agrees.trans (h : l.Agrees m) (h' : m.Agrees n) : l.Agrees n :=
  ⟨h.1.trans h'.1, h.2.trans h'.2⟩

/-- No formal parameter has the type `SELF_TYPE`. -/
def TakesClasses (m : MethodSig) : Prop :=
  ∀ f ∈ m.formals, f.type ≠ .selfType

end MethodSig

namespace FeatureTable

variable {t : FeatureTable} {classes : ClassTable} {c : ClassDecl} {own : ClassFeatures}
  {m : MethodSig} {d : Method} {a b name : String}

/-! ## The signature of a method -/

/-- The signature that the check of a method in a resolved class makes. -/
def checkedSignature (t : FeatureTable) (classes : ClassTable) (c : ClassDecl) (d : Method) :
    MethodSig :=
  (t.agreedSignature classes c d (writtenSignature classes c d).value).value

theorem name_of_lookupMethod? (h : t.lookupMethod? classes a name = some m) : m.name = name := by
  obtain ⟨info, -, hm⟩ := List.exists_of_findSome?_eq_some h
  exact name_of_ownMethod? hm

/-- A signature is the one that is written, if that agrees with what it overrides, or else the one
that it overrides. -/
theorem checkedSignature_cases (t : FeatureTable) (classes : ClassTable) (c : ClassDecl)
    (d : Method) :
    (t.checkedSignature classes c d = (writtenSignature classes c d).value ∧
      ∀ n, t.lookupMethod? classes c.parent d.name = some n →
        (writtenSignature classes c d).value.Agrees n) ∨
    ∃ n, t.lookupMethod? classes c.parent d.name = some n ∧
      t.checkedSignature classes c d = { n with owner := c.name } := by
  rw [checkedSignature, agreedSignature]
  cases t.lookupMethod? classes c.parent d.name with
  | none => exact Or.inl ⟨rfl, by rintro n ⟨⟩⟩
  | some n =>
    cases hdefect : (writtenSignature classes c d).value.overrideDefect? n with
    | none =>
      refine Or.inl ⟨by simp only [hdefect]; rfl, fun n' hn' => ?_⟩
      exact Option.some.inj hn' ▸ overrideDefect?_eq_none_iff.mp hdefect
    | some defect => exact Or.inr ⟨n, rfl, by simp only [hdefect]; rfl⟩

theorem name_checkedSignature : (t.checkedSignature classes c d).name = d.name := by
  rcases checkedSignature_cases t classes c d with ⟨h, -⟩ | ⟨n, hn, h⟩
  · rw [h]
    rfl
  · rw [h]
    show n.name = d.name
    exact name_of_lookupMethod? hn

theorem owner_checkedSignature : (t.checkedSignature classes c d).owner = c.name := by
  rcases checkedSignature_cases t classes c d with ⟨h, -⟩ | ⟨n, -, h⟩
  · rw [h]
    rfl
  · rw [h]

theorem checkedSignature_agrees {n : MethodSig}
    (hn : t.lookupMethod? classes c.parent d.name = some n) :
    (t.checkedSignature classes c d).Agrees n := by
  rcases checkedSignature_cases t classes c d with ⟨h, hagrees⟩ | ⟨n', hn', h⟩
  · rw [h]
    exact hagrees n hn
  · rw [hn'] at hn
    cases hn
    rw [h]
    exact .refl n

theorem formalType_ne_selfType (f : Formal) : (formalType classes c f).value ≠ .selfType := by
  unfold formalType
  rw [Diagnosed.value_bind]
  split_ifs with hself
  · exact nofun
  · intro h
    rw [Diagnosed.value_pure] at h
    exact hself (by rw [h]; rfl)

theorem value_checkFormals_cons (seen : List String) (f : Formal) (fs : List Formal) :
    (checkFormals classes c seen (f :: fs)).value =
      ⟨f.name, (formalType classes c f).value⟩ ::
        (checkFormals classes c (f.name :: seen) fs).value := by
  rw [checkFormals]
  cases formalDefect? seen f <;> rfl

theorem takesClasses_checkFormals : ∀ (fs : List Formal) (seen : List String),
    ∀ f ∈ (checkFormals classes c seen fs).value, f.type ≠ .selfType
  | [], _ => fun _ hf => absurd hf List.not_mem_nil
  | f :: fs, seen => by
    rw [value_checkFormals_cons]
    exact List.forall_mem_cons.mpr
      ⟨formalType_ne_selfType f, takesClasses_checkFormals fs (f.name :: seen)⟩

/-- No formal parameter of a signature has the type `SELF_TYPE`, if none has where the signature is
taken from. -/
theorem takesClasses_checkedSignature
    (h : ∀ n, t.lookupMethod? classes c.parent d.name = some n → n.TakesClasses) :
    (t.checkedSignature classes c d).TakesClasses := by
  rcases checkedSignature_cases t classes c d with ⟨hwritten, -⟩ | ⟨n, hn, hinherited⟩
  · rw [hwritten]
    exact takesClasses_checkFormals d.formals []
  · rw [hinherited]
    exact h n hn

theorem takesClasses_builtin : ∀ k ∈ Builtin.classes, ∀ d ∈ k.methods,
    (signature k.name d).TakesClasses := by
  unfold MethodSig.TakesClasses
  decide

/-! ## The methods of a class -/

theorem method?_snoc (sig : MethodSig) :
    ({ own with methods := own.methods ++ [sig] } : ClassFeatures).method? name =
      (own.method? name).or (if sig.name = name then some sig else none) := by
  rw [ClassFeatures.method?, List.find?_append]
  refine congrArg _ ?_
  by_cases h : sig.name = name <;> simp [h]

theorem methods_checkAttribute (a : Attribute) :
    (t.checkAttribute classes c true own a).value.methods = own.methods := by
  rw [checkAttribute]
  cases t.attributeDefect? classes c true own a <;> rfl

theorem method?_checkMethod :
    (t.checkMethod classes c true own d).value.method? name =
      (own.method? name).or
        (if d.name = name then some (t.checkedSignature classes c d) else none) := by
  rw [checkMethod]
  by_cases hseen : (own.method? d.name).isSome = true
  · rw [if_pos hseen]
    show own.method? name = _
    by_cases hname : d.name = name
    · obtain ⟨m, hm⟩ := Option.isSome_iff_exists.mp hseen
      rw [← hname, hm]
      rfl
    · rw [if_neg hname, Option.or_none]
  · rw [if_neg hseen]
    show ({ own with methods := own.methods ++ [t.checkedSignature classes c d] } :
      ClassFeatures).method? name = _
    rw [method?_snoc, name_checkedSignature]

/-- Of several methods of one name, the first counts. -/
theorem method?_checkFeatures : ∀ (fs : List Feature) (own : ClassFeatures),
    (t.checkFeatures classes c true own fs).value.method? name =
      (own.method? name).or
        (((fs.filterMap Feature.method?).find? fun d => d.name == name).map
          (t.checkedSignature classes c))
  | [], own => by
    rw [List.filterMap_nil, List.find?_nil, Option.map_none, Option.or_none]
    rfl
  | .attr a :: fs, own => by
    rw [checkFeatures, Diagnosed.value_bind, method?_checkFeatures fs, checkFeature,
      ClassFeatures.method?, methods_checkAttribute]
    rfl
  | .method d :: fs, own => by
    rw [checkFeatures, Diagnosed.value_bind, method?_checkFeatures fs, checkFeature,
      method?_checkMethod, Option.or_assoc]
    refine congrArg _ ?_
    rw [List.filterMap_cons_some (rfl : Feature.method? (.method d) = some d), List.find?_cons]
    by_cases hname : d.name = name
    · rw [if_pos hname, beq_iff_eq.mpr hname]
      rfl
    · rw [if_neg hname, beq_eq_false_iff_ne.mpr hname]
      rfl

theorem method?_checkClass :
    (t.checkClass classes true c).value.method? name =
      (c.methods.find? fun d => d.name == name).map (t.checkedSignature classes c) :=
  method?_checkFeatures c.features .empty

end FeatureTable

namespace Program

variable {p : Program} {a b name : String} {i : Nat} {c : ClassDecl} {m n : MethodSig}
  {l : List ClassInfo}

/-! ## Parents -/

/-- A class with a parent is basic, and inherits from `Object`, or the program declares it. -/
theorem cases_parentOf? (hp : p.classTable.parentOf? a = some b) :
    (∃ k ∈ Builtin.classes, k.name = a) ∧ b = Names.object ∨
      ∃ i c, p.Accepts i c ∧ c.name = a ∧ c.parent = b := by
  have hobject : ∀ k ∈ Builtin.classes, ∀ b ∈ k.parent, b = Names.object := by decide
  obtain ⟨info, hinfo, hparent⟩ := ClassTable.parentOf?_eq_some_iff.mp hp
  obtain ⟨hbasic | ⟨i, c, haccepts, rfl⟩, rfl⟩ := ClassTable.find?_ofProgram.mp hinfo
  · obtain ⟨k, hk, rfl⟩ := List.mem_map.mp hbasic
    exact Or.inl ⟨⟨k, hk, rfl⟩, hobject k hk b hparent⟩
  · exact Or.inr ⟨i, c, haccepts, rfl, Option.some.inj hparent⟩

theorem parentOf?_object (p : Program) : p.classTable.parentOf? Names.object = none := by
  obtain ⟨info, hinfo, hname, hparent⟩ := ClassTable.exists_object
  have hfind : p.classTable.find? Names.object = some info :=
    ClassTable.find?_ofProgram.mpr ⟨Or.inl hinfo, hname⟩
  rw [ClassTable.parentOf?_eq_of_find? hfind, hparent]

theorem mem_basic_of_mem_classes : ∀ k ∈ Builtin.classes, k.name ∈ Names.basic := by
  decide

theorem not_accepts_of_basic {k : BuiltinClass} (hk : k ∈ Builtin.classes)
    (hname : k.name = c.name) : ¬p.Accepts i c := fun haccepts =>
  FeatureTable.not_mem_basic_of_accepts haccepts (hname ▸ mem_basic_of_mem_classes k hk)

/-! ## What a class declares -/

/-- The methods that a class has of its own: those that are built in, or the first of each name in
its accepted declaration. -/
theorem ownMethod?_iff : p.featureTable.ownMethod? a name = some m ↔
    (∃ k ∈ Builtin.classes, k.name = a ∧ ∃ d ∈ k.methods, d.name = name ∧
      m = FeatureTable.signature a d) ∨
    ∃ i c, p.Accepts i c ∧ c.name = a ∧ p.classTable.isResolved a = true ∧
      ∃ d, (c.methods.find? fun d => d.name == name) = some d ∧
        m = p.featureTable.checkedSignature p.classTable c d := by
  rw [← FeatureTable.ownMethod?_basic_iff]
  constructor
  · intro h
    obtain ⟨own, hown, hm⟩ := Option.bind_eq_some_iff.mp h
    rcases FeatureTable.find?_ofProgram_iff.mp hown with hbasic | ⟨i, c, haccepts, hc, hr, rfl⟩
    · exact Or.inl (Option.bind_eq_some_iff.mpr ⟨own, hbasic, hm⟩)
    · rw [FeatureTable.method?_checkClass] at hm
      obtain ⟨d, hd, rfl⟩ := Option.map_eq_some_iff.mp hm
      exact Or.inr ⟨i, c, haccepts, hc, hr, d, hd, rfl⟩
  · rintro (h | ⟨i, c, haccepts, hc, hr, d, hd, rfl⟩)
    · obtain ⟨own, hown, hm⟩ := Option.bind_eq_some_iff.mp h
      exact Option.bind_eq_some_iff.mpr
        ⟨own, FeatureTable.find?_ofProgram_iff.mpr (Or.inl hown), hm⟩
    · refine Option.bind_eq_some_iff.mpr ⟨_, FeatureTable.find?_ofProgram_iff.mpr
        (Or.inr ⟨i, c, haccepts, hc, hr, rfl⟩), ?_⟩
      rw [FeatureTable.method?_checkClass, hd]
      rfl

theorem owner_of_ownMethod? (h : p.featureTable.ownMethod? a name = some m) : m.owner = a := by
  rcases ownMethod?_iff.mp h with ⟨k, -, rfl, d, -, -, rfl⟩ | ⟨i, c, -, rfl, -, d, -, rfl⟩
  · rfl
  · exact FeatureTable.owner_checkedSignature

/-- A class declares a method of this name: the method is built in, or it is written in the accepted
declaration of the class. -/
def DeclaresMethod (p : Program) (a name : String) : Prop :=
  (∃ k ∈ Builtin.classes, k.name = a ∧ ∃ d ∈ k.methods, d.name = name) ∨
    ∃ i c, p.Accepts i c ∧ c.name = a ∧ ∃ d ∈ c.methods, d.name = name

theorem declaresMethod_iff (hr : p.classTable.isResolved a = true) :
    p.DeclaresMethod a name ↔ ∃ m, p.featureTable.ownMethod? a name = some m := by
  constructor
  · rintro (⟨k, hk, rfl, d, hd, hname⟩ | ⟨i, c, haccepts, rfl, d, hd, rfl⟩)
    · exact ⟨_, ownMethod?_iff.mpr (Or.inl ⟨k, hk, rfl, d, hd, hname, rfl⟩)⟩
    · have hsome : (c.methods.find? fun e => e.name == d.name).isSome = true :=
        List.find?_isSome.mpr ⟨d, hd, beq_self_eq_true d.name⟩
      obtain ⟨e, he⟩ := Option.isSome_iff_exists.mp hsome
      exact ⟨_, ownMethod?_iff.mpr (Or.inr ⟨i, c, haccepts, rfl, hr, e, he, rfl⟩)⟩
  · rintro ⟨m, hm⟩
    rcases ownMethod?_iff.mp hm with
      ⟨k, hk, hname, d, hd, hd', -⟩ | ⟨i, c, haccepts, hc, -, d, hd, -⟩
    · exact Or.inl ⟨k, hk, hname, d, hd, hd'⟩
    · have hname : d.name = name := by simpa using List.find?_some hd
      exact Or.inr ⟨i, c, haccepts, hc, d, List.mem_of_find?_eq_some hd, hname⟩

/-! ## Chains -/

/-- A method agrees with that of the same name which the parent of its class has. -/
theorem agrees_of_parent (hr : p.classTable.isResolved a = true)
    (hp : p.classTable.parentOf? a = some b) (hm : p.featureTable.ownMethod? a name = some m)
    (hn : (World.ofTables p.classTable p.featureTable).Finds b name n) : m.Agrees n := by
  have hs := ClassTable.sound_ofProgram p
  rcases ownMethod?_iff.mp hm with
    ⟨k, hk, rfl, d, hd, hd', rfl⟩ | ⟨i, c, haccepts, rfl, -, d, hd, rfl⟩
  · -- basic classes override nothing
    have hnone : ∀ k ∈ Builtin.classes, k.name ≠ Names.object → ∀ d ∈ k.methods,
        ∀ l ∈ Builtin.classes, l.name = Names.object → ∀ e ∈ l.methods, e.name ≠ d.name := by
      decide
    have hne : k.name ≠ Names.object := by
      intro heq
      rw [heq, parentOf?_object] at hp
      cases hp
    rcases cases_parentOf? hp with ⟨-, rfl⟩ | ⟨i, c, haccepts, hc, -⟩
    · cases hn with
      | own hn =>
        rcases ownMethod?_iff.mp hn with ⟨l, hl, hobject, e, he, hname, -⟩ | ⟨i, c, haccepts, hc, -⟩
        · exact absurd (hname.trans hd'.symm) (hnone k hk hne d hd l hl hobject e he)
        · obtain ⟨o, ho, hobject⟩ : ∃ o ∈ Builtin.classes, o.name = Names.object := by decide
          exact absurd haccepts (not_accepts_of_basic ho (hobject.trans hc.symm))
      | inherited _ hparent _ =>
        have hparent : p.classTable.parentOf? Names.object = some _ := hparent
        rw [parentOf?_object] at hparent
        cases hparent
    · exact absurd haccepts (not_accepts_of_basic hk hc.symm)
  · rw [FeatureTable.parentOf?_of_accepts haccepts] at hp
    obtain rfl : c.parent = b := Option.some.inj hp
    obtain rfl : d.name = name := by simpa using List.find?_some hd
    have hparent := hs.parent _ _ hr (FeatureTable.parentOf?_of_accepts haccepts)
    exact FeatureTable.checkedSignature_agrees
      ((FeatureTable.lookupMethod?_eq_some_iff hs hparent).mpr hn)

/-- A class has every method of its ancestors, with a signature that agrees. -/
theorem exists_agrees_of_inherits (hr : p.classTable.isResolved a = true)
    (hab : p.classTable.Inherits a b)
    (hm : (World.ofTables p.classTable p.featureTable).Finds b name m) :
    ∃ n, (World.ofTables p.classTable p.featureTable).Finds a name n ∧ n.Agrees m := by
  induction hab using Relation.ReflTransGen.head_induction_on with
  | refl => exact ⟨m, hm, .refl m⟩
  | @head a c hac hcb ih =>
    obtain ⟨n, hn, hagrees⟩ := ih ((ClassTable.sound_ofProgram p).parent a c hr hac)
    cases hown : p.featureTable.ownMethod? a name with
    | none => exact ⟨n, (FeatureTable.finds_iff_of_none hown).mpr ⟨c, hac, hn⟩, hagrees⟩
    | some o =>
      exact ⟨o, (FeatureTable.finds_iff_of_some hown).mpr rfl,
        (agrees_of_parent hr hac hown hn).trans hagrees⟩

/-- No method of a class takes a value of type `SELF_TYPE`, if none of its parent does. -/
theorem takesClasses_of_parent (hr : p.classTable.isResolved a = true)
    (hparent : ∀ b n, p.classTable.parentOf? a = some b →
      (World.ofTables p.classTable p.featureTable).Finds b name n → n.TakesClasses)
    (hm : (World.ofTables p.classTable p.featureTable).Finds a name m) : m.TakesClasses := by
  have hs := ClassTable.sound_ofProgram p
  cases hown : p.featureTable.ownMethod? a name with
  | none =>
    obtain ⟨b, hb, hm⟩ := (FeatureTable.finds_iff_of_none hown).mp hm
    exact hparent b m hb hm
  | some o =>
    obtain rfl := (FeatureTable.finds_iff_of_some hown).mp hm
    rcases ownMethod?_iff.mp hown with
      ⟨k, hk, rfl, d, hd, -, rfl⟩ | ⟨i, c, haccepts, rfl, -, d, hd, rfl⟩
    · exact FeatureTable.takesClasses_builtin k hk d hd
    · obtain rfl : d.name = name := by simpa using List.find?_some hd
      have hp := FeatureTable.parentOf?_of_accepts haccepts
      exact FeatureTable.takesClasses_checkedSignature fun n hn => hparent _ n hp
        ((FeatureTable.lookupMethod?_eq_some_iff hs (hs.parent _ _ hr hp)).mp hn)

theorem takesClasses_of_finds (h : p.classTable.IsChain a l)
    (hr : p.classTable.isResolved a = true)
    (hm : (World.ofTables p.classTable p.featureTable).Finds a name m) : m.TakesClasses := by
  induction h generalizing m with
  | root hinfo hp =>
    refine takesClasses_of_parent hr (fun b n hb => ?_) hm
    rw [ClassTable.parentOf?_eq_of_find? hinfo, hp] at hb
    cases hb
  | child hinfo hp hl ih =>
    refine takesClasses_of_parent hr (fun b n hb hn => ?_) hm
    have hb' := hb
    rw [ClassTable.parentOf?_eq_of_find? hinfo, hp] at hb'
    cases hb'
    exact ih ((ClassTable.sound_ofProgram p).parent _ _ hr hb) hn

/-- The class is the first of a chain that declares a method of this name. -/
def Nearest (p : Program) (chain : List ClassInfo) (name owner : String) : Prop :=
  ∃ above info below, chain = above ++ info :: below ∧ info.name = owner ∧
    p.DeclaresMethod owner name ∧ ∀ c ∈ above, ¬p.DeclaresMethod c.name name

theorem nearest_of_lookupMethod? (hr : p.classTable.isResolved a = true)
    (hm : p.featureTable.lookupMethod? p.classTable a name = some m) :
    p.Nearest (p.classTable.ancestors a) name m.owner := by
  have hs := ClassTable.sound_ofProgram p
  have hresolved : ∀ c ∈ p.classTable.ancestors a, p.classTable.isResolved c.name = true :=
    (hs.wholeChain hr).resolved
  obtain ⟨above, info, below, hsplit, hown, hfirst⟩ := List.findSome?_eq_some_iff.mp hm
  rw [hsplit] at hresolved
  refine ⟨above, info, below, hsplit, (owner_of_ownMethod? hown).symm, ?_, fun c hc => ?_⟩
  · rw [owner_of_ownMethod? hown]
    exact (declaresMethod_iff (hresolved info (by simp))).mpr ⟨m, hown⟩
  · rw [declaresMethod_iff (hresolved c (by simp [hc])), hfirst c hc]
    exact nofun

end Program

/-! ## Calls -/

namespace Context

variable {Γ : Context} {span : Span} {receiver receiver' : Ty} {start start' method : String}
  {args : List Ty} {m n : MethodSig}

/-- Of the signature of the method, a call needs the types of the formal parameters. -/
theorem reports_callType_eq_nil_iff (hr : Γ.classes.isResolved start = true) :
    (Γ.callType span receiver start method args).reports = [] ↔
      ∃ m, Γ.features.lookupMethod? Γ.classes start method = some m ∧
        args.length = m.formals.length ∧
          ∀ x ∈ args.zip (m.formals.map FormalSig.type), Γ.conforms span x.1 x.2 = pure true := by
  rw [callType, if_pos hr]
  cases Γ.features.lookupMethod? Γ.classes start method with
  | none =>
    refine ⟨fun h => absurd h (List.cons_ne_nil _ _), ?_⟩
    rintro ⟨_, ⟨⟩, _⟩
  | some m =>
    simp only [Option.some.injEq, exists_eq_left']
    by_cases hlen : args.length = m.formals.length
    · rw [if_neg (not_not.mpr hlen), Diagnosed.reports_bind, List.append_eq_nil_iff]
      have hargs : (Γ.checkArguments span method (args.zip m.formals)).reports = [] ↔
          ∀ x ∈ args.zip m.formals, Γ.conforms span x.1 x.2.type = pure true := by
        rw [← checkArguments_eq_pure_iff_conforms (u := ()), Diagnosed.eq_pure_iff]
        exact (and_iff_right rfl).symm
      rw [hargs, List.zip_map_right]
      simp only [List.mem_map, forall_exists_index, and_imp, forall_apply_eq_imp_iff₂]
      exact ⟨fun h => ⟨hlen, h.1⟩, fun h => ⟨h.2, rfl⟩⟩
    · rw [if_pos hlen]
      exact ⟨fun h => absurd h (List.cons_ne_nil _ _), fun h => absurd h.1 hlen⟩

/-- A call that is sound for one class is sound for another with a method that agrees. -/
theorem reports_callType_of_agrees (hr : Γ.classes.isResolved start = true)
    (hr' : Γ.classes.isResolved start' = true)
    (hagrees : ∀ m, Γ.features.lookupMethod? Γ.classes start method = some m →
      ∃ n, Γ.features.lookupMethod? Γ.classes start' method = some n ∧ n.Agrees m)
    (h : (Γ.callType span receiver start method args).reports = []) :
    (Γ.callType span receiver' start' method args).reports = [] := by
  obtain ⟨m, hm, hlen, hargs⟩ := (reports_callType_eq_nil_iff hr).mp h
  obtain ⟨n, hn, htypes, -⟩ := hagrees m hm
  refine (reports_callType_eq_nil_iff hr').mpr ⟨n, hn, ?_, htypes ▸ hargs⟩
  rw [hlen]
  simpa using (congrArg List.length htypes).symm

end Context

/-- Whatever is wrong with a program, a resolved class has each method that one of its ancestors
has, with as many formal parameters of the same types and with the same type of the value returned.
The method is that of the nearest class that declares it, and none of its formal parameters has the
type `SELF_TYPE`. So a call that is sound on the ancestor is sound on the class. -/
theorem Program.lookupMethod?_ofProgram (p : Program) {a b : String}
    (ha : p.classTable.isResolved a = true)
    (hb : b ∈ (p.classTable.ancestors a).map ClassInfo.name) (name : String) :
    (∀ m, p.featureTable.lookupMethod? p.classTable b name = some m →
      ∃ n, p.featureTable.lookupMethod? p.classTable a name = some n ∧
        n.formals.length = m.formals.length ∧
        n.formals.map FormalSig.type = m.formals.map FormalSig.type ∧
        n.returnType = m.returnType) ∧
    (∀ n, p.featureTable.lookupMethod? p.classTable a name = some n →
      p.Nearest (p.classTable.ancestors a) name n.owner ∧ n.TakesClasses) ∧
    ∀ (enclosing file : String) (span : Span) (receiver receiver' : Ty) (args : List Ty),
      (Context.callType ⟨p.classTable, p.featureTable, enclosing, file⟩ span receiver b name
        args).reports = [] →
      (Context.callType ⟨p.classTable, p.featureTable, enclosing, file⟩ span receiver' a name
        args).reports = [] := by
  have hs := ClassTable.sound_ofProgram p
  have hab := (hs.mem_ancestors_iff ha).mp hb
  have hb := hs.isResolved_of_inherits ha hab
  have hagrees : ∀ m, p.featureTable.lookupMethod? p.classTable b name = some m →
      ∃ n, p.featureTable.lookupMethod? p.classTable a name = some n ∧ n.Agrees m := by
    intro m hm
    obtain ⟨n, hn, hagrees⟩ :=
      exists_agrees_of_inherits ha hab ((FeatureTable.lookupMethod?_eq_some_iff hs hb).mp hm)
    exact ⟨n, (FeatureTable.lookupMethod?_eq_some_iff hs ha).mpr hn, hagrees⟩
  refine ⟨fun m hm => ?_, fun n hn => ⟨nearest_of_lookupMethod? ha hn, ?_⟩, ?_⟩
  · obtain ⟨n, hn, htypes, hreturn⟩ := hagrees m hm
    exact ⟨n, hn, by simpa using congrArg List.length htypes, htypes, hreturn⟩
  · obtain ⟨l, hl⟩ := hs.chain a ha
    exact takesClasses_of_finds hl ha ((FeatureTable.lookupMethod?_eq_some_iff hs ha).mp hn)
  · intro enclosing file span receiver receiver' args
    exact Context.reports_callType_of_agrees hb ha hagrees

/-- A class whose method disagrees with the one it overrides, and its heir. -/
def Sample.overriding : Program :=
  ⟨[⟨"A", "Object", [.method ⟨"m", [⟨"x", "Int", default⟩], "SELF_TYPE",
      .object (.untyped default) "self", default⟩], "", default⟩,
    ⟨"B", "A", [.method ⟨"m", [⟨"y", "SELF_TYPE", default⟩, ⟨"z", "F", default⟩], "Int",
      .int (.untyped default) 0, default⟩], "", default⟩,
    ⟨"C", "B", [], "", default⟩]⟩

/-- The heir of the class with the wrong method can be called as the class that is overridden. -/
theorem Program.lookupMethod?_ofProgram_overriding :
    Sample.overriding.classTable.isResolved "C" = true ∧
      "A" ∈ (Sample.overriding.classTable.ancestors "C").map ClassInfo.name ∧
      (FeatureTable.ofProgram Sample.overriding Sample.overriding.classTable).reports ≠ [] ∧
      ∃ n, Sample.overriding.featureTable.lookupMethod? Sample.overriding.classTable "C" "m" =
          some n ∧ n.formals.map FormalSig.type = [.int] ∧ n.returnType = .selfType ∧
        Sample.overriding.Nearest (Sample.overriding.classTable.ancestors "C") "m" n.owner := by
  have hc : Sample.overriding.classTable.isResolved "C" = true := by decide +kernel
  have ha : "A" ∈ (Sample.overriding.classTable.ancestors "C").map ClassInfo.name := by
    decide +kernel
  obtain ⟨hagrees, hnearest, -⟩ := lookupMethod?_ofProgram Sample.overriding hc ha "m"
  obtain ⟨n, hn, -, htypes, hreturn⟩ :=
    hagrees ⟨"m", [⟨"x", .int⟩], .selfType, "A"⟩ (by decide +kernel)
  exact ⟨hc, ha, by decide +kernel, n, hn, htypes, hreturn, (hnearest n hn).1⟩

end Cool
