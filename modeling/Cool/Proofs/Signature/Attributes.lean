import Cool.Proofs.Signature.Override
import Cool.Proofs.Typing.Scopes

/-!
# Attributes

The attributes of a class can be listed, looked up by name, and seen in a scope. The list begins
with the farthest ancestor, the look-up with the class itself, and in the scope a later attribute
would hide an earlier one; so they say the same only because no class has two attributes of one
name. The check of a class sees to that, for its own attributes and against those that it inherits.
A class that is not resolved has no attributes at all.

* `FeatureTable.lookupAttribute?_eq_none_iff`, `FeatureTable.mem_of_lookupAttribute?` : the look-up
  and the list, in any table;
* `FeatureTable.NewAttributes` : what the check of a class keeps true of its attributes;
* `visibleAttributes_of_parent`, `visibleAttributes_of_not_isResolved` : the list of a class;
* `Program.attributes_ofProgram` : list, look-up and scope of every class agree.
-/

namespace Cool

/-- Attributes of different names, none of which is `self`. -/
structure AttributeSig.Distinct (l : List AttributeSig) : Prop where
  nodup : (l.map AttributeSig.name).Nodup
  ne_self : ∀ a ∈ l, a.name ≠ Names.self

namespace AttributeSig

variable {k l : List AttributeSig} {a b : AttributeSig}

theorem distinct_nil : Distinct [] :=
  ⟨List.nodup_nil, fun _ h => absurd h List.not_mem_nil⟩

theorem Distinct.append (hk : Distinct k) (hl : Distinct l)
    (hnew : ∀ a ∈ l, ∀ b ∈ k, b.name ≠ a.name) : Distinct (k ++ l) where
  nodup := by
    rw [List.map_append]
    refine List.nodup_append.mpr ⟨hk.nodup, hl.nodup, ?_⟩
    intro x hx y hy
    obtain ⟨b, hb, rfl⟩ := List.mem_map.mp hx
    obtain ⟨a, ha, rfl⟩ := List.mem_map.mp hy
    exact hnew a ha b hb
  ne_self := fun a ha => (List.mem_append.mp ha).elim (hk.ne_self a) (hl.ne_self a)

/-- The name tells which attribute it is. -/
theorem Distinct.eq_of_name (h : Distinct l) (ha : a ∈ l) (hb : b ∈ l) (hname : a.name = b.name) :
    a = b :=
  List.inj_on_of_nodup_map h.nodup ha hb hname

end AttributeSig

/-- In a scope, attributes of different names have their types. -/
theorem Scope.lookup?_foldl_declare_of_mem {x : AttributeSig} :
    ∀ {l : List AttributeSig} (σ : Scope), AttributeSig.Distinct l → x ∈ l →
      (l.foldl (fun s a => s.declare a.name a.type) σ).lookup? x.name = some x.type
  | [], _, _, hx => absurd hx List.not_mem_nil
  | a :: l, σ, h, hx => by
    obtain ⟨hfirst, hnodup⟩ := List.nodup_cons.mp h.nodup
    rw [List.foldl_cons]
    rcases List.mem_cons.mp hx with rfl | hx
    · rw [lookup?_foldl_declare_of_ne, lookup?_declare σ x.type (h.ne_self x List.mem_cons_self)]
      exact fun b hb heq => hfirst (heq ▸ List.mem_map_of_mem hb)
    · exact lookup?_foldl_declare_of_mem _
        ⟨hnodup, fun b hb => h.ne_self b (List.mem_cons_of_mem a hb)⟩ hx

namespace FeatureTable

variable {t : FeatureTable} {classes : ClassTable} {c : ClassDecl} {own : ClassFeatures}
  {a : AttributeSig} {name x : String}

/-! ## List and look-up -/

theorem mem_of_lookupAttribute? (h : t.lookupAttribute? classes name x = some a) :
    a ∈ t.visibleAttributes classes name ∧ a.name = x := by
  obtain ⟨info, hinfo, ha⟩ := List.exists_of_findSome?_eq_some h
  obtain ⟨own, hown, ha⟩ := Option.bind_eq_some_iff.mp ha
  have hname : a.name = x := by simpa using List.find?_some ha
  refine ⟨List.mem_flatMap.mpr ⟨info, List.mem_reverse.mpr hinfo, ?_⟩, hname⟩
  rw [hown]
  exact List.mem_of_find?_eq_some ha

theorem ownAttribute?_eq_none_iff : t.ownAttribute? name x = none ↔
    ∀ a ∈ (t.find? name).elim [] ClassFeatures.attributes, a.name ≠ x := by
  rw [ownAttribute?]
  cases t.find? name with
  | none => exact ⟨fun _ _ ha => absurd ha List.not_mem_nil, fun _ => rfl⟩
  | some own =>
    rw [Option.bind_some, ClassFeatures.attribute?, List.find?_eq_none]
    simp only [beq_iff_eq, Option.elim_some, ne_eq]

theorem lookupAttribute?_eq_none_iff : t.lookupAttribute? classes name x = none ↔
    ∀ a ∈ t.visibleAttributes classes name, a.name ≠ x := by
  rw [lookupAttribute?, List.findSome?_eq_none_iff]
  simp only [ownAttribute?_eq_none_iff, visibleAttributes, List.mem_flatMap, List.mem_reverse]
  constructor
  · rintro h a ⟨info, hinfo, ha⟩
    exact h info hinfo a ha
  · exact fun h info hinfo a ha => h a ⟨info, hinfo, ha⟩

/-- Of attributes with different names, the look-up finds the one that has the name. -/
theorem lookupAttribute?_eq_some_iff
    (h : AttributeSig.Distinct (t.visibleAttributes classes name)) :
    t.lookupAttribute? classes name x = some a ↔
      a ∈ t.visibleAttributes classes name ∧ a.name = x := by
  refine ⟨mem_of_lookupAttribute?, fun ⟨ha, hname⟩ => ?_⟩
  cases hfind : t.lookupAttribute? classes name x with
  | none => exact absurd hname (lookupAttribute?_eq_none_iff.mp hfind a ha)
  | some b =>
    obtain ⟨hb, hname'⟩ := mem_of_lookupAttribute? hfind
    rw [h.eq_of_name hb ha (hname'.trans hname.symm)]

/-- In the scope of a class, a variable has the type of the attribute that is looked up. -/
theorem lookup?_forClass (h : AttributeSig.Distinct (t.visibleAttributes classes name))
    (hx : x ≠ Names.self) :
    (Scope.forClass classes t name).lookup? x =
      (t.lookupAttribute? classes name x).map AttributeSig.type := by
  cases hfind : t.lookupAttribute? classes name x with
  | none =>
    have hnone := lookupAttribute?_eq_none_iff.mp hfind
    rw [Scope.forClass, Scope.lookup?_foldl_declare_of_ne _ fun a ha => (hnone a ha).symm]
    simp [Scope.empty, Scope.lookup?, hx]
  | some a =>
    obtain ⟨ha, rfl⟩ := mem_of_lookupAttribute? hfind
    exact Scope.lookup?_foldl_declare_of_mem .empty h ha

/-! ## The attributes that a check makes -/

/-- The attributes of a class so far are distinct, and none is inherited from its parent. -/
structure NewAttributes (t : FeatureTable) (classes : ClassTable) (parent : String)
    (own : ClassFeatures) : Prop where
  distinct : AttributeSig.Distinct own.attributes
  new : ∀ a ∈ own.attributes, t.lookupAttribute? classes parent a.name = none

theorem newAttributes_checkAttribute (a : Attribute)
    (h : t.NewAttributes classes c.parent own) :
    t.NewAttributes classes c.parent (t.checkAttribute classes c true own a).value := by
  rw [checkAttribute]
  cases hdefect : t.attributeDefect? classes c true own a with
  | some defect => exact h
  | none =>
    obtain ⟨hself, hown, hnew⟩ := attributeDefect?_eq_none_iff.mp hdefect
    have hother : ∀ b ∈ own.attributes, b.name ≠ a.name := by
      simpa [ClassFeatures.attribute?] using hown
    refine ⟨h.distinct.append ⟨List.nodup_singleton _, ?_⟩ ?_, ?_⟩
    · exact List.forall_mem_singleton.mpr hself
    · exact List.forall_mem_singleton.mpr hother
    · intro b hb
      rcases List.mem_append.mp hb with hb | hb
      · exact h.new b hb
      · rw [List.mem_singleton.mp hb]
        exact hnew rfl

theorem attributes_checkMethod {resolved : Bool} (m : Method) :
    (t.checkMethod classes c resolved own m).value.attributes = own.attributes := by
  rw [checkMethod]
  split_ifs <;> rfl

theorem newAttributes_checkFeatures : ∀ (fs : List Feature) {own : ClassFeatures},
    t.NewAttributes classes c.parent own →
      t.NewAttributes classes c.parent (t.checkFeatures classes c true own fs).value
  | [], _, h => h
  | .attr a :: fs, _, h => newAttributes_checkFeatures fs (newAttributes_checkAttribute a h)
  | .method m :: fs, own, h => by
    have hmethods : (t.checkFeature classes c true own (.method m)).value.attributes =
        own.attributes := attributes_checkMethod m
    refine newAttributes_checkFeatures fs ⟨?_, ?_⟩
    · exact hmethods ▸ h.distinct
    · exact hmethods ▸ h.new

theorem newAttributes_checkClass (t : FeatureTable) (classes : ClassTable) (c : ClassDecl) :
    t.NewAttributes classes c.parent (t.checkClass classes true c).value :=
  newAttributes_checkFeatures c.features
    ⟨AttributeSig.distinct_nil, fun _ h => absurd h List.not_mem_nil⟩

end FeatureTable

namespace Program

variable {p : Program} {a b x : String} {s : AttributeSig} {l : List ClassInfo}

/-! ## The attributes of a class -/

/-- A class that declares an attribute is accepted and resolved, and not basic. -/
theorem exists_accepts_of_mem_attributes
    (hs : s ∈ (p.featureTable.find? a).elim [] ClassFeatures.attributes) :
    ∃ i c, p.Accepts i c ∧ c.name = a ∧ p.classTable.isResolved a = true ∧
      p.featureTable.find? a = some (p.featureTable.checkClass p.classTable true c).value := by
  cases hfind : p.featureTable.find? a with
  | none =>
    rw [hfind] at hs
    exact absurd hs List.not_mem_nil
  | some own =>
    rw [hfind] at hs
    rcases FeatureTable.find?_ofProgram_iff.mp hfind with hbasic | ⟨i, c, hc, hname, hr, rfl⟩
    · have hnone : ∀ entry ∈ FeatureTable.basic.entries, entry.2.attributes = [] := by decide
      obtain ⟨entry, hentry, rfl⟩ := Option.map_eq_some_iff.mp hbasic
      have hs : s ∈ entry.2.attributes := hs
      rw [hnone entry (List.mem_of_find?_eq_some hentry)] at hs
      exact absurd hs List.not_mem_nil
    · exact ⟨i, c, hc, hname, hr, rfl⟩

/-- The attributes of a class are those of its parent and its own. -/
theorem visibleAttributes_of_parent (hr : p.classTable.isResolved a = true)
    (hp : p.classTable.parentOf? a = some b) :
    p.featureTable.visibleAttributes p.classTable a =
      p.featureTable.visibleAttributes p.classTable b ++
        (p.featureTable.find? a).elim [] ClassFeatures.attributes := by
  obtain ⟨l, hl⟩ := (ClassTable.sound_ofProgram p).chain a hr
  cases hl with
  | root hfind hnone =>
    rw [ClassTable.parentOf?_eq_of_find? hfind, hnone] at hp
    cases hp
  | @child _ c info l hfind hparent hl =>
    rw [ClassTable.parentOf?_eq_of_find? hfind, hparent] at hp
    cases hp
    rw [FeatureTable.visibleAttributes, FeatureTable.visibleAttributes,
      ClassTable.ancestors_eq_of_isChain hl,
      ClassTable.ancestors_eq_of_isChain (.child hfind hparent hl), List.reverse_cons,
      List.flatMap_append, List.flatMap_singleton, ClassTable.name_of_find? hfind]

/-- What a class declares itself is distinct, and different from what it inherits. -/
theorem newAttributes_own (hp : p.classTable.parentOf? a = some b) :
    AttributeSig.Distinct ((p.featureTable.find? a).elim [] ClassFeatures.attributes) ∧
      ∀ s ∈ (p.featureTable.find? a).elim [] ClassFeatures.attributes,
        p.featureTable.lookupAttribute? p.classTable b s.name = none := by
  by_cases hnil : (p.featureTable.find? a).elim [] ClassFeatures.attributes = []
  · rw [hnil]
    exact ⟨AttributeSig.distinct_nil, fun _ h => absurd h List.not_mem_nil⟩
  · obtain ⟨s, hs⟩ := List.exists_mem_of_ne_nil _ hnil
    obtain ⟨i, c, haccepts, rfl, -, hfind⟩ := exists_accepts_of_mem_attributes hs
    rw [FeatureTable.parentOf?_of_accepts haccepts] at hp
    obtain rfl := Option.some.inj hp
    have hnew := FeatureTable.newAttributes_checkClass p.featureTable p.classTable c
    rw [hfind]
    exact ⟨hnew.distinct, hnew.new⟩

/-- The parent of a class that is not resolved is neither, or it is basic; and then a class inherits
from it that must not. -/
theorem not_isResolved_of_parent (h : a ∈ Names.basic ∨ p.classTable.isResolved a = false)
    (hp : p.classTable.parentOf? a = some b) :
    b ∈ Names.basic ∨ p.classTable.isResolved b = false := by
  rcases cases_parentOf? hp with ⟨-, rfl⟩ | ⟨i, c, haccepts, rfl, rfl⟩
  · exact Or.inl (by decide)
  · by_cases hbasic : c.parent ∈ Names.basic
    · exact Or.inl hbasic
    · refine Or.inr (Bool.eq_false_iff.mpr fun hb => ?_)
      have hc := h.resolve_left (FeatureTable.not_mem_basic_of_accepts haccepts)
      have hwell := ClassTable.isResolved_ofProgram_iff.mp hb
      -- the chain of the class is sound, because that of its parent is
      have hcontains := ClassTable.contains_of_parentOf? hp
      refine Bool.eq_false_iff.mp hc (ClassTable.isResolved_ofProgram_iff.mpr
        ⟨hcontains, .head hp hwell.inherits, fun d info hcd hinfo hdeclared parent hparent => ?_⟩)
      rcases hcd.cases_parent hp with rfl | hbd
      · have heq : parent = c.parent := by
          have hpd := ClassTable.parentOf?_eq_of_find? hinfo
          rw [hp, Option.mem_def.mp hparent] at hpd
          exact (Option.some.inj hpd).symm
        rw [heq]
        have hsub : ∀ a ∈ Names.values, a ∈ Names.basic := by decide
        refine ⟨fun hvalue => hbasic (hsub _ hvalue), fun hself => ?_⟩
        obtain ⟨info', hinfo'⟩ := Option.isSome_iff_exists.mp hwell.contains
        obtain ⟨hmem | ⟨j, d, hd, rfl⟩, hname⟩ := ClassTable.find?_ofProgram.mp hinfo'
        · have hsub : ∀ info ∈ ClassTable.basic.classes, info.name ∈ Names.basic := by decide
          exact hbasic (hname ▸ hsub info' hmem)
        · have hreserved := hd.2.1
          have hname : d.name = Names.selfType := hname.trans hself
          simp [ClassTable.isReserved, hname] at hreserved
      · exact hwell.legal d info hbd hinfo hdeclared parent hparent

theorem not_isResolved_of_mem_chain : ∀ (n : Nat) {a : String},
    (a ∈ Names.basic ∨ p.classTable.isResolved a = false) →
      ∀ info ∈ p.classTable.chain n a,
        info.name ∈ Names.basic ∨ p.classTable.isResolved info.name = false
  | 0, _, _, _, hinfo => absurd hinfo List.not_mem_nil
  | n + 1, a, h, info, hinfo => by
    rw [ClassTable.chain] at hinfo
    cases hfind : p.classTable.find? a with
    | none =>
      rw [hfind] at hinfo
      exact absurd hinfo List.not_mem_nil
    | some first =>
      have hfirst : first.name ∈ Names.basic ∨ p.classTable.isResolved first.name = false := by
        rw [ClassTable.name_of_find? hfind]
        exact h
      simp only [hfind] at hinfo
      cases hparent : first.parent with
      | none =>
        simp only [hparent, List.mem_singleton] at hinfo
        exact hinfo ▸ hfirst
      | some b =>
        simp only [hparent, List.mem_cons] at hinfo
        rcases hinfo with rfl | hinfo
        · exact hfirst
        · have hp := (ClassTable.parentOf?_eq_of_find? hfind).trans hparent
          exact not_isResolved_of_mem_chain n (not_isResolved_of_parent h hp) info hinfo

/-- A class that is not resolved has no attributes, of its own or inherited. -/
theorem visibleAttributes_of_not_isResolved (h : p.classTable.isResolved a = false) :
    p.featureTable.visibleAttributes p.classTable a = [] := by
  refine List.flatMap_eq_nil_iff.mpr fun info hinfo => List.eq_nil_iff_forall_not_mem.mpr ?_
  intro s hs
  obtain ⟨i, c, haccepts, hname, hr, -⟩ := exists_accepts_of_mem_attributes hs
  rcases not_isResolved_of_mem_chain _ (Or.inr h) info (List.mem_reverse.mp hinfo) with hbasic | h
  · exact FeatureTable.not_mem_basic_of_accepts haccepts (hname ▸ hbasic)
  · rw [hr] at h
    cases h

/-- The attributes of a class have different names: those of a resolved one by induction on the
chain of its ancestors, each of which adds names that the others do not have. -/
theorem distinct_visibleAttributes (p : Program) (a : String) :
    AttributeSig.Distinct (p.featureTable.visibleAttributes p.classTable a) := by
  cases hr : p.classTable.isResolved a with
  | false =>
    rw [visibleAttributes_of_not_isResolved hr]
    exact AttributeSig.distinct_nil
  | true =>
    obtain ⟨l, hl⟩ := (ClassTable.sound_ofProgram p).chain a hr
    induction hl with
    | @root a info hfind hnone =>
      have hobject := (ClassTable.sound_ofProgram p).root a info hfind hnone
      have hown : (p.featureTable.find? a).elim [] ClassFeatures.attributes = [] := by
        refine List.eq_nil_iff_forall_not_mem.mpr fun s hs => ?_
        obtain ⟨i, c, haccepts, hname, -⟩ := exists_accepts_of_mem_attributes hs
        refine FeatureTable.not_mem_basic_of_accepts haccepts ?_
        rw [hname, hobject]
        decide
      rw [FeatureTable.visibleAttributes, ClassTable.ancestors_eq_of_isChain (.root hfind hnone),
        List.reverse_singleton, List.flatMap_singleton, ClassTable.name_of_find? hfind, hown]
      exact AttributeSig.distinct_nil
    | @child a b info l hfind hparent hl ih =>
      have hp : p.classTable.parentOf? a = some b :=
        (ClassTable.parentOf?_eq_of_find? hfind).trans hparent
      obtain ⟨hown, hnew⟩ := newAttributes_own hp
      rw [visibleAttributes_of_parent hr hp]
      refine (ih ((ClassTable.sound_ofProgram p).parent a b hr hp)).append hown fun s hs => ?_
      exact FeatureTable.lookupAttribute?_eq_none_iff.mp (hnew s hs)

/-- A resolved class has the attributes of its ancestors. -/
theorem mem_visibleAttributes_of_inherits (hr : p.classTable.isResolved a = true)
    (hab : p.classTable.Inherits a b)
    (hs : s ∈ p.featureTable.visibleAttributes p.classTable b) :
    s ∈ p.featureTable.visibleAttributes p.classTable a := by
  induction hab using Relation.ReflTransGen.head_induction_on with
  | refl => exact hs
  | @head a c hac hcb ih =>
    rw [visibleAttributes_of_parent hr hac]
    exact List.mem_append_left _ (ih ((ClassTable.sound_ofProgram p).parent a c hr hac))

end Program

/-- Whatever is wrong with a program, the attributes of a class have different names, none of which
is `self`; the one that is looked up is the one of the list that has the name; and in the scope of
the class a variable other than `self` has the type of that attribute, or is unknown if there is
none. A resolved class has every attribute of its ancestors, with the type and the owner that it has
there. -/
theorem Program.attributes_ofProgram (p : Program) (a : String) :
    ((p.featureTable.visibleAttributes p.classTable a).map AttributeSig.name).Nodup ∧
    (∀ s ∈ p.featureTable.visibleAttributes p.classTable a, s.name ≠ Names.self) ∧
    (∀ x s, p.featureTable.lookupAttribute? p.classTable a x = some s ↔
      s ∈ p.featureTable.visibleAttributes p.classTable a ∧ s.name = x) ∧
    (∀ x, x ≠ Names.self →
      (Scope.forClass p.classTable p.featureTable a).lookup? x =
        (p.featureTable.lookupAttribute? p.classTable a x).map AttributeSig.type) ∧
    (p.classTable.isResolved a = true →
      ∀ b ∈ (p.classTable.ancestors a).map ClassInfo.name,
        ∀ s ∈ p.featureTable.visibleAttributes p.classTable b,
          s ∈ p.featureTable.visibleAttributes p.classTable a) := by
  have hdistinct := distinct_visibleAttributes p a
  refine ⟨hdistinct.nodup, hdistinct.ne_self, fun x s => ?_, fun x hx => ?_, fun hr b hb s hs => ?_⟩
  · exact FeatureTable.lookupAttribute?_eq_some_iff hdistinct
  · exact FeatureTable.lookup?_forClass hdistinct hx
  · have hab := ((ClassTable.sound_ofProgram p).mem_ancestors_iff hr).mp hb
    exact mem_visibleAttributes_of_inherits hr hab hs

/-- A class that declares an inherited attribute and `self`, and declares one attribute twice; and a
class with an attribute that inherits from itself. -/
def Sample.attributes : Program :=
  ⟨[⟨"B", "A", [.attr ⟨"x", "String", none, default⟩, .attr ⟨"y", "Int", none, default⟩,
      .attr ⟨"y", "Bool", none, default⟩, .attr ⟨"self", "Int", none, default⟩], "", default⟩,
    ⟨"A", "Object", [.attr ⟨"x", "Int", none, default⟩], "", default⟩,
    ⟨"C", "C", [.attr ⟨"z", "Int", none, default⟩], "", default⟩]⟩

example : Sample.attributes.featureTable.visibleAttributes Sample.attributes.classTable "C" = [] :=
  by decide +kernel

/-- What is wrong with the class hides nothing of its parent. -/
theorem Program.attributes_ofProgram_redeclared :
    Sample.attributes.classTable.isResolved "B" = true ∧
      "A" ∈ (Sample.attributes.classTable.ancestors "B").map ClassInfo.name ∧
      Sample.attributes.featureTable.lookupAttribute? Sample.attributes.classTable "B" "x" =
        some ⟨"x", .int, "A"⟩ ∧
      (Scope.forClass Sample.attributes.classTable Sample.attributes.featureTable "B").lookup? "x" =
        some .int := by
  have hb : Sample.attributes.classTable.isResolved "B" = true := by decide +kernel
  have ha : "A" ∈ (Sample.attributes.classTable.ancestors "B").map ClassInfo.name := by
    decide +kernel
  obtain ⟨-, -, hlookup, hscope, hinherited⟩ := attributes_ofProgram Sample.attributes "B"
  have hx := hinherited hb "A" ha ⟨"x", .int, "A"⟩ (by decide +kernel)
  have hfound := (hlookup "x" _).mpr ⟨hx, rfl⟩
  refine ⟨hb, ha, hfound, ?_⟩
  rw [hscope "x" (by decide), hfound]
  rfl

end Cool
