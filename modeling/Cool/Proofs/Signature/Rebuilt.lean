import Cool.Proofs.Signature.Agree
import Cool.Proofs.Signature.Built

/-!
# Feature tables of programs that agree

Two programs whose class tables agree about some classes, and that declare these classes in the same
way, have feature tables that agree about them: the entry of a class depends on its declaration and
on the entries of its ancestors only.

* `checkClass_over` : the features of one declaration, with tables that agree;
* `Program.AgreesAbout`, `Program.AgreesAbout.find?_eq` : programs that agree about some classes,
  and the entries of these;
* `Program.AgreesOn`, `Program.AgreesOn.features` : programs of which the first has no other classes
  agree in their feature tables.
-/

namespace Cool

variable {known : String → Prop}

namespace FeatureTable

variable {f f' : FeatureTable} {t t' : ClassTable} {c : ClassDecl} {resolved : Bool}

/-! ## Declarations -/

section Over

variable (h : ∀ name, name = Names.selfType ∨ known name →
  t'.resolveType? name = t.resolveType? name)
include h

theorem typeOrObject_over {span : Span} {name : String} {defect : DeclarationDefect}
    (hname : name = Names.selfType ∨ known name) :
    typeOrObject t' c span name defect = typeOrObject t c span name defect := by
  rw [typeOrObject, typeOrObject, h name hname]

theorem checkFormals_over : ∀ (fs : List Formal) (seen : List String),
    (∀ g ∈ fs, g.type = Names.selfType ∨ known g.type) →
      checkFormals t' c seen fs = checkFormals t c seen fs
  | [], _, _ => rfl
  | g :: fs, seen, hfs => by
    obtain ⟨hg, hfs⟩ := List.forall_mem_cons.mp hfs
    rw [checkFormals, checkFormals, formalType, formalType, typeOrObject_over h hg,
      checkFormals_over fs _ hfs]

theorem writtenSignature_over {m : Method} (hm : Feature.Known known (.method m)) :
    writtenSignature t' c m = writtenSignature t c m := by
  rw [writtenSignature, writtenSignature, checkFormals_over h m.formals [] hm.1,
    typeOrObject_over h hm.2]

theorem checkFeature_over {g : Feature} (hg : g.Known known)
    (hmethods : resolved = true → ∀ name,
      f'.lookupMethod? t' c.parent name = f.lookupMethod? t c.parent name)
    (hattributes : resolved = true → ∀ name,
      f'.lookupAttribute? t' c.parent name = f.lookupAttribute? t c.parent name)
    (own : ClassFeatures) :
    f'.checkFeature t' c resolved own g = f.checkFeature t c resolved own g := by
  cases g with
  | attr a =>
    have hdefect : f'.attributeDefect? t' c resolved own a =
        f.attributeDefect? t c resolved own a := by
      cases resolved with
      | false => rfl
      | true => rw [attributeDefect?, attributeDefect?, hattributes rfl]
    rw [checkFeature, checkFeature, checkAttribute, checkAttribute, hdefect, typeOrObject_over h hg]
  | method m =>
    rw [checkFeature, checkFeature, checkMethod, checkMethod, writtenSignature_over h hg]
    cases resolved with
    | false => rfl
    | true =>
      have hagreed : f'.agreedSignature t' c m = f.agreedSignature t c m :=
        funext fun written => by rw [agreedSignature, agreedSignature, hmethods rfl]
      rw [hagreed]

/-- A declaration with known types has the same features with tables that agree about what its
parent has. -/
theorem checkClass_over (hc : ∀ g ∈ c.features, g.Known known)
    (hmethods : resolved = true → ∀ name,
      f'.lookupMethod? t' c.parent name = f.lookupMethod? t c.parent name)
    (hattributes : resolved = true → ∀ name,
      f'.lookupAttribute? t' c.parent name = f.lookupAttribute? t c.parent name) :
    f'.checkClass t' resolved c = f.checkClass t resolved c := by
  have hfeatures : ∀ fs : List Feature, (∀ g ∈ fs, g.Known known) → ∀ own,
      f'.checkFeatures t' c resolved own fs = f.checkFeatures t c resolved own fs := by
    intro fs
    induction fs with
    | nil => exact fun _ _ => rfl
    | cons g fs ih =>
      intro hfs own
      obtain ⟨hg, hfs⟩ := List.forall_mem_cons.mp hfs
      rw [checkFeatures, checkFeatures, checkFeature_over h hg hmethods hattributes]
      exact congrArg _ (funext (ih hfs))
  exact hfeatures c.features hc .empty

end Over

end FeatureTable

/-! ## Programs -/

/-- The class tables of two programs agree about the classes of `known`, and about the names of
types in the declarations of these, which both programs accept. -/
structure Program.AgreesAbout (known named : String → Prop) (p q : Program) : Prop where
  classes : p.classTable.AgreesAbout known q.classTable
  names : ∀ name, name = Names.selfType ∨ named name →
    q.classTable.resolveType? name = p.classTable.resolveType? name
  accepts : ∀ c, known c.name → ((∃ i, p.Accepts i c) ↔ ∃ i, q.Accepts i c)
  types : ∀ i c, p.Accepts i c → known c.name → ∀ f ∈ c.features, f.Known named

namespace Program.AgreesAbout

variable {named : String → Prop} {p q : Program} {a : String} {i : Nat} {c : ClassDecl}
  {l : List ClassInfo}

/-- Entries are the same if the declarations they come from give the same. -/
theorem find?_eq_of_checkClass (h : p.AgreesAbout known named q) (ha : known a)
    (hcheck : p.classTable.isResolved a = true → ∀ i c, p.Accepts i c → c.name = a →
      q.featureTable.checkClass q.classTable true c =
        p.featureTable.checkClass p.classTable true c) :
    q.featureTable.find? a = p.featureTable.find? a := by
  refine Option.ext fun own => ?_
  rw [FeatureTable.find?_ofProgram_iff, FeatureTable.find?_ofProgram_iff, h.classes.resolved a ha]
  refine or_congr_right ⟨?_, ?_⟩
  · rintro ⟨j, c, hc, rfl, hr, rfl⟩
    obtain ⟨i, hc⟩ := (h.accepts c ha).mpr ⟨j, hc⟩
    exact ⟨i, c, hc, rfl, hr, by rw [hcheck hr i c hc rfl]⟩
  · rintro ⟨i, c, hc, rfl, hr, rfl⟩
    obtain ⟨j, hc'⟩ := (h.accepts c ha).mp ⟨i, hc⟩
    exact ⟨j, c, hc', rfl, hr, by rw [hcheck hr i c hc rfl]⟩

/-- A declaration has the same features if the ancestors of its parent have the same entries. -/
theorem checkClass_eq_of_entries (h : p.AgreesAbout known named q) (hc : p.Accepts i c)
    (hname : known c.name) {resolved : Bool} (hparent : resolved = true → known c.parent)
    (hentries : resolved = true → ∀ info ∈ p.classTable.ancestors c.parent,
      q.featureTable.find? info.name = p.featureTable.find? info.name) :
    q.featureTable.checkClass q.classTable resolved c =
      p.featureTable.checkClass p.classTable resolved c :=
  FeatureTable.checkClass_over h.names (h.types i c hc hname)
    (fun hr _ => FeatureTable.lookupMethod?_eq_of_entries h.classes (hparent hr) (hentries hr))
    (fun hr _ => FeatureTable.lookupAttribute?_eq_of_entries h.classes (hparent hr) (hentries hr))

/-- From a class to the root, the entries are the same. -/
theorem find?_eq_of_isChain (h : p.AgreesAbout known named q) (hl : p.classTable.IsChain a l)
    (ha : known a) :
    ∀ info ∈ l, q.featureTable.find? info.name = p.featureTable.find? info.name := by
  induction hl with
  | root hfind hp =>
    refine List.forall_mem_singleton.mpr ?_
    rw [ClassTable.name_of_find? hfind]
    refine h.find?_eq_of_checkClass ha fun _ i c hc hname => ?_
    have hinfo := ClassTable.find?_of_accepts hc
    rw [hname] at hinfo
    cases hfind.symm.trans hinfo
    cases hp
  | @child a b info l hfind hp hl ih =>
    have hancestors : p.classTable.ancestors a = info :: l :=
      ClassTable.ancestors_eq_of_isChain (.child hfind hp hl)
    have hclosed := h.classes.closed a ha
    rw [hancestors] at hclosed
    have hb : known b := by
      obtain ⟨first, below, rfl⟩ := List.exists_cons_of_ne_nil hl.ne_nil
      rw [← hl.head_name]
      exact hclosed first (by simp)
    have hentries := ih hb
    refine List.forall_mem_cons.mpr ⟨?_, hentries⟩
    rw [ClassTable.name_of_find? hfind]
    refine h.find?_eq_of_checkClass ha fun _ i c hc hname => ?_
    have hinfo := ClassTable.find?_of_accepts hc
    rw [hname] at hinfo
    cases hfind.symm.trans hinfo
    cases hp
    rw [← ClassTable.ancestors_eq_of_isChain hl] at hentries
    exact h.checkClass_eq_of_entries hc (hname ▸ ha) (fun _ => hb) fun _ => hentries

/-- The feature tables have the same entries for the known classes. -/
theorem find?_eq (h : p.AgreesAbout known named q) (ha : known a) :
    q.featureTable.find? a = p.featureTable.find? a := by
  by_cases hr : p.classTable.isResolved a = true
  · obtain ⟨l, hl⟩ := (ClassTable.sound_ofProgram p).chain a hr
    obtain ⟨info, below, rfl⟩ := List.exists_cons_of_ne_nil hl.ne_nil
    rw [← hl.head_name]
    exact h.find?_eq_of_isChain hl ha info List.mem_cons_self
  · exact h.find?_eq_of_checkClass ha fun hr' => absurd hr' hr

end Program.AgreesAbout

/-- The class tables of two programs agree about the known classes, and the programs have the same
accepted declarations of these, with known types in them and in their entries. -/
structure Program.AgreesOn (known : String → Prop) (p q : Program) : Prop where
  classes : p.classTable.AgreesOn known q.classTable
  accepts : ∀ c, known c.name → ((∃ i, p.Accepts i c) ↔ ∃ i, q.Accepts i c)
  types : ∀ i c, p.Accepts i c → known c.name → ∀ f ∈ c.features, f.Known known
  signatures : ∀ a own, known a → p.featureTable.find? a = some own → own.Known known

namespace Program.AgreesOn

variable {p q : Program} {i : Nat} {c : ClassDecl}

theorem about (h : p.AgreesOn known q) : p.AgreesAbout known known q :=
  ⟨h.classes.about, fun _ => h.classes.resolveType?_eq, h.accepts, h.types⟩

/-- The feature tables agree about the known classes. -/
theorem features (h : p.AgreesOn known q) : p.featureTable.AgreesOn known q.featureTable :=
  ⟨fun _ ha => h.about.find?_eq ha, h.signatures⟩

/-- Known declarations are checked to the same features. -/
theorem checkClass_eq (h : p.AgreesOn known q) (hc : p.Accepts i c) (hname : known c.name) :
    q.featureTable.checkClass q.classTable (q.classTable.isResolved c.name) c =
      p.featureTable.checkClass p.classTable (p.classTable.isResolved c.name) c := by
  rw [h.classes.resolved c.name hname]
  have hparent : p.classTable.isResolved c.name = true → known c.parent := by
    intro hr
    have hs := ClassTable.sound_ofProgram p
    have hp := hs.parent c.name c.parent hr (FeatureTable.parentOf?_of_accepts hc)
    exact h.classes.known_of_contains (ClassTable.contains_of_isResolved hp)
  exact h.about.checkClass_eq_of_entries hc hname hparent fun hr info hinfo =>
    h.about.find?_eq (h.classes.closed _ (hparent hr) info hinfo)

end Program.AgreesOn

end Cool
