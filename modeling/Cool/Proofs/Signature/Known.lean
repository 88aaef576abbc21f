import Cool.FeatureTable.Build
import Cool.Proofs.Hierarchy.Built
import Cool.Proofs.Signature.Agree

/-!
# The types in a feature table

The signatures in the feature table of a program name classes of its class table only, whatever the
program declares: `Object` stands for a type that is not defined, and a signature that is taken over
from an ancestor is in the table already.

* `ClassTable.Has` : the classes of a table;
* `FeatureTable.Known` : all signatures of a table name classes of some kind;
* `FeatureTable.known_ofProgram` : those of the table of a program;
* `FeatureTable.Known.of_lookupMethod?`, `FeatureTable.Known.of_mem_visibleAttributes` : what is
  found in such a table.
-/

namespace Cool

variable {known : String → Prop} {classes : ClassTable} {a name : String} {τ : Ty}

/-- The class is in the table. -/
def ClassTable.Has (classes : ClassTable) (a : String) : Prop :=
  classes.contains a = true

theorem ClassTable.known_of_resolveType? (h : classes.resolveType? name = some τ) :
    τ.Known classes.Has := by
  obtain ⟨rfl, hself | hcontains⟩ := resolveType?_eq_some_iff.mp h
  · rw [hself]
    trivial
  · unfold Ty.ofName
    split_ifs
    · trivial
    · exact hcontains

/-- The types of a method are known. -/
def MethodSig.Known (known : String → Prop) (m : MethodSig) : Prop :=
  m.returnType.Known known ∧ ∀ f ∈ m.formals, f.type.Known known

namespace ClassFeatures.Known

variable {own : ClassFeatures}

theorem snoc_attribute (h : own.Known known) {x : AttributeSig} (hx : x.type.Known known) :
    ClassFeatures.Known known { own with attributes := own.attributes ++ [x] } where
  attributes := by
    intro y hy
    rcases List.mem_append.mp hy with hy | hy
    · exact h.attributes y hy
    · exact List.mem_singleton.mp hy ▸ hx
  methods := h.methods

theorem snoc_method (h : own.Known known) {m : MethodSig} (hm : m.Known known) :
    ClassFeatures.Known known { own with methods := own.methods ++ [m] } where
  attributes := h.attributes
  methods := by
    intro n hn
    rcases List.mem_append.mp hn with hn | hn
    · exact h.methods n hn
    · exact List.mem_singleton.mp hn ▸ hm

end ClassFeatures.Known

namespace FeatureTable

/-- All types in the signatures of a table are known. -/
def Known (known : String → Prop) (t : FeatureTable) : Prop :=
  ∀ entry ∈ t.entries, entry.2.Known known

namespace Known

variable {t : FeatureTable} {own : ClassFeatures} {m : MethodSig}

theorem of_find? (h : t.Known known) (hown : t.find? a = some own) : own.Known known := by
  obtain ⟨entry, hentry, rfl⟩ := Option.map_eq_some_iff.mp hown
  exact h entry (List.mem_of_find?_eq_some hentry)

theorem of_ownMethod? (h : t.Known known) (hm : t.ownMethod? a name = some m) : m.Known known := by
  obtain ⟨own, hown, hm⟩ := Option.bind_eq_some_iff.mp hm
  exact (h.of_find? hown).methods m (List.mem_of_find?_eq_some hm)

theorem of_lookupMethod? (h : t.Known known) (hm : t.lookupMethod? classes a name = some m) :
    m.Known known := by
  obtain ⟨info, -, hm⟩ := List.exists_of_findSome?_eq_some hm
  exact h.of_ownMethod? hm

theorem of_mem_visibleAttributes (h : t.Known known) {x : AttributeSig}
    (hx : x ∈ t.visibleAttributes classes a) : x.type.Known known := by
  obtain ⟨info, -, hx⟩ := List.mem_flatMap.mp hx
  cases hown : t.find? info.name with
  | none =>
    rw [hown] at hx
    exact absurd hx List.not_mem_nil
  | some own =>
    rw [hown] at hx
    exact (h.of_find? hown).attributes x hx

theorem insert (h : t.Known known) (hown : own.Known known) : (t.insert a own).Known known :=
  List.forall_mem_append.mpr ⟨h, List.forall_mem_singleton.mpr hown⟩

end Known

/-! ## The signatures of a declaration -/

variable {t : FeatureTable} {c : ClassDecl} {resolved : Bool} {own : ClassFeatures} {span : Span}

section Declaration

variable (hobject : classes.Has Names.object)
include hobject

theorem known_typeOrObject {defect : DeclarationDefect} :
    (typeOrObject classes c span name defect).value.Known classes.Has := by
  unfold typeOrObject
  split
  · rename_i hτ
    exact ClassTable.known_of_resolveType? hτ
  · exact hobject

theorem known_formalType {f : Formal} :
    (formalType classes c f).value.Known classes.Has := by
  unfold formalType
  rw [Diagnosed.value_bind]
  split_ifs
  · exact hobject
  · exact known_typeOrObject hobject

theorem known_checkFormals : ∀ (fs : List Formal) (seen : List String),
    ∀ f ∈ (checkFormals classes c seen fs).value, f.type.Known classes.Has
  | [], _ => List.forall_mem_nil _
  | f :: fs, seen => by
    have hcons : (checkFormals classes c seen (f :: fs)).value =
        ⟨f.name, (formalType classes c f).value⟩ ::
          (checkFormals classes c (f.name :: seen) fs).value := by
      rw [checkFormals]
      cases formalDefect? seen f <;> rfl
    rw [hcons]
    intro g hg
    rcases List.mem_cons.mp hg with rfl | hg
    · exact known_formalType hobject
    · exact known_checkFormals fs (f.name :: seen) g hg

theorem known_writtenSignature {m : Method} :
    (writtenSignature classes c m).value.Known classes.Has :=
  ⟨known_typeOrObject hobject, known_checkFormals hobject m.formals []⟩

variable (ht : t.Known classes.Has)
include ht

omit hobject in
theorem known_agreedSignature {m : Method} {written : MethodSig}
    (hwritten : written.Known classes.Has) :
    (t.agreedSignature classes c m written).value.Known classes.Has := by
  unfold agreedSignature
  split
  · exact hwritten
  · rename_i inherited hinherited
    split
    · exact hwritten
    · have hknown := ht.of_lookupMethod? hinherited
      exact ⟨hknown.1, hknown.2⟩

variable (hown : own.Known classes.Has)
include hown

omit ht in
theorem known_checkAttribute {x : Attribute} :
    (t.checkAttribute classes c resolved own x).value.Known classes.Has := by
  unfold checkAttribute
  split
  · exact hown
  · exact hown.snoc_attribute (known_typeOrObject hobject)

theorem known_checkMethod {m : Method} :
    (t.checkMethod classes c resolved own m).value.Known classes.Has := by
  unfold checkMethod
  split_ifs with hnew
  · exact hown
  · exact hown.snoc_method (known_agreedSignature ht (known_writtenSignature hobject))
  · exact hown.snoc_method (known_writtenSignature hobject)

theorem known_checkFeature (f : Feature) :
    (t.checkFeature classes c resolved own f).value.Known classes.Has := by
  cases f with
  | attr x => exact known_checkAttribute hobject hown
  | method m => exact known_checkMethod hobject ht hown

omit hown in
theorem known_checkFeatures : ∀ (fs : List Feature) {own : ClassFeatures}, own.Known classes.Has →
    (t.checkFeatures classes c resolved own fs).value.Known classes.Has
  | [], _, hown => hown
  | f :: fs, _, hown => known_checkFeatures fs (known_checkFeature hobject ht hown f)

omit hown in
theorem known_checkClass (c : ClassDecl) :
    (t.checkClass classes resolved c).value.Known classes.Has :=
  known_checkFeatures hobject ht c.features ⟨List.forall_mem_nil _, List.forall_mem_nil _⟩

end Declaration

/-! ## The table of a program -/

theorem known_enterAll (hobject : classes.Has Names.object) : ∀ (cs : List (Nat × ClassDecl))
    {t : FeatureTable}, t.Known classes.Has → (enterAll classes t cs).1.Known classes.Has
  | [], _, ht => ht
  | (_, c) :: cs, _, ht => known_enterAll hobject cs (ht.insert (known_checkClass hobject ht c))

theorem known_basic (hbasic : ∀ a ∈ Names.basic, known a) : basic.Known known := by
  have htypes : ∀ entry ∈ basic.entries, entry.2.attributes = [] ∧
      ∀ m ∈ entry.2.methods, (m.returnType = .selfType ∨
        ∃ b ∈ Names.basic, m.returnType = .named b) ∧
          ∀ f ∈ m.formals, ∃ b ∈ Names.basic, f.type = .named b := by
    decide
  intro entry hentry
  obtain ⟨hattributes, hmethods⟩ := htypes entry hentry
  refine ⟨fun x hx => ?_, fun m hm => ?_⟩
  · rw [hattributes] at hx
    cases hx
  · obtain ⟨hreturn, hformals⟩ := hmethods m hm
    refine ⟨?_, fun f hf => ?_⟩
    · rcases hreturn with hself | ⟨b, hb, hnamed⟩
      · rw [hself]
        trivial
      · rw [hnamed]
        exact hbasic b hb
    · obtain ⟨b, hb, hnamed⟩ := hformals f hf
      rw [hnamed]
      exact hbasic b hb

/-- All signatures in the feature table of a program name classes of its class table. -/
theorem known_ofProgram (p : Program) : (ofProgram p (ClassTable.ofProgram p).value).value.Known
    (ClassTable.ofProgram p).value.Has := by
  have hbasic : ∀ a ∈ Names.basic, (ClassTable.ofProgram p).value.Has a :=
    fun a ha => ClassTable.contains_of_isResolved (ClassTable.isResolved_of_mem_basic ha)
  exact known_enterAll (hbasic Names.object (by decide)) _ (known_basic hbasic)

end FeatureTable

end Cool
