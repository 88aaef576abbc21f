import Cool.Conformance
import Cool.FeatureTable.Basic
import Cool.Proofs.Hierarchy.Chain
import Cool.Tree.Program

/-!
# Tables that agree about some classes

Two tables that say the same about all classes of some kind, and about the classes these inherit
from, give the same answer to every question about them. All other classes are in the second table
only, so that the first has nothing to say of them.

* `Ty.Known` : `SELF_TYPE`, or a class of the kind;
* `ClassTable.AgreesAbout`, `ClassTable.AgreesOn`, `FeatureTable.AgreesOn` : tables that agree;
* `ClassTable.AgreesAbout.conforms_eq`, `ClassTable.AgreesAbout.join_eq` : conformance and joins;
* `FeatureTable.lookupMethod?_eq_of_entries`, `FeatureTable.lookupAttribute?_eq_of_entries`,
  `FeatureTable.visibleAttributes_eq_of_entries` : what a class declares or inherits, by the entries
  of its ancestors.
-/

namespace Cool

variable {known : String → Prop}

def Ty.Known (known : String → Prop) : Ty → Prop
  | .named a => known a
  | .selfType => True

theorem Ty.Known.resolve {τ : Ty} {enclosing : String} (h : τ.Known known)
    (henclosing : known enclosing) : known (τ.resolve enclosing) := by
  cases τ with
  | named a => exact h
  | selfType => exact henclosing

theorem Ty.known_true (τ : Ty) : τ.Known fun _ => True := by
  cases τ <;> trivial

/-! ## Class tables -/

namespace ClassTable

/-- Two tables say the same about the classes of `known` and their ancestors. -/
structure AgreesAbout (known : String → Prop) (t t' : ClassTable) : Prop where
  contains : ∀ a, known a → t'.contains a = t.contains a
  resolved : ∀ a, known a → t'.isResolved a = t.isResolved a
  ancestors : ∀ a, known a →
    (t'.ancestors a).map ClassInfo.name = (t.ancestors a).map ClassInfo.name
  closed : ∀ a, known a → ∀ info ∈ t.ancestors a, known info.name

namespace AgreesAbout

variable {t t' : ClassTable} {a b enclosing : String} {σ τ : Ty}

theorem any_ancestors_eq (h : t.AgreesAbout known t') (ha : known a) :
    ((t'.ancestors a).any fun info => info.name == b) =
      (t.ancestors a).any fun info => info.name == b := by
  have hmap : ∀ l : List ClassInfo,
      (l.any fun info => info.name == b) = (l.map ClassInfo.name).any (· == b) := by
    intro l
    rw [List.any_map]
    rfl
  rw [hmap, hmap, h.ancestors a ha]

theorem conforms_eq (h : t.AgreesAbout known t') (henclosing : known enclosing)
    (hσ : σ.Known known) (hτ : τ.Known known) :
    t'.conforms enclosing σ τ = t.conforms enclosing σ τ := by
  have hresolve := hσ.resolve henclosing
  cases τ with
  | selfType =>
    cases σ with
    | selfType => rfl
    | named a =>
      have ha : known a := hσ
      simp only [conforms, ClassTable.known, h.contains a ha]
  | named b =>
    have hb : known b := hτ
    have hnamed : ∀ t : ClassTable, t.conforms enclosing σ (.named b) = (do
        t.known b
        t.known (σ.resolve enclosing)
        if t.isResolved (σ.resolve enclosing) && t.isResolved b then
          return (t.ancestors (σ.resolve enclosing)).any fun info => info.name == b
        else return true) := by
      intro t
      cases σ <;> rfl
    rw [hnamed, hnamed]
    simp only [ClassTable.known, h.contains _ hb, h.contains _ hresolve, h.resolved _ hb,
      h.resolved _ hresolve, h.any_ancestors_eq hresolve]

theorem meeting?_eq (h : t.AgreesAbout known t') (ha : known a) (hb : known b) :
    meeting? (t'.ancestors a) (t'.ancestors b) = meeting? (t.ancestors a) (t.ancestors b) := by
  have hmap : ∀ l l' : List ClassInfo, meeting? l l' =
      (l'.map ClassInfo.name).find? fun name => (l.map ClassInfo.name).any (· == name) := by
    intro l l'
    rw [meeting?, List.find?_map]
    refine congrArg (Option.map ClassInfo.name) (congrArg (List.find? · l') (funext fun c => ?_))
    rw [Function.comp_apply, List.any_map]
    rfl
  rw [hmap, hmap, h.ancestors a ha, h.ancestors b hb]

theorem join_eq (h : t.AgreesAbout known t') (henclosing : known enclosing) (hσ : σ.Known known)
    (hτ : τ.Known known) : t'.join enclosing σ τ = t.join enclosing σ τ := by
  have hσ' := hσ.resolve henclosing
  have hτ' := hτ.resolve henclosing
  unfold join
  simp only [ClassTable.known, h.contains _ hσ', h.contains _ hτ', h.resolved _ hσ',
    h.resolved _ hτ', h.meeting?_eq hσ' hτ']

end AgreesAbout

/-- Two tables say the same about the classes of `known`, and the first has no others. -/
structure AgreesOn (known : String → Prop) (t t' : ClassTable) : Prop where
  basic : ∀ a ∈ Names.basic, known a
  contains : ∀ a, known a → t'.contains a = t.contains a
  resolved : ∀ a, known a → t'.isResolved a = t.isResolved a
  ancestors : ∀ a, known a →
    (t'.ancestors a).map ClassInfo.name = (t.ancestors a).map ClassInfo.name
  closed : ∀ a, known a → ∀ info ∈ t.ancestors a, known info.name
  others : ∀ a, ¬known a → t.contains a = false

namespace AgreesOn

variable {t t' : ClassTable} {a b enclosing : String} {σ τ : Ty}

theorem about (h : t.AgreesOn known t') : t.AgreesAbout known t' :=
  ⟨h.contains, h.resolved, h.ancestors, h.closed⟩

theorem known_of_contains (h : t.AgreesOn known t') (ha : t.contains a = true) : known a := by
  by_contra hnot
  rw [h.others a hnot] at ha
  cases ha

theorem known_object (h : t.AgreesOn known t') : Ty.object.Known known :=
  h.basic Names.object (by decide)

theorem resolveType?_eq (h : t.AgreesOn known t') (ha : a = Names.selfType ∨ known a) :
    t'.resolveType? a = t.resolveType? a := by
  by_cases hself : a = Names.selfType
  · rw [resolveType?, resolveType?, if_pos hself, if_pos hself]
  · rw [resolveType?, resolveType?, h.contains a (ha.resolve_left hself)]

theorem known_of_resolveType? (h : t.AgreesOn known t') (ha : t.resolveType? a = some τ) :
    τ.Known known := by
  obtain ⟨rfl, hself | hcontains⟩ := resolveType?_eq_some_iff.mp ha
  · rw [hself]
    trivial
  · unfold Ty.ofName
    split_ifs
    · trivial
    · exact h.known_of_contains hcontains

theorem exists_of_bind_eq_ok {ε α β : Type} {x : Except ε α} {f : α → Except ε β} {b : β}
    (h : (x >>= f) = .ok b) : ∃ a, x = .ok a ∧ f a = .ok b := by
  cases x with
  | error e => cases h
  | ok a => exact ⟨a, rfl, h⟩

theorem known_of_join (h : t.AgreesOn known t') (henclosing : known enclosing)
    (hτ : τ.Known known) {υ : Ty} (hjoin : t.join enclosing σ τ = .ok υ) : υ.Known known := by
  unfold join at hjoin
  split_ifs at hjoin
  · cases hjoin
    trivial
  · obtain ⟨-, -, hjoin⟩ := exists_of_bind_eq_ok hjoin
    obtain ⟨-, -, hjoin⟩ := exists_of_bind_eq_ok hjoin
    split_ifs at hjoin
    · cases hjoin
      cases hmeeting : meeting? (t.ancestors (σ.resolve enclosing))
          (t.ancestors (τ.resolve enclosing)) with
      | none => exact h.known_object
      | some a =>
        obtain ⟨info, hinfo, rfl⟩ := Option.map_eq_some_iff.mp hmeeting
        exact h.closed _ (hτ.resolve henclosing) info (List.mem_of_find?_eq_some hinfo)
    · cases hjoin
      exact h.known_object

end AgreesOn

end ClassTable

/-! ## Feature tables -/

/-- The types that a feature declares are `SELF_TYPE` or known. -/
def Feature.Known (known : String → Prop) : Feature → Prop
  | .attr a => a.type = Names.selfType ∨ known a.type
  | .method m => (∀ f ∈ m.formals, f.type = Names.selfType ∨ known f.type) ∧
      (m.returnType = Names.selfType ∨ known m.returnType)

theorem Feature.known_true (f : Feature) : f.Known fun _ => True := by
  cases f with
  | attr a => exact Or.inr trivial
  | method m => exact ⟨fun _ _ => Or.inr trivial, Or.inr trivial⟩

/-- The types in the signatures of a class are known. -/
structure ClassFeatures.Known (known : String → Prop) (own : ClassFeatures) : Prop where
  attributes : ∀ a ∈ own.attributes, a.type.Known known
  methods : ∀ m ∈ own.methods, m.returnType.Known known ∧ ∀ f ∈ m.formals, f.type.Known known

namespace FeatureTable

/-- Two tables have the same entries for the classes of `known`, with types of the kind. -/
structure AgreesOn (known : String → Prop) (f f' : FeatureTable) : Prop where
  entries : ∀ a, known a → f'.find? a = f.find? a
  types : ∀ a own, known a → f.find? a = some own → own.Known known

variable {f f' : FeatureTable} {t t' : ClassTable} {a name : String}

section Lookup

variable (h : t.AgreesAbout known t') (ha : known a)
  (hentries : ∀ info ∈ t.ancestors a, f'.find? info.name = f.find? info.name)
include h ha hentries

/-- A search among the ancestors of a class goes by their names and entries. -/
theorem findSome?_ancestors_eq {α : Type} (g : ClassFeatures → Option α) :
    ((t'.ancestors a).findSome? fun c => (f'.find? c.name).bind g) =
      (t.ancestors a).findSome? fun c => (f.find? c.name).bind g := by
  have hmap : ∀ (f : FeatureTable) (l : List ClassInfo),
      (l.findSome? fun c => (f.find? c.name).bind g) =
        ((l.map ClassInfo.name).filterMap fun b => (f.find? b).bind g).head? := by
    intro f l
    rw [List.head?_filterMap, List.findSome?_map]
    rfl
  rw [hmap, hmap, h.ancestors a ha]
  refine congrArg List.head? (List.filterMap_congr fun b hb => ?_)
  obtain ⟨info, hinfo, rfl⟩ := List.mem_map.mp hb
  rw [hentries info hinfo]

theorem lookupMethod?_eq_of_entries : f'.lookupMethod? t' a name = f.lookupMethod? t a name :=
  findSome?_ancestors_eq h ha hentries fun own => own.method? name

theorem lookupAttribute?_eq_of_entries :
    f'.lookupAttribute? t' a name = f.lookupAttribute? t a name :=
  findSome?_ancestors_eq h ha hentries fun own => own.attribute? name

theorem visibleAttributes_eq_of_entries :
    f'.visibleAttributes t' a = f.visibleAttributes t a := by
  have hmap : ∀ (f : FeatureTable) (l : List ClassInfo),
      (l.reverse.flatMap fun c => (f.find? c.name).elim [] ClassFeatures.attributes) =
        (l.map ClassInfo.name).reverse.flatMap
          fun b => (f.find? b).elim [] ClassFeatures.attributes := by
    intro f l
    rw [← List.map_reverse, List.flatMap_map]
  rw [visibleAttributes, visibleAttributes, hmap, hmap, h.ancestors a ha]
  refine List.flatMap_congr fun b hb => ?_
  obtain ⟨info, hinfo, rfl⟩ := List.mem_map.mp (List.mem_reverse.mp hb)
  rw [hentries info hinfo]

end Lookup

namespace AgreesOn

theorem ownMethod?_eq (hf : f.AgreesOn known f') (ha : known a) :
    f'.ownMethod? a name = f.ownMethod? a name := by
  rw [ownMethod?, ownMethod?, hf.entries a ha]

theorem known_of_ownMethod? {sig : MethodSig} (hf : f.AgreesOn known f') (ha : known a)
    (hm : f.ownMethod? a name = some sig) :
    sig.returnType.Known known ∧ ∀ formal ∈ sig.formals, formal.type.Known known := by
  obtain ⟨own, hown, hm⟩ := Option.bind_eq_some_iff.mp hm
  exact (hf.types a own ha hown).methods sig (List.mem_of_find?_eq_some hm)

variable (h : t.AgreesOn known t') (hf : f.AgreesOn known f') (ha : known a)
include h hf ha

theorem lookupMethod?_eq : f'.lookupMethod? t' a name = f.lookupMethod? t a name :=
  lookupMethod?_eq_of_entries h.about ha fun info hinfo =>
    hf.entries _ (h.closed a ha info hinfo)

theorem lookupAttribute?_eq : f'.lookupAttribute? t' a name = f.lookupAttribute? t a name :=
  lookupAttribute?_eq_of_entries h.about ha fun info hinfo =>
    hf.entries _ (h.closed a ha info hinfo)

theorem visibleAttributes_eq : f'.visibleAttributes t' a = f.visibleAttributes t a :=
  visibleAttributes_eq_of_entries h.about ha fun info hinfo =>
    hf.entries _ (h.closed a ha info hinfo)

theorem known_of_lookupMethod? {sig : MethodSig} (hm : f.lookupMethod? t a name = some sig) :
    sig.returnType.Known known ∧ ∀ formal ∈ sig.formals, formal.type.Known known := by
  obtain ⟨info, hinfo, hm⟩ := List.exists_of_findSome?_eq_some hm
  exact hf.known_of_ownMethod? (h.closed a ha info hinfo) hm

theorem known_of_visible {x : AttributeSig} (hx : x ∈ f.visibleAttributes t a) :
    x.type.Known known := by
  obtain ⟨info, hinfo, hx⟩ := List.mem_flatMap.mp hx
  cases hown : f.find? info.name with
  | none =>
    rw [hown] at hx
    exact absurd hx List.not_mem_nil
  | some own =>
    rw [hown] at hx
    have ha := h.closed a ha info (List.mem_reverse.mp hinfo)
    exact (hf.types _ own ha hown).attributes x hx

end AgreesOn

end FeatureTable

end Cool
