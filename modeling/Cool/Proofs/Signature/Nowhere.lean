import Cool.FeatureTable.Build
import Cool.Proofs.Hierarchy.Nowhere

/-!
# Feature tables and places

No signature has a place, so that the feature table of a program is the same if the program stands
nowhere; and what is reported on the features is the same but for its places.

* `FeatureTable.lookupMethod?_nowhere`, `FeatureTable.visibleAttributes_nowhere` : lookups;
* `FeatureTable.checkClass_nowhere` : the signatures of a declaration;
* `FeatureTable.ofProgram_nowhere` : the table of a program.
-/

namespace Cool

open Diagnosed

/-- The attribute without its spans. -/
def Attribute.unplaced (a : Attribute) : Attribute :=
  { a with init := Expr.unplacedInit a.init, span := default }

namespace FeatureTable

variable (t : FeatureTable) (classes : ClassTable) (c : ClassDecl)

theorem lookupMethod?_nowhere (a method : String) :
    t.lookupMethod? classes.nowhere a method = t.lookupMethod? classes a method :=
  lookupMethod?_eq_of_entries classes.agreesAbout_nowhere trivial fun _ _ => rfl

theorem lookupAttribute?_nowhere (a attr : String) :
    t.lookupAttribute? classes.nowhere a attr = t.lookupAttribute? classes a attr :=
  lookupAttribute?_eq_of_entries classes.agreesAbout_nowhere trivial fun _ _ => rfl

theorem visibleAttributes_nowhere (a : String) :
    t.visibleAttributes classes.nowhere a = t.visibleAttributes classes a :=
  visibleAttributes_eq_of_entries classes.agreesAbout_nowhere trivial fun _ _ => rfl

/-! ## Single features -/

theorem reportIn_nowhere (span : Span) (defect : DeclarationDefect) :
    reportIn c.nowhere default defect = (reportIn c span defect).nowhere id := rfl

theorem typeOrObject_nowhere (span : Span) (name : String) (defect : DeclarationDefect) :
    typeOrObject classes.nowhere c.nowhere default name defect =
      (typeOrObject classes c span name defect).nowhere id := by
  rw [typeOrObject, typeOrObject, ClassTable.resolveType?_nowhere]
  cases classes.resolveType? name <;> rfl

theorem checkAttribute_nowhere (resolved : Bool) (own : ClassFeatures) (a : Attribute) :
    t.checkAttribute classes.nowhere c.nowhere resolved own a.unplaced =
      (t.checkAttribute classes c resolved own a).nowhere id := by
  have hdefect : t.attributeDefect? classes.nowhere c.nowhere resolved own a.unplaced =
      t.attributeDefect? classes c resolved own a := by
    rw [attributeDefect?, attributeDefect?, lookupAttribute?_nowhere]
    rfl
  rw [checkAttribute, checkAttribute, hdefect]
  cases t.attributeDefect? classes c resolved own a with
  | none => exact bind_nowhere (typeOrObject_nowhere classes c a.span a.type _) fun _ => rfl
  | some defect => rfl

theorem formalType_nowhere (f : Formal) :
    formalType classes.nowhere c.nowhere f.unplaced = (formalType classes c f).nowhere id := by
  refine bind_nowhere (typeOrObject_nowhere classes c f.span f.type _) fun type => ?_
  rw [id]
  split_ifs <;> rfl

theorem checkFormals_nowhere (seen : List String) (fs : List Formal) :
    checkFormals classes.nowhere c.nowhere seen (fs.map Formal.unplaced) =
      (checkFormals classes c seen fs).nowhere id := by
  induction fs generalizing seen with
  | nil => rfl
  | cons f fs ih =>
    have hdefect : formalDefect? seen f.unplaced = formalDefect? seen f := rfl
    have hrest : (do
        let type ← formalType classes.nowhere c.nowhere f.unplaced
        let more ← checkFormals classes.nowhere c.nowhere (f.name :: seen)
          (fs.map Formal.unplaced)
        return ⟨f.name, type⟩ :: more) = Diagnosed.nowhere id (do
        let type ← formalType classes c f
        let more ← checkFormals classes c (f.name :: seen) fs
        return ⟨f.name, type⟩ :: more) :=
      bind_nowhere (formalType_nowhere classes c f) fun _ =>
        bind_nowhere (ih (f.name :: seen)) fun _ => rfl
    rw [List.map_cons, checkFormals, checkFormals, hdefect]
    cases formalDefect? seen f with
    | none => exact hrest
    | some defect => exact bind_nowhere (reportIn_nowhere c f.span defect) fun _ => hrest

theorem writtenSignature_nowhere (m : Method) :
    writtenSignature classes.nowhere c.nowhere m.unplaced =
      (writtenSignature classes c m).nowhere id := by
  refine bind_nowhere (checkFormals_nowhere classes c [] m.formals) fun formals => ?_
  exact bind_nowhere (typeOrObject_nowhere classes c m.span m.returnType _) fun type => rfl

theorem agreedSignature_nowhere (m : Method) (written : MethodSig) :
    t.agreedSignature classes.nowhere c.nowhere m.unplaced written =
      (t.agreedSignature classes c m written).nowhere id := by
  have hlookup : t.lookupMethod? classes.nowhere c.nowhere.parent m.unplaced.name =
      t.lookupMethod? classes c.parent m.name := t.lookupMethod?_nowhere classes _ _
  rw [agreedSignature, agreedSignature, hlookup]
  cases t.lookupMethod? classes c.parent m.name with
  | none => rfl
  | some inherited =>
    dsimp only
    cases written.overrideDefect? inherited <;> rfl

theorem checkMethod_nowhere (resolved : Bool) (own : ClassFeatures) (m : Method) :
    t.checkMethod classes.nowhere c.nowhere resolved own m.unplaced =
      (t.checkMethod classes c resolved own m).nowhere id := by
  have hname : m.unplaced.name = m.name := rfl
  rw [checkMethod, checkMethod, hname]
  split_ifs
  · rfl
  · refine bind_nowhere (writtenSignature_nowhere classes c m) fun written => ?_
    exact bind_nowhere (agreedSignature_nowhere t classes c m written) fun _ => rfl
  · exact bind_nowhere (writtenSignature_nowhere classes c m) fun _ => rfl

/-! ## Declarations -/

theorem checkFeatures_nowhere (resolved : Bool) (fs : List Feature) (own : ClassFeatures) :
    t.checkFeatures classes.nowhere c.nowhere resolved own (fs.map Feature.unplaced) =
      (t.checkFeatures classes c resolved own fs).nowhere id := by
  induction fs generalizing own with
  | nil => rfl
  | cons f fs ih =>
    refine bind_nowhere ?_ fun own => ih own
    cases f with
    | attr a => exact checkAttribute_nowhere t classes c resolved own a
    | method m => exact checkMethod_nowhere t classes c resolved own m

theorem checkClass_nowhere (resolved : Bool) :
    t.checkClass classes.nowhere resolved c.nowhere =
      (t.checkClass classes resolved c).nowhere id :=
  checkFeatures_nowhere t classes c resolved c.features .empty

/-! ## Programs -/

theorem declaration?_nowhere (p : Program) (name : String) :
    declaration? classes.nowhere p.nowhere name =
      (declaration? classes p name).map (Prod.map id ClassDecl.nowhere) := by
  have hindex : (classes.nowhere.find? name).bind (fun c => c.origin.index?) =
      (classes.find? name).bind fun c => c.origin.index? := by
    rw [ClassTable.find?_nowhere, Option.bind_map]
    rfl
  rw [declaration?, declaration?, hindex]
  cases (classes.find? name).bind fun c => c.origin.index? with
  | none => rfl
  | some index =>
    dsimp only [Option.bind_some]
    rw [Program.getElem?_classes_nowhere, Option.map_map, Option.map_map]
    rfl

theorem enterAll_nowhere (cs : List (Nat × ClassDecl)) (t : FeatureTable) :
    enterAll classes.nowhere t (cs.map (Prod.map id ClassDecl.nowhere)) =
      Prod.map id (List.map (Prod.map id (List.map Diagnostic.nowhere)))
        (enterAll classes t cs) := by
  induction cs generalizing t with
  | nil => rfl
  | cons entry cs ih =>
    obtain ⟨index, c⟩ := entry
    have hc := checkClass_nowhere t classes c true
    have hname : c.nowhere.name = c.name := rfl
    simp only [List.map_cons, Prod.map, id, enterAll, hc, hname]
    simp only [Diagnosed.nowhere, id, ih, Prod.map]

theorem inOrder_nowhere (count : Nat) (reports : List (Nat × List Diagnostic)) :
    inOrder count (reports.map (Prod.map id (List.map Diagnostic.nowhere))) =
      (inOrder count reports).map Diagnostic.nowhere := by
  rw [inOrder, inOrder, List.map_flatMap]
  refine List.flatMap_congr fun index _ => ?_
  rw [List.filter_map, List.flatMap_map, List.map_flatMap]
  rfl

/-- The feature table of a program without places. -/
theorem ofProgram_nowhere (p : Program) :
    ofProgram p.nowhere classes.nowhere = (ofProgram p classes).nowhere id := by
  have hresolved : classes.nowhere.resolvedOrder.filterMap
        (declaration? classes.nowhere p.nowhere) =
      (classes.resolvedOrder.filterMap (declaration? classes p)).map
        (Prod.map id ClassDecl.nowhere) := by
    rw [ClassTable.resolvedOrder_nowhere, List.map_filterMap]
    exact List.filterMap_congr fun name _ => declaration?_nowhere classes p name
  have hunresolved : (classes.nowhere.classes.filter fun c =>
      !classes.nowhere.isResolved c.name).filterMap (fun c =>
        declaration? classes.nowhere p.nowhere c.name) =
      ((classes.classes.filter fun c => !classes.isResolved c.name).filterMap fun c =>
        declaration? classes p c.name).map (Prod.map id ClassDecl.nowhere) := by
    have hkept : (classes.nowhere.classes.filter fun c => !classes.nowhere.isResolved c.name) =
        (classes.classes.filter fun c => !classes.isResolved c.name).map ClassInfo.nowhere := by
      simp only [ClassTable.isResolved_nowhere]
      exact List.filter_map
    rw [hkept, List.filterMap_map, List.map_filterMap]
    exact List.filterMap_congr fun c _ => declaration?_nowhere classes p c.name
  have hlength : p.nowhere.classes.length = p.classes.length := by
    rw [Program.classes_nowhere, List.length_map]
  unfold ofProgram
  dsimp only
  rw [hresolved, hunresolved, enterAll_nowhere, hlength, List.map_map]
  generalize enterAll classes .basic (classes.resolvedOrder.filterMap (declaration? classes p)) = r
  obtain ⟨t, reports⟩ := r
  rw [Diagnosed.nowhere]
  dsimp only
  rw [← inOrder_nowhere, List.map_append, List.map_map]
  refine congrArg (fun others => Diagnosed.mk t (inOrder _ (_ ++ others))) ?_
  refine List.map_congr_left fun entry _ => ?_
  exact congrArg (fun x => (entry.1, Diagnosed.reports x))
    (checkClass_nowhere t classes entry.2 false)

end FeatureTable

end Cool
