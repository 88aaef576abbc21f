import Cool.Proofs.Analysis.Run
import Cool.Proofs.Typing.Erase

/-!
# The analysis and the notes

No pass reads the types that it finds noted, and the only thing that any pass writes are types. So
the program that comes out of an analysis has the text of the one that went in, and is analyzed in
the same way.

* `erase_analyze` : the text stays as it is;
* `ClassTable.ofProgram_erase`, `FeatureTable.ofProgram_erase` : the tables depend on the text;
* `analyze_analyze` : a second analysis finds what the first one did.
-/

namespace Cool

variable {f : Note → Note} {Γ : Context} {σ : Scope}

/-! ## What the checks write -/

theorem Feature.mapNotes_check (hf : ∀ note type, f (Note.typed note type) = f note)
    (seen : List String) (g : Feature) : (g.check Γ σ seen).value.mapNotes f = g.mapNotes f := by
  cases g with
  | attr a =>
    obtain ⟨name, type, init, span⟩ := a
    cases init with
    | none => rfl
    | some e =>
      have he := Expr.mapNotes_check hf Γ e σ
      simp only [Feature.check, Attribute.check, Diagnosed.value_bind, Diagnosed.value_pure,
        Feature.mapNotes, Attribute.mapNotes, Expr.mapNotesInit, he]
  | method m =>
    have hm := fun σ => Expr.mapNotes_check hf Γ m.body σ
    simp only [Feature.check, Method.check, Diagnosed.value_bind, Diagnosed.value_pure,
      Feature.mapNotes, Method.mapNotes, hm]

theorem Feature.mapNotes_checkAll (hf : ∀ note type, f (Note.typed note type) = f note) :
    ∀ (fs : List Feature) (seen : List String) (c : Collector),
      (Feature.checkAll Γ σ seen c fs).1.map (Feature.mapNotes f) = fs.map (Feature.mapNotes f)
  | [], _, _ => rfl
  | g :: fs, seen, c => by
    rw [Feature.checkAll]
    split_ifs with hhalted
    · rfl
    · dsimp only
      rw [List.map_cons, List.map_cons, Feature.mapNotes_check hf, Feature.mapNotes_checkAll hf fs]

theorem Checker.mapNotes_checkDecls (hf : ∀ note type, f (Note.typed note type) = f note) :
    ∀ (cs : List ClassDecl) (k : Checker) (index : Nat),
      (k.checkDecls index cs).1.map (ClassDecl.mapNotes f) = cs.map (ClassDecl.mapNotes f)
  | [], _, _ => rfl
  | c :: cs, k, index => by
    rw [checkDecls_cons]
    split_ifs with hhalted
    · rfl
    · have hdecl : (k.checkDecl index c).1.mapNotes f = c.mapNotes f := by
        unfold checkDecl
        split_ifs with hchecked
        · rw [checkClass_eq]
          unfold ClassDecl.mapNotes
          dsimp only
          rw [Feature.mapNotes_checkAll hf]
        · rfl
      rw [List.map_cons, List.map_cons, hdecl, Checker.mapNotes_checkDecls hf cs]

/-- Only types are written. -/
theorem erase_analyze (limit : Option Nat) (p : Program) :
    (p.analyze limit).program.erase = p.erase := by
  unfold Program.analyze
  dsimp only
  split_ifs with hclasses hfeatures
  · rfl
  · rfl
  · exact congrArg Program.mk (Checker.mapNotes_checkDecls (f := Note.erase) (fun _ _ => rfl) _ _ _)

/-! ## What the tables depend on -/

namespace ClassTable

theorem declareAll_mapNotes (f : Note → Note) : ∀ (cs : List ClassDecl) (t : ClassTable)
    (index : Nat), t.declareAll index (cs.map (ClassDecl.mapNotes f)) = t.declareAll index cs
  | [], _, _ => rfl
  | c :: cs, t, index => by
    show t.declare index c >>= _ = t.declare index c >>= _
    exact congrArg _ (funext fun t => declareAll_mapNotes f cs t (index + 1))

theorem methods_mapNotes (f : Note → Note) (c : ClassDecl) :
    (c.mapNotes f).methods = c.methods.map (Method.mapNotes f) := by
  unfold ClassDecl.methods ClassDecl.mapNotes
  rw [List.filterMap_map, List.map_filterMap]
  refine List.filterMap_congr fun g _ => ?_
  cases g <;> rfl

theorem findEntry_mapNotes (f : Note → Note) (t : ClassTable) (p : Program) :
    t.findEntry (p.mapNotes f) = t.findEntry p := by
  have hmain : t.mainDecl? (p.mapNotes f) = (t.mainDecl? p).map (ClassDecl.mapNotes f) := by
    unfold mainDecl? Program.mapNotes
    cases (t.find? Names.main).bind fun c => c.origin.index? with
    | none => rfl
    | some index => exact List.getElem?_map
  unfold findEntry
  rw [hmain]
  cases t.mainDecl? p with
  | none => rfl
  | some c =>
    dsimp only [Option.map_some]
    have hentry : (fun m : Method => m.name == Names.entry) ∘ Method.mapNotes f =
        fun m => m.name == Names.entry := rfl
    rw [methods_mapNotes, List.find?_map, hentry]
    cases c.methods.find? fun m => m.name == Names.entry <;> rfl

theorem ofProgram_mapNotes (f : Note → Note) (p : Program) :
    ofProgram (p.mapNotes f) = ofProgram p := by
  unfold ofProgram
  simp only [findEntry_mapNotes]
  exact congrArg (· >>= _) (declareAll_mapNotes f p.classes basic 0)

/-- The class table depends on the text. -/
theorem ofProgram_erase (p : Program) : ofProgram p.erase = ofProgram p :=
  ofProgram_mapNotes Note.erase p

end ClassTable

namespace FeatureTable

theorem checkFormals_mapNotes (f : Note → Note) (classes : ClassTable) (c : ClassDecl) :
    ∀ (seen : List String) (formals : List Formal),
      checkFormals classes (c.mapNotes f) seen formals = checkFormals classes c seen formals
  | _, [] => rfl
  | seen, g :: formals => by
    have hmore := checkFormals_mapNotes f classes c (g.name :: seen) formals
    rw [checkFormals, checkFormals, hmore]
    rfl

theorem checkFeature_mapNotes (f : Note → Note) (t : FeatureTable) (classes : ClassTable)
    (c : ClassDecl) (resolved : Bool) (own : ClassFeatures) (g : Feature) :
    t.checkFeature classes (c.mapNotes f) resolved own (g.mapNotes f) =
      t.checkFeature classes c resolved own g := by
  cases g with
  | attr a => rfl
  | method m =>
    have hwritten : writtenSignature classes (c.mapNotes f) (m.mapNotes f) =
        writtenSignature classes c m := by
      have hformals : checkFormals classes (c.mapNotes f) [] (m.mapNotes f).formals =
          checkFormals classes c [] m.formals := checkFormals_mapNotes f classes c [] m.formals
      rw [writtenSignature, writtenSignature, hformals]
      rfl
    show t.checkMethod classes (c.mapNotes f) resolved own (m.mapNotes f) =
      t.checkMethod classes c resolved own m
    rw [checkMethod, checkMethod, hwritten]
    rfl

theorem checkFeatures_mapNotes (f : Note → Note) (t : FeatureTable) (classes : ClassTable)
    (c : ClassDecl) (resolved : Bool) : ∀ (fs : List Feature) (own : ClassFeatures),
      t.checkFeatures classes (c.mapNotes f) resolved own (fs.map (Feature.mapNotes f)) =
        t.checkFeatures classes c resolved own fs
  | [], _ => rfl
  | g :: fs, own => by
    rw [List.map_cons, checkFeatures, checkFeatures, checkFeature_mapNotes]
    exact congrArg _ (funext fun own => checkFeatures_mapNotes f t classes c resolved fs own)

theorem checkClass_mapNotes (f : Note → Note) (t : FeatureTable) (classes : ClassTable)
    (resolved : Bool) (c : ClassDecl) :
    t.checkClass classes resolved (c.mapNotes f) = t.checkClass classes resolved c :=
  checkFeatures_mapNotes f t classes c resolved c.features .empty

theorem declaration?_mapNotes (f : Note → Note) (classes : ClassTable) (p : Program)
    (name : String) : declaration? classes (p.mapNotes f) name =
      (declaration? classes p name).map (Prod.map id (ClassDecl.mapNotes f)) := by
  unfold declaration?
  cases (classes.find? name).bind fun c => c.origin.index? with
  | none => rfl
  | some index =>
    have hindex : (p.mapNotes f).classes[index]? = p.classes[index]?.map (ClassDecl.mapNotes f) :=
      List.getElem?_map
    rw [Option.bind_some, Option.bind_some, hindex, Option.map_map, Option.map_map]
    rfl

theorem enterAll_mapNotes (f : Note → Note) (classes : ClassTable) :
    ∀ (cs : List (Nat × ClassDecl)) (t : FeatureTable),
      enterAll classes t (cs.map (Prod.map id (ClassDecl.mapNotes f))) = enterAll classes t cs
  | [], _ => rfl
  | (index, c) :: cs, t => by
    have hc := checkClass_mapNotes f t classes true c
    have hname : (c.mapNotes f).name = c.name := rfl
    simp only [List.map_cons, Prod.map, id, enterAll, hc, hname, enterAll_mapNotes f classes cs]

theorem ofProgram_mapNotes (f : Note → Note) (p : Program) (classes : ClassTable) :
    ofProgram (p.mapNotes f) classes = ofProgram p classes := by
  have hlength : (p.mapNotes f).classes.length = p.classes.length := List.length_map _
  have hfilter : ∀ names : List String, names.filterMap (declaration? classes (p.mapNotes f)) =
      (names.filterMap (declaration? classes p)).map (Prod.map id (ClassDecl.mapNotes f)) := by
    intro names
    rw [List.map_filterMap]
    exact List.filterMap_congr fun name _ => declaration?_mapNotes f classes p name
  have hclasses : ∀ cs : List ClassInfo,
      cs.filterMap (fun c => declaration? classes (p.mapNotes f) c.name) =
        (cs.filterMap fun c => declaration? classes p c.name).map
          (Prod.map id (ClassDecl.mapNotes f)) := by
    intro cs
    rw [List.map_filterMap]
    exact List.filterMap_congr fun c _ => declaration?_mapNotes f classes p c.name
  unfold ofProgram
  simp only [hlength, hfilter, hclasses, enterAll_mapNotes, List.map_map, Function.comp_def,
    Prod.map, id, checkClass_mapNotes]

/-- The feature table depends on the text. -/
theorem ofProgram_erase (p : Program) (classes : ClassTable) :
    ofProgram p.erase classes = ofProgram p classes :=
  ofProgram_mapNotes Note.erase p classes

end FeatureTable

/-! ## A second analysis -/

/-- The check of what came out of a check is that check. -/
theorem Expr.check_check (Γ : Context) (σ : Scope) (e : Expr) :
    (e.check Γ σ).value.1.check Γ σ = e.check Γ σ :=
  Expr.check_eq_of_erase_eq (Expr.erase_check Γ σ e) Γ σ

theorem Feature.check_check (seen : List String) (g : Feature) :
    (g.check Γ σ seen).value.check Γ σ seen = g.check Γ σ seen := by
  cases g with
  | attr a =>
    obtain ⟨name, type, init, span⟩ := a
    cases init with
    | none => rfl
    | some e =>
      simp only [Feature.check, Attribute.check, Diagnosed.value_bind, Diagnosed.value_pure,
        Expr.check_check]
  | method m =>
    simp only [Feature.check, Method.check, Diagnosed.value_bind, Diagnosed.value_pure,
      Expr.check_check]
    rfl

theorem Feature.seenBehind_check (seen : List String) (g : Feature) (behind : List String) :
    (g.check Γ σ seen).value.seenBehind behind = g.seenBehind behind := by
  cases g <;> rfl

theorem Feature.checkAll_checkAll (Γ : Context) (σ : Scope) :
    ∀ (fs : List Feature) (seen : List String) (c : Collector),
      Feature.checkAll Γ σ seen c (Feature.checkAll Γ σ seen c fs).1 =
        Feature.checkAll Γ σ seen c fs
  | [], _, _ => rfl
  | g :: fs, seen, c => by
    rw [Feature.checkAll]
    split_ifs with hhalted
    · rw [Feature.checkAll, if_pos hhalted]
    · dsimp only
      rw [Feature.checkAll, if_neg hhalted, Feature.check_check, Feature.seenBehind_check]
      dsimp only
      rw [Feature.checkAll_checkAll Γ σ fs]

theorem Checker.checkDecl_checkDecl (k : Checker) (index : Nat) (c : ClassDecl) :
    k.checkDecl index (k.checkDecl index c).1 = k.checkDecl index c := by
  by_cases hchecked : k.context.classes.isChecked index c = true
  · have hagain : k.context.classes.isChecked index (k.checkClass c).1 = true := hchecked
    have hdecl : k.checkDecl index c = k.checkClass c := if_pos hchecked
    rw [hdecl, checkDecl, if_pos hagain]
    have hall := Feature.checkAll_checkAll (c.context k.context.classes k.context.features)
      (.forClass k.context.classes k.context.features c.name) c.features [] k.collector
    rw [checkClass_eq, checkClass_eq]
    dsimp only [ClassDecl.context] at hall ⊢
    rw [hall]
    rfl
  · have hdecl : k.checkDecl index c = (c, k) := if_neg hchecked
    rw [hdecl, hdecl]

theorem Checker.checkDecls_checkDecls : ∀ (cs : List ClassDecl) (k : Checker) (index : Nat),
    k.checkDecls index (k.checkDecls index cs).1 = k.checkDecls index cs
  | [], _, _ => rfl
  | c :: cs, k, index => by
    rw [checkDecls_cons]
    split_ifs with hhalted
    · rw [checkDecls_of_halted hhalted]
    · dsimp only
      rw [checkDecls_cons, if_neg hhalted, checkDecl_checkDecl, checkDecls_checkDecls cs]

theorem Checker.checkProgram_checkProgram (k : Checker) (p : Program) :
    k.checkProgram (k.checkProgram p).1 = k.checkProgram p := by
  unfold checkProgram
  dsimp only
  rw [checkDecls_checkDecls]

/-- The program that comes out of an analysis is analyzed in the same way. -/
theorem analyze_analyze (limit : Option Nat) (p : Program) :
    (p.analyze limit).program.analyze limit = p.analyze limit := by
  have htext := erase_analyze limit p
  have hclasses : ClassTable.ofProgram (p.analyze limit).program = ClassTable.ofProgram p := by
    rw [← ClassTable.ofProgram_erase, htext, ClassTable.ofProgram_erase]
  have hfeatures : ∀ classes, FeatureTable.ofProgram (p.analyze limit).program classes =
      FeatureTable.ofProgram p classes := by
    intro classes
    rw [← FeatureTable.ofProgram_erase, htext, FeatureTable.ofProgram_erase]
  rw [Program.analyze, hclasses]
  simp only [hfeatures]
  rw [Program.analyze]
  dsimp only
  split_ifs with hclasses hfeatures
  · rfl
  · rfl
  · dsimp only [Analysis.ofCollector]
    rw [Checker.checkProgram_checkProgram]

end Cool
