import Cool.Proofs.Analysis.Annotation
import Cool.Proofs.Signature.Heir
import Cool.Proofs.Typing.Heir

/-!
# Features in an heir

The features of a class are correct in every class that inherits from it, so that it is enough to
check them where they are declared.

* `Formal.bind` : the variables that formal parameters bind;
* `Method.check_eq` : the check of a method whose signature is the one that is written;
* `Feature.check_inside`, `ClassDecl.checkEach_inside` : features in an heir;
* `checkClass_heir` : the features of a class of a correct program, in any heir.
-/

namespace Cool

open Diagnosed

/-! ## Formal parameters -/

/-- The variables of the formal parameters so far and of one more. -/
def Formal.bind (F : Frame) (f : Formal) : Frame :=
  if f.name = Names.self || (F.lookup f.name).isSome then F else (f.name, .ofName f.type) :: F

/-- The scope of a body. -/
def Method.scope (m : Method) (σ : Scope) : Scope :=
  ⟨m.formals.foldl Formal.bind [] :: σ.inner, σ.base⟩

variable {Γ : Context} {σ σ' : Scope} {W : World} {heir : String}

theorem lookup_foldl_bind : ∀ {fs : List Formal} {F : Frame} {x : String} {τ : Ty},
    (fs.foldl Formal.bind F).lookup x = some τ → F.lookup x = some τ ∨
      ∃ f ∈ fs, τ = .ofName f.type
  | [], _, _, _, h => Or.inl h
  | f :: fs, F, x, τ, h => by
    have hrest : (f.bind F).lookup x = some τ ∨ ∃ g ∈ fs, τ = .ofName g.type :=
      lookup_foldl_bind h
    rcases hrest with hf | ⟨g, hg, hτ⟩
    · unfold Formal.bind at hf
      split_ifs at hf
      · exact Or.inl hf
      · rw [List.lookup_cons] at hf
        split at hf
        · exact Or.inr ⟨f, List.mem_cons_self, (Option.some.inj hf).symm⟩
        · exact Or.inl hf
    · exact Or.inr ⟨g, List.mem_cons_of_mem f hg, hτ⟩

theorem Method.valid_scope {m : Method} (hσ : Env.Valid W σ.lookup?)
    (hm : ∀ f ∈ m.formals, W.IsType (.ofName f.type)) : Env.Valid W (m.scope σ).lookup? := by
  intro x τ hx
  rw [Method.scope, Scope.lookup?_frame] at hx
  split_ifs at hx with hself
  · cases hx
    trivial
  · rcases Option.or_eq_some_iff.mp hx with hF | ⟨-, hx⟩
    · rcases lookup_foldl_bind hF with hnil | ⟨f, hf, rfl⟩
      · cases hnil
      · exact hm f hf
    · exact hσ x τ hx

theorem Context.formalType_eq {f : Formal} (hf : f.WellDeclared Γ.classes)
    {signature : Option FormalSig} (h : ∀ s ∈ signature, s.type = .ofName f.type) :
    Γ.formalType signature f = .ofName f.type := by
  cases signature with
  | some s => exact h s rfl
  | none =>
    have hresolve : Γ.classes.resolveType? f.type = some (.ofName f.type) :=
      ClassTable.resolveType?_eq_some_iff.mpr ⟨rfl, Or.inr hf.contains⟩
    have hname : Ty.ofName f.type = .named f.type := if_neg hf.type
    rw [Context.formalType, hresolve, hname]

theorem Context.declareFormals_eq (σ : Scope) : ∀ {fs : List Formal} {signatures : List FormalSig}
    (F : Frame), (∀ f ∈ fs, f.WellDeclared Γ.classes) →
      signatures = [] ∨ signatures.map FormalSig.type = fs.map (fun f => .ofName f.type) →
      Γ.declareFormals ⟨F :: σ.inner, σ.base⟩ signatures fs =
        ⟨fs.foldl Formal.bind F :: σ.inner, σ.base⟩
  | [], [], _, _, _ | [], _ :: _, _, _, _ => rfl
  | f :: fs, signatures, F, hfs, hsignatures => by
    rw [List.forall_mem_cons] at hfs
    obtain ⟨hhead, htail⟩ : (∀ s ∈ signatures.head?, s.type = .ofName f.type) ∧
        (signatures.tail = [] ∨
          signatures.tail.map FormalSig.type = fs.map (fun f => .ofName f.type)) := by
      cases signatures with
      | nil => exact ⟨nofun, Or.inl rfl⟩
      | cons s signatures =>
        have htypes := hsignatures.resolve_left (List.cons_ne_nil s signatures)
        rw [List.map_cons, List.map_cons, List.cons.injEq] at htypes
        exact ⟨fun _ hs => Option.some.inj hs ▸ htypes.1, Or.inr htypes.2⟩
    have hbind : (if f.name = Names.self || Scope.declaredLocally ⟨F :: σ.inner, σ.base⟩ f.name
        then ⟨F :: σ.inner, σ.base⟩ else Scope.declare ⟨F :: σ.inner, σ.base⟩ f.name
          (Γ.formalType signatures.head? f)) = ⟨f.bind F :: σ.inner, σ.base⟩ := by
      have hlocally : Scope.declaredLocally ⟨F :: σ.inner, σ.base⟩ f.name =
          (F.lookup f.name).isSome := rfl
      rw [Context.formalType_eq hfs.1 hhead, hlocally]
      unfold Formal.bind
      split_ifs with hbound
      · rfl
      · rw [Scope.declare, if_neg hfs.1.name]
    rw [Context.declareFormals, hbind, Context.declareFormals_eq σ _ hfs.2 htail]
    rfl

/-! ## Single features -/

/-- The signature that a context has for a method, if it has one, has the types that are written. -/
def Context.Knows (Γ : Context) (m : Method) : Prop :=
  ∀ s ∈ Γ.features.ownMethod? Γ.className m.name, s.Agrees (m.signature Γ.className)

/-- The check of a method, in terms of the types that are written. -/
theorem Method.check_eq {m : Method} {t : FeatureTable} {c : ClassDecl} {resolved : Bool}
    (hΓ : Γ.Knows m) (hm : m.WellDeclared t Γ.classes c resolved) (σ : Scope) (again : Bool) :
    m.check Γ σ again = (do
      let (body, type) ← m.body.check Γ (m.scope σ)
      Γ.requireConforms m.span type (.ofName m.returnType)
        (.returnMismatch type m.name (.ofName m.returnType))
      return { m with body }) := by
  have hsignature : ∀ s ∈ (if again then none else Γ.features.ownMethod? Γ.className m.name),
      s.Agrees (m.signature Γ.className) := by
    intro s hs
    split_ifs at hs
    · cases hs
    · exact hΓ s hs
  unfold Method.check
  dsimp only
  generalize (if again then none else Γ.features.ownMethod? Γ.className m.name) = signature at *
  have hscope : Γ.declareFormals σ.push (signature.elim [] MethodSig.formals) m.formals =
      m.scope σ := by
    refine Context.declareFormals_eq σ [] hm.formals ?_
    cases signature with
    | none => exact Or.inl rfl
    | some s =>
      refine Or.inr ((hsignature s rfl).1.trans ?_)
      rw [Method.signature, List.map_map]
      rfl
  have hreturn : Γ.returnType signature m = .ofName m.returnType := by
    cases signature with
    | none =>
      have hresolve : Γ.classes.resolveType? m.returnType = some (.ofName m.returnType) :=
        ClassTable.resolveType?_eq_some_iff.mpr ⟨rfl, hm.returnType⟩
      rw [Context.returnType, hresolve]
      rfl
    | some s => exact (hsignature s rfl).2
  rw [hscope, hreturn]

/-- The types that are noted in a feature take the place of those noted in another. -/
def Feature.Refines (W : World) (f' f : Feature) : Prop :=
  List.Forall₂ (Note.Refines W) f'.notes f.notes

theorem Attribute.check_inside (hΓ : Γ.HasHeir heir) (file : String) (a : Attribute)
    (hσ : Env.Valid Γ.world σ.lookup?) (h : σ.Within σ') :
    Follows (fun a' a => Feature.Refines Γ.world (.attr a') (.attr a))
      (a.check (Γ.inside heir file) σ') (a.check Γ σ) := by
  obtain ⟨name, type, init, span⟩ := a
  cases init with
  | none => exact follows_pure .nil
  | some e =>
    refine (Expr.check_inside hΓ file e hσ h).bind fun x y hxy => ?_
    exact (Context.requireConforms_follows hΓ hxy.1).bind fun _ _ _ => follows_pure hxy.2

theorem Method.check_inside (hΓ : Γ.HasHeir heir) (file : String) {m : Method} {t : FeatureTable}
    {c : ClassDecl} {resolved : Bool} (hm : m.WellDeclared t Γ.classes c resolved)
    (hknows : Γ.Knows m) (hknows' : (Γ.inside heir file).Knows m)
    (hσ : Env.Valid Γ.world σ.lookup?) (h : σ.Within σ') (again : Bool) :
    Follows (fun m' m => Feature.Refines Γ.world (.method m') (.method m))
      (m.check (Γ.inside heir file) σ' again) (m.check Γ σ again) := by
  have hscope : Env.Valid Γ.world (m.scope σ).lookup? := by
    refine Method.valid_scope hσ fun f hf => ?_
    have hname : Ty.ofName f.type = .named f.type := if_neg (hm.formals f hf).type
    rw [hname]
    exact (hm.formals f hf).contains
  rw [Method.check_eq hknows' hm, Method.check_eq hknows hm]
  refine (Expr.check_inside hΓ file m.body hscope (h.frame _)).bind fun x y hxy => ?_
  exact (Context.requireConforms_follows hΓ hxy.1).bind fun _ _ _ => follows_pure hxy.2

/-- Features that are correct in a class are correct in its heirs. -/
theorem Feature.checkEach_inside (hΓ : Γ.HasHeir heir) (file : String) {t : FeatureTable}
    {c : ClassDecl} {resolved : Bool} (hσ : Env.Valid Γ.world σ.lookup?) (h : σ.Within σ') :
    ∀ (fs : List Feature) (seen : List String),
      (∀ m, Feature.method m ∈ fs → m.WellDeclared t Γ.classes c resolved ∧ Γ.Knows m ∧
        (Γ.inside heir file).Knows m) →
      Follows (List.Forall₂ (Feature.Refines Γ.world))
        (Feature.checkEach (Γ.inside heir file) σ' seen fs) (Feature.checkEach Γ σ seen fs)
  | [], _, _ => follows_pure .nil
  | f :: fs, seen, hfs => by
    have hf : Follows (Feature.Refines Γ.world) (f.check (Γ.inside heir file) σ' seen)
        (f.check Γ σ seen) := by
      cases f with
      | attr a =>
        exact (Attribute.check_inside hΓ file a hσ h).bind fun _ _ hnotes => follows_pure hnotes
      | method m =>
        obtain ⟨hm, hknows, hknows'⟩ := hfs m List.mem_cons_self
        exact (Method.check_inside hΓ file hm hknows hknows' hσ h _).bind
          fun _ _ hnotes => follows_pure hnotes
    refine hf.bind fun _ _ hnotes => ?_
    have hrest := Feature.checkEach_inside hΓ file hσ h fs (f.seenBehind seen)
      fun m hm => hfs m (List.mem_cons_of_mem f hm)
    exact hrest.bind fun _ _ hmore => follows_pure (.cons hnotes hmore)

/-! ## Classes of a program -/

variable {p : Program} {i : Nat} {c d : ClassDecl}

theorem Program.WellDeclared.hasHeir (h : p.WellDeclared) (haccepts : p.Accepts i c)
    (hdc : p.classTable.Inherits d.name c.name) :
    (c.context p.classTable p.featureTable).HasHeir d.name where
  lawful := h.lawful rfl rfl (contains_of_accepts haccepts)
  coherent := h.coherent
  heir := heir haccepts hdc

/-- The features of a class that are correct where they are declared are correct in an heir. -/
theorem ClassDecl.checkEach_inside (h : p.WellDeclared) (haccepts : p.Accepts i c)
    (hfeatures : d.features = c.features) (hdc : p.classTable.Inherits d.name c.name) :
    Follows (fun d c => List.Forall₂ (Note.Refines (.ofTables p.classTable p.featureTable))
        d.notes c.notes)
      (d.checkEach p.classTable p.featureTable) (c.checkEach p.classTable p.featureTable) := by
  have hmethods : ∀ m, Feature.method m ∈ c.features → m ∈ c.methods :=
    fun m hm => List.mem_filterMap.mpr ⟨.method m, hm, rfl⟩
  have hfs := Feature.checkEach_inside (h.hasHeir haccepts hdc) d.file (h.valid_forClass c.name)
    (h.within_forClass hdc) c.features [] fun m hm =>
      ⟨(h.wellDeclared_class haccepts).methods m (hmethods m hm),
        fun s hs => h.agrees_of_inherits haccepts (.refl _ _) (hmethods m hm) hs,
        fun s hs => h.agrees_of_inherits haccepts hdc (hmethods m hm) hs⟩
  unfold ClassDecl.checkEach
  rw [hfeatures]
  exact hfs.bind fun _ _ hnotes => follows_pure (List.rel_flatMap hnotes fun _ _ hf => hf)

/-- In a correct program, the check of a declared class reports nothing. -/
theorem exists_checkEach_eq_pure (h : (p.analyze none).ok = true) (hc : p.classes[i]? = some c) :
    ∃ a, (p.analyze none).program.classes[i]? = some a ∧
      c.checkEach p.classTable p.featureTable = pure a := by
  have hreports := reports_eq_nil_of_ok h
  have hchecks := checks_of_reports_eq_nil hreports hc
  refine ⟨(c.checkAt p.classTable p.featureTable i).value, ?_, ?_⟩
  · rw [analyze_none, getElem?_classes_checked, hc]
    rfl
  · rw [value_checkAt_of_checks hchecks]
    have hnil := reports_checkAt_eq_nil hreports hc
    rw [ClassDecl.checkAt, if_pos ((Program.isChecked_iff hc).mpr hchecks)] at hnil
    exact eq_pure_of_reports hnil

/-- The first note has `SELF_TYPE` where the second has it, and else a class that conforms to that
of the second. -/
def Note.Below (t : ClassTable) (enclosing : String) (n' n : Note) : Prop :=
  ∃ τ' τ, n'.type? = some τ' ∧ n.type? = some τ ∧
    (τ' = .selfType ∧ τ = .selfType ∨ τ'.isSelfType = false ∧ τ.isSelfType = false ∧
      t.conforms enclosing τ' τ = .ok true)

theorem Note.Refines.below (h : p.WellDeclared) {n' n : Note}
    (hn : Note.Refines (.ofTables p.classTable p.featureTable) n' n) (enclosing : String) :
    n'.Below p.classTable enclosing n := by
  obtain ⟨τ', τ, hτ', hτ, hrefines⟩ := hn
  refine ⟨τ', τ, hτ', hτ, ?_⟩
  cases hrefines with
  | selfType => exact Or.inl ⟨rfl, rfl⟩
  | named ha hab _ =>
    refine Or.inr ⟨rfl, rfl, ?_⟩
    exact (ClassTable.conforms_iff (ClassTable.sound_ofProgram p) fun _ => h.isResolved).mpr
      (.named ha hab)

/-- The features of a class of a correct program are correct in every heir: they are checked there
without a report, and at every node stands `SELF_TYPE` where it stands in the class, or a class that
conforms to the one that stands there. -/
theorem checkClass_heir (hok : (p.analyze none).ok = true) (hc : p.classes[i]? = some c)
    (hheir : c.name ∈ ((p.analyze none).classes.ancestors d.name).map ClassInfo.name)
    (hfeatures : d.features = c.features) {k : Checker}
    (hclasses : k.context.classes = (p.analyze none).classes)
    (htable : k.context.features = (p.analyze none).features)
    (hlimit : k.collector.limit = none) :
    (k.checkClass d).2.collector.entries = k.collector.entries ∧
      ∃ a, (p.analyze none).program.classes[i]? = some a ∧
        (k.checkClass d).1.features.map (Feature.mapNotes Note.erase) =
          a.features.map (Feature.mapNotes Note.erase) ∧
        List.Forall₂ (Note.Below (p.analyze none).classes d.name) (k.checkClass d).1.notes
          a.notes := by
  have hp := wellDeclared_of_reports_eq_nil (reports_eq_nil_of_ok hok)
  have haccepts := hp.accepts hc
  obtain ⟨a, ha, hcheck⟩ := exists_checkEach_eq_pure hok hc
  rw [classes_analyze] at hheir hclasses ⊢
  rw [analyze_none] at htable
  have hdc : p.classTable.Inherits d.name c.name := by
    have hr := hp.isResolved (ClassTable.contains_of_mem_ancestors hheir)
    exact ((ClassTable.sound_ofProgram p).mem_ancestors_iff hr).mp hheir
  obtain ⟨b, hb, hnotes⟩ := ClassDecl.checkEach_inside hp haccepts hfeatures hdc a hcheck
  obtain ⟨hvalue, hentries⟩ := Checker.checkClass_of_limit_eq_none hlimit d
  rw [hclasses, htable, hb] at hvalue hentries
  refine ⟨?_, a, ha, ?_, ?_⟩
  · rw [hentries, Diagnosed.reports_pure, List.append_nil]
  · have htext : a.mapNotes Note.erase = c.mapNotes Note.erase := by
      have hprogram := congrArg Program.classes (erase_analyze none p)
      have hclass : (p.analyze none).program.erase.classes[i]? = p.erase.classes[i]? := by
        rw [hprogram]
      simpa [Program.erase, Program.mapNotes, ha, hc] using hclass
    have hfeatures' : a.features.map (Feature.mapNotes Note.erase) =
        c.features.map (Feature.mapNotes Note.erase) := congrArg ClassDecl.features htext
    rw [hfeatures', ← hfeatures, Checker.checkClass_eq]
    exact Feature.mapNotes_checkAll (fun _ _ => rfl) d.features [] k.collector
  · rw [hvalue]
    exact hnotes.imp fun _ _ hn => hn.below hp d.name

/-- The features of the class above, in the class that inherits. -/
def Sample.inherited : ClassDecl :=
  { base with name := "B" }

/-- The inherited method is correct where `SELF_TYPE` is the class that inherits it. -/
theorem checkClass_heir_sample : (Sample.program.analyze none).ok = true ∧
    (Sample.checker.checkClass Sample.inherited).2.collector.entries = [] := by
  have hok : (Sample.program.analyze none).ok = true := by decide +kernel
  have hclasses := classes_analyze none Sample.program
  have hancestor : Sample.base.name ∈ ((Sample.program.analyze none).classes.ancestors
      Sample.inherited.name).map ClassInfo.name := by
    rw [hclasses]
    decide +kernel
  have htable : Sample.checker.context.features = (Sample.program.analyze none).features := by
    rw [analyze_none]
    rfl
  exact ⟨hok, (checkClass_heir hok (i := 0) rfl hancestor rfl hclasses.symm htable rfl).1⟩

end Cool
