import Cool.Proofs.Analysis.Visits
import Cool.Proofs.Typing.Walk

/-!
# Features checked alone

As a walk leaves its place as it was, a feature is checked as if it were alone: in the fresh scope
of its class, behind the names of the methods in front of it. Without a limit, a class has the
reports of its features one after the other. The names in front count only for a method that is
declared again; so features of different names can trade places, and each keeps its types and its
reports.

* `Feature.withSeen_append`, `Feature.map_check_withSeen` : the names in front;
* `Scope.inner_forClass`, `ClassDecl.run_walk` : a class, and the scope in which it ends;
* `Checker.alone`, `Checker.apart` : a feature alone, and several of them;
* `Checker.apart_of_perm`, `Checker.checkClass_apart` : features that trade places, and classes;
* `Checker.walk_apart` : expressions leave nothing behind, nor do the features of a class.
-/

namespace Cool

open Diagnosed

/-! ## Names in front -/

namespace Feature

variable {Γ : Context} {σ : Scope} {seen seen' : List String} {f : Feature}

/-- The names of the methods among some features. -/
def methodNames (fs : List Feature) : List String :=
  (fs.filterMap method?).map Method.name

/-- The names of the methods up to the end of some features. -/
def seenBehindAll (seen : List String) (fs : List Feature) : List String :=
  fs.foldl (fun seen f => f.seenBehind seen) seen

theorem seenBehindAll_append (seen : List String) (fs gs : List Feature) :
    seenBehindAll seen (fs ++ gs) = seenBehindAll (seenBehindAll seen fs) gs :=
  List.foldl_append

theorem withSeen_append : ∀ (fs gs : List Feature) (seen : List String),
    withSeen seen (fs ++ gs) = withSeen seen fs ++ withSeen (seenBehindAll seen fs) gs
  | [], _, _ => rfl
  | f :: fs, gs, seen => by
    rw [List.cons_append, withSeen, withSeen, withSeen_append fs gs, List.cons_append]
    rfl

theorem mem_seenBehindAll_iff {name : String} : ∀ (fs : List Feature) {seen : List String},
    name ∈ seenBehindAll seen fs ↔ name ∈ methodNames fs ∨ name ∈ seen
  | [], seen => by simp [seenBehindAll, methodNames]
  | f :: fs, seen => by
    show name ∈ seenBehindAll (f.seenBehind seen) fs ↔ _
    rw [mem_seenBehindAll_iff fs]
    cases f with
    | attr a => rfl
    | method m =>
      show _ ∨ name ∈ m.name :: seen ↔ name ∈ m.name :: methodNames fs ∨ _
      rw [List.mem_cons, List.mem_cons]
      tauto

/-- Of the names in front, only that of the method itself counts. -/
theorem check_congr_seen (h : ∀ m, f = .method m → (m.name ∈ seen ↔ m.name ∈ seen')) :
    f.check Γ σ seen = f.check Γ σ seen' := by
  cases f with
  | attr a => rfl
  | method m =>
    have hagain : seen.contains m.name = seen'.contains m.name := by
      rw [Bool.eq_iff_iff, List.contains_iff_mem, List.contains_iff_mem]
      exact h m rfl
    simp only [check, hagain]

/-- Of the names in front, the order does not count. -/
theorem map_check_withSeen_congr : ∀ (fs : List Feature) {seen seen' : List String},
    (∀ name, name ∈ seen ↔ name ∈ seen') →
      ((withSeen seen fs).map fun x => x.2.check Γ σ x.1) =
        (withSeen seen' fs).map fun x => x.2.check Γ σ x.1
  | [], _, _, _ => rfl
  | f :: fs, seen, seen', h => by
    have hbehind (name : String) : name ∈ f.seenBehind seen ↔ name ∈ f.seenBehind seen' := by
      cases f with
      | attr a => exact h name
      | method m =>
        show name ∈ m.name :: seen ↔ name ∈ m.name :: seen'
        rw [List.mem_cons, List.mem_cons, h name]
    rw [withSeen, List.map_cons, check_congr_seen fun m _ => h m.name,
      map_check_withSeen_congr fs hbehind]
    rfl

/-- Methods of different names do not declare one another again. -/
theorem map_check_withSeen : ∀ (fs : List Feature) {seen seen' : List String},
    (methodNames fs).Nodup → (∀ name ∈ methodNames fs, name ∈ seen ↔ name ∈ seen') →
      ((withSeen seen fs).map fun x => x.2.check Γ σ x.1) = fs.map fun f => f.check Γ σ seen'
  | [], _, _, _, _ => rfl
  | .attr a :: fs, seen, seen', hnames, h =>
    congrArg (check Γ σ seen (.attr a) :: ·) (map_check_withSeen fs hnames h)
  | .method m :: fs, seen, seen', hnames, h => by
    obtain ⟨hm, hfs⟩ := List.nodup_cons.mp (show (m.name :: methodNames fs).Nodup from hnames)
    -- the methods behind have other names, so this one does not count for them
    have hrest (name : String) (hname : name ∈ methodNames fs) :
        name ∈ seenBehind seen (.method m) ↔ name ∈ seen' := by
      rw [seenBehind, List.mem_cons, ← h name (List.mem_cons_of_mem _ hname)]
      exact or_iff_right fun heq => hm (heq ▸ hname)
    have hfirst : check Γ σ seen (.method m) = check Γ σ seen' (.method m) :=
      check_congr_seen fun n hn => by
        cases hn
        exact h m.name List.mem_cons_self
    rw [withSeen, List.map_cons, List.map_cons, map_check_withSeen fs hfs hrest, hfirst]

end Feature

/-- The check of a method against its own written signature. -/
def Method.checkWritten (Γ : Context) (σ : Scope) (m : Method) : Diagnosed Method := do
  let (body, type) ← m.body.check Γ (Γ.declareFormals σ.push [] m.formals)
  let declared := (Γ.classes.resolveType? m.returnType).getD .object
  Γ.requireConforms m.span type declared (.returnMismatch type m.name declared)
  return { m with body }

/-! ## Classes -/

namespace Scope

theorem inner_declare_of_inner_eq_nil {σ : Scope} (h : σ.inner = []) (name : String) (τ : Ty) :
    (σ.declare name τ).inner = [] := by
  unfold declare
  rw [h]
  split_ifs with hself
  · exact h
  · rfl

/-- The scope of a class has one frame. -/
theorem inner_forClass (classes : ClassTable) (features : FeatureTable) (name : String) :
    (forClass classes features name).inner = [] := by
  have hfold : ∀ (attributes : List AttributeSig) (σ : Scope), σ.inner = [] →
      (attributes.foldl (fun σ a => σ.declare a.name a.type) σ).inner = [] := by
    intro attributes
    induction attributes with
    | nil => exact fun _ h => h
    | cons a attributes ih => exact fun σ h => ih _ (inner_declare_of_inner_eq_nil h _ _)
  exact hfold _ _ rfl

end Scope

theorem ClassDecl.run_walk (C : Closing) (k : Checker) (c : ClassDecl) :
    (c.walk C).run k = k.checkClass c := by
  show (Feature.walkAll C [] c.features >>= fun features =>
    (pure { c with features } : Walk ClassDecl)).run (k.enter c) = _
  rw [StateT.run_bind]
  show (StateT.run (Feature.walkAll C [] c.features)
    ⟨(k.enter c).context, (k.enter c).scope, k.collector⟩ >>= _) = _
  rw [Feature.run_walkAll, Checker.checkClass_eq]
  rfl

namespace Checker

variable (C : Closing) (k : Checker) (c : ClassDecl)

/-- A feature of a class alone: walked through in the fresh scope of the class, behind methods with
the names of `seen`, with a collector that has nothing in it yet and no limit. -/
def alone (seen : List String) (f : Feature) : Diagnosed Feature :=
  let ended := (f.walk C seen).run { k.enter c with collector := .empty none }
  ⟨ended.1, ended.2.collector.entries⟩

/-- Features of a class, each of them alone, behind methods with the names of `seen`. -/
def apart (seen : List String) (fs : List Feature) : List (Diagnosed Feature) :=
  (Feature.withSeen seen fs).map fun x => k.alone C c x.1 x.2

/-- The features of a class, each of them alone. -/
def blocks : List (Diagnosed Feature) :=
  k.apart C c [] c.features

theorem alone_eq (seen : List String) (f : Feature) :
    k.alone C c seen f = f.check (c.context k.context.classes k.context.features)
      (.forClass k.context.classes k.context.features c.name) seen := by
  unfold alone enter
  rw [f.runs_walk C seen]
  show Diagnosed.mk _ ((Collector.empty none).extend _).entries = _
  rw [Collector.entries_extend rfl]
  rfl

theorem apart_append (seen : List String) (fs gs : List Feature) :
    k.apart C c seen (fs ++ gs) =
      k.apart C c seen fs ++ k.apart C c (Feature.seenBehindAll seen fs) gs := by
  unfold apart
  rw [Feature.withSeen_append, List.map_append]

/-- Methods of different names that are not declared in front are as the first of their names. -/
theorem apart_eq_map {seen : List String} {fs : List Feature}
    (hnames : (Feature.methodNames fs).Nodup) :
    k.apart C c seen fs = fs.map (k.alone C c seen) := by
  rw [List.map_congr_left fun f _ => k.alone_eq C c seen f]
  unfold apart
  simp only [alone_eq]
  exact Feature.map_check_withSeen fs hnames fun _ _ => Iff.rfl

/-- What is behind some features does not ask for their order. -/
theorem apart_seenBehindAll_of_perm {mid mid' : List Feature} (hperm : mid'.Perm mid)
    (seen : List String) (fs : List Feature) :
    k.apart C c (Feature.seenBehindAll seen mid') fs =
      k.apart C c (Feature.seenBehindAll seen mid) fs := by
  have hmem (name : String) :
      name ∈ Feature.seenBehindAll seen mid' ↔ name ∈ Feature.seenBehindAll seen mid := by
    rw [Feature.mem_seenBehindAll_iff, Feature.mem_seenBehindAll_iff]
    exact or_congr_left ((hperm.filterMap _).map _).mem_iff
  unfold apart
  simp only [alone_eq]
  exact Feature.map_check_withSeen_congr fs hmem

/-- Features of different names can trade places. -/
theorem apart_of_perm {front mid mid' back : List Feature}
    (hnames : (Feature.methodNames mid).Nodup) (hperm : mid'.Perm mid) :
    k.apart C c [] (front ++ mid' ++ back) =
      k.apart C c [] front ++ mid'.map (k.alone C c (Feature.seenBehindAll [] front)) ++
        k.apart C c (Feature.seenBehindAll [] (front ++ mid)) back := by
  have hnames' : (Feature.methodNames mid').Nodup :=
    ((hperm.filterMap Feature.method?).map Method.name).nodup_iff.mpr hnames
  rw [apart_append, apart_append, k.apart_eq_map C c hnames', Feature.seenBehindAll_append,
    Feature.seenBehindAll_append, k.apart_seenBehindAll_of_perm C c hperm]

/-- Without a limit, a class has the features and the reports of its features alone. -/
theorem checkClass_apart (h : k.collector.limit = none) :
    (k.checkClass c).1.features = (k.blocks C c).map Diagnosed.value ∧
      (k.checkClass c).2.collector.entries =
        k.collector.entries ++ (k.blocks C c).flatMap Diagnosed.reports := by
  obtain ⟨hvalue, hentries⟩ := checkClass_of_limit_eq_none h c
  have hreports : (c.checkEach k.context.classes k.context.features).reports =
      (Feature.checkEach (c.context k.context.classes k.context.features)
        (.forClass k.context.classes k.context.features c.name) [] c.features).reports :=
    List.append_nil _
  rw [hvalue, hentries, hreports, Feature.reports_checkEach]
  unfold blocks apart
  rw [List.map_map, List.flatMap_map]
  simp only [Function.comp_def, alone_eq]
  exact ⟨Feature.value_checkEach c.features [], trivial⟩

/-- A method that is declared again is checked against its own written signature, alone too. -/
theorem alone_again {seen : List String} {m : Method} (h : m.name ∈ seen) :
    k.alone C c seen (.method m) = Feature.method <$> m.checkWritten
      (c.context k.context.classes k.context.features)
      (.forClass k.context.classes k.context.features c.name) := by
  rw [alone_eq, Feature.check, List.contains_iff_mem.mpr h]
  rfl

/-- Checking leaks no state. A walk through an expression leaves the checker as it was but for what
it has collected, and one through a class leaves the scope of the class, with no frame on it; both
are the checks that hand their scopes down, and however the outermost frame would be closed. So
without a limit, the features of a class and the reports on it are those of its features alone, and
in front of others and behind others, features of different names can trade places. -/
theorem walk_apart :
    (∀ e : Expr, (e.walk C).run k = k.checkExpr e ∧
      ((e.walk C).run k).2 = { k with collector := ((e.walk C).run k).2.collector }) ∧
    (∀ c : ClassDecl, (c.walk C).run k = k.checkClass c ∧
      ((c.walk C).run k).2.scope = .forClass k.context.classes k.context.features c.name ∧
      ((c.walk C).run k).2.scope.depth = 1) ∧
    (k.collector.limit = none → ∀ c : ClassDecl,
      (k.checkClass c).1.features = (k.blocks C c).map Diagnosed.value ∧
      (k.checkClass c).2.collector.entries =
        k.collector.entries ++ (k.blocks C c).flatMap Diagnosed.reports) ∧
    (∀ (c : ClassDecl) (seen : List String) (m : Method), m.name ∈ seen →
      k.alone C c seen (.method m) = Feature.method <$> m.checkWritten
        (c.context k.context.classes k.context.features)
        (.forClass k.context.classes k.context.features c.name)) ∧
    ∀ (c : ClassDecl) (front mid back : List Feature), (Feature.methodNames mid).Nodup →
      ∀ mid', mid'.Perm mid → k.blocks C { c with features := front ++ mid' ++ back } =
        k.apart C c [] front ++ mid'.map (k.alone C c (Feature.seenBehindAll [] front)) ++
          k.apart C c (Feature.seenBehindAll [] (front ++ mid)) back := by
  refine ⟨fun e => ?_, fun c => ?_, fun h c => k.checkClass_apart C c h,
    fun c _ _ h => k.alone_again C c h,
    fun c front mid back hnames mid' hperm => k.apart_of_perm C c hnames hperm⟩
  · have hrun : (e.walk C).run k = k.checkExpr e := e.runs_walk C k.scope k.collector
    rw [hrun]
    exact ⟨rfl, rfl⟩
  · rw [c.run_walk C k]
    refine ⟨rfl, rfl, ?_⟩
    show (Scope.forClass _ _ _).inner.length + 1 = 1
    rw [Scope.inner_forClass, List.length_nil]

end Checker

/-- A method with an undeclared name in its body. -/
def Sample.method (name type : String) : Method :=
  ⟨name, [], type, .letIn default "x" "Int" none (.object default "y"), default⟩

/-- Two methods of one name and one of another. -/
def Sample.first : Feature :=
  .method (Sample.method "f" "Int")

def Sample.again : Feature :=
  .method (Sample.method "f" "String")

def Sample.other : Feature :=
  .method (Sample.method "g" "Bool")

def Sample.redeclaring : ClassDecl :=
  ⟨"Main", "Object", [Sample.first, Sample.again, Sample.other], "a.cl", default⟩

/-- A checker with the tables of this class, and without a limit. -/
def Sample.redeclared : Checker :=
  .start (Program.mk [Sample.redeclaring]).classTable (Program.mk [Sample.redeclaring]).featureTable
    none

/-- The second `f` trades places with `g`, and is still checked against the type that is written. -/
theorem Checker.walk_apart_redeclaring :
    Sample.redeclared.collector.limit = none ∧
      (Feature.methodNames [Sample.again, Sample.other]).Nodup ∧
      [Sample.other, Sample.again].Perm [Sample.again, Sample.other] ∧ "f" ∈ ["f"] ∧
      (Sample.redeclared.checkClass { Sample.redeclaring with
          features := [Sample.first, Sample.other, Sample.again] }).2.collector.entries =
        (Sample.redeclared.alone .pop Sample.redeclaring [] Sample.first).reports ++
          ((Sample.redeclared.alone .pop Sample.redeclaring ["f"] Sample.other).reports ++
            (Sample.redeclared.alone .pop Sample.redeclaring ["f"] Sample.again).reports) ∧
      (Sample.redeclared.alone .pop Sample.redeclaring ["f"] Sample.again).reports.map
          Diagnostic.cause =
        [.typing (.undeclared "y"), .typing (.returnMismatch .object "f" .string)] := by
  have hnames : (Feature.methodNames [Sample.again, Sample.other]).Nodup := by decide
  have hperm : [Sample.other, Sample.again].Perm [Sample.again, Sample.other] := .swap _ _ _
  have hf : "f" ∈ ["f"] := List.mem_cons_self
  obtain ⟨-, -, hclass, hagain, htrade⟩ := Checker.walk_apart .pop Sample.redeclared
  refine ⟨rfl, hnames, hperm, hf, ?_, ?_⟩
  · have hentries := (hclass rfl { Sample.redeclaring with
      features := [Sample.first, Sample.other, Sample.again] }).2
    have hblocks := htrade Sample.redeclaring [Sample.first] _ [] hnames _ hperm
    exact hentries.trans (congrArg (List.flatMap Diagnosed.reports) hblocks)
  · have hwritten := hagain Sample.redeclaring ["f"] (Sample.method "f" "String") hf
    refine (congrArg (fun x => x.reports.map Diagnostic.cause) hwritten).trans ?_
    decide +kernel

end Cool
