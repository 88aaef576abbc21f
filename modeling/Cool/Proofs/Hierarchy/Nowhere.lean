import Cool.ClassTable.Build
import Cool.Proofs.Signature.Agree
import Cool.Proofs.Tree.Moved

/-!
# Class tables without places

Places are read only to be reported. So a program whose declarations have lost their spans and
files, and stand nowhere, has the class table of the program, whose classes stand nowhere; and the
same is reported, at no place but with one wherever there was one.

* `Diagnostic.nowhere`, `Diagnosed.nowhere` : reports without their places;
* `Program.nowhere`, `ClassTable.nowhere` : programs and tables without places;
* `ClassTable.agreesAbout_nowhere`, `ClassTable.find?_nowhere`, ... : the questions to a table;
* `ClassTable.ofProgram_nowhere` : the table of a program.
-/

namespace Cool

/-! ## Reports -/

/-- The place where the basic classes stand, for what stands nowhere. -/
def Location.nowhere : Location :=
  ⟨Builtin.file, default⟩

/-- The diagnostic with no place instead of its place, if it has one. -/
def Diagnostic.nowhere (d : Diagnostic) : Diagnostic :=
  { d with location? := d.location?.map fun _ => .nowhere }

namespace Diagnosed

variable {α β γ δ : Type} {g : α → β} {h : γ → δ}

/-- A function of the value, and the reports without their places. -/
def nowhere (g : α → β) (x : Diagnosed α) : Diagnosed β :=
  ⟨g x.value, x.reports.map Diagnostic.nowhere⟩

theorem bind_nowhere {x : Diagnosed α} {y : Diagnosed β} {f : α → Diagnosed γ}
    {f' : β → Diagnosed δ} (hx : y = x.nowhere g) (hf : ∀ a, f' (g a) = (f a).nowhere h) :
    (y >>= f') = (x >>= f).nowhere h := by
  subst hx
  show Diagnosed.mk (f' (g x.value)).value
    (x.reports.map Diagnostic.nowhere ++ (f' (g x.value)).reports) = _
  rw [hf, nowhere, nowhere, reports_bind, List.map_append, value_bind]

end Diagnosed

/-! ## Programs -/

/-- The declaration without its spans and its file. -/
def ClassDecl.nowhere (c : ClassDecl) : ClassDecl :=
  c.unplaced.inFile Builtin.file

/-- The program without places. -/
def Program.nowhere (p : Program) : Program :=
  p.unplaced.inFile Builtin.file

theorem Program.classes_nowhere (p : Program) :
    p.nowhere.classes = p.classes.map ClassDecl.nowhere :=
  List.map_map

theorem Program.getElem?_classes_nowhere (p : Program) (i : Nat) :
    p.nowhere.classes[i]? = p.classes[i]?.map ClassDecl.nowhere := by
  rw [classes_nowhere, List.getElem?_map]

theorem Program.nowhere_mapSpans (f : Span → Span) (p : Program) :
    (p.mapSpans f).nowhere = p.nowhere :=
  congrArg (inFile Builtin.file) (p.unplaced_mapSpans f)

theorem Program.nowhere_inFile (file : String) (p : Program) :
    (p.inFile file).nowhere = p.nowhere := by
  rw [nowhere, nowhere, inFile, inFile, inFile, unplaced, unplaced]
  simp only [List.map_map]
  rfl

theorem Program.nowhere_append (p q : Program) :
    (p.append q).nowhere = p.nowhere.append q.nowhere := by
  simp only [nowhere, append, unplaced, inFile, List.map_append]

/-- The method without its spans. -/
def Method.unplaced (m : Method) : Method :=
  { m with formals := m.formals.map Formal.unplaced, body := m.body.unplaced, span := default }

theorem ClassDecl.methods_nowhere (c : ClassDecl) :
    c.nowhere.methods = c.methods.map Method.unplaced := by
  show (c.features.map Feature.unplaced).filterMap Feature.method? =
    (c.features.filterMap Feature.method?).map _
  rw [List.filterMap_map, List.map_filterMap]
  refine List.filterMap_congr fun g _ => ?_
  cases g <;> rfl

/-! ## Tables -/

def ClassInfo.nowhere (c : ClassInfo) : ClassInfo :=
  { c with file := Builtin.file, span := default }

namespace ClassTable

/-- The table without places. -/
def nowhere (t : ClassTable) : ClassTable :=
  { t with classes := t.classes.map ClassInfo.nowhere }

variable (t : ClassTable) (a : String)

theorem find?_nowhere : t.nowhere.find? a = (t.find? a).map ClassInfo.nowhere :=
  List.find?_map

theorem contains_nowhere : t.nowhere.contains a = t.contains a := by
  rw [contains, contains, find?_nowhere, Option.isSome_map]

theorem isResolved_nowhere : t.nowhere.isResolved a = t.isResolved a := by
  rw [isResolved, isResolved, contains_nowhere]
  rfl

theorem parentOf?_nowhere : t.nowhere.parentOf? a = t.parentOf? a := by
  rw [parentOf?, parentOf?, find?_nowhere, Option.bind_map]
  rfl

theorem chain_nowhere (n : Nat) : t.nowhere.chain n a = (t.chain n a).map ClassInfo.nowhere := by
  induction n generalizing a with
  | zero => rfl
  | succ n ih =>
    rw [chain, chain, find?_nowhere]
    cases t.find? a with
    | none => rfl
    | some c =>
      obtain ⟨name, parent, file, span, origin⟩ := c
      cases parent with
      | none => rfl
      | some b => exact congrArg (_ :: ·) (ih b)

theorem ancestors_nowhere : t.nowhere.ancestors a = (t.ancestors a).map ClassInfo.nowhere := by
  rw [ancestors, nowhere, List.length_map]
  exact chain_nowhere t a _

/-- The two say the same about all classes. -/
theorem agreesAbout_nowhere : t.AgreesAbout (fun _ => True) t.nowhere where
  contains a _ := contains_nowhere t a
  resolved a _ := isResolved_nowhere t a
  ancestors a _ := by
    rw [ancestors_nowhere, List.map_map]
    rfl
  closed _ _ _ _ := trivial

theorem resolveType?_nowhere : t.nowhere.resolveType? a = t.resolveType? a := by
  rw [resolveType?, resolveType?, contains_nowhere]

theorem resolvedOrder_nowhere : t.nowhere.resolvedOrder = t.resolvedOrder := by
  have hadd : ∀ (order : List String) (cs : List ClassInfo),
      addChain order (cs.map ClassInfo.nowhere) = addChain order cs := by
    intro order cs
    rw [addChain, List.foldl_map]
    rfl
  rw [resolvedOrder, nowhere, List.foldl_map]
  refine List.foldl_ext _ _ _ fun order c _ => ?_
  show (if t.nowhere.isResolved c.name then addChain order (t.nowhere.ancestors c.name).reverse
    else order) = _
  rw [isResolved_nowhere, ancestors_nowhere, ← List.map_reverse, hadd]

/-! ## The steps of building a table -/

variable {t a}

theorem insert_nowhere (c : ClassInfo) : t.nowhere.insert c.nowhere = (t.insert c).nowhere := by
  rw [insert, insert, nowhere, nowhere, List.map_append]
  rfl

theorem reportAt_nowhere (file : String) (span : Span) (defect : StructuralDefect) :
    reportAt Builtin.file default defect = (reportAt file span defect).nowhere id := rfl

theorem declare_nowhere (index : Nat) (c : ClassDecl) :
    t.nowhere.declare index c.nowhere = (t.declare index c).nowhere ClassTable.nowhere := by
  have hname : c.nowhere.name = c.name := rfl
  have hparent : c.nowhere.parent = c.parent := rfl
  have hinsert : t.nowhere.insert ⟨c.name, some c.parent, Builtin.file, default, .declared index⟩ =
      (t.insert ⟨c.name, some c.parent, c.file, c.span, .declared index⟩).nowhere :=
    insert_nowhere ⟨c.name, some c.parent, c.file, c.span, .declared index⟩
  unfold declare
  simp only [hname, hparent, contains_nowhere]
  split_ifs
  · rfl
  · rfl
  · refine Diagnosed.bind_nowhere (reportAt_nowhere c.file c.span _) fun _ => ?_
    exact congrArg (fun t => (pure (t.markUnresolved [c.name]) : Diagnosed ClassTable)) hinsert
  · exact congrArg (pure : ClassTable → Diagnosed ClassTable) hinsert

theorem declareAll_nowhere (cs : List ClassDecl) (t : ClassTable) (index : Nat) :
    t.nowhere.declareAll index (cs.map ClassDecl.nowhere) =
      (t.declareAll index cs).nowhere ClassTable.nowhere := by
  induction cs generalizing t index with
  | nil => rfl
  | cons c cs ih => exact Diagnosed.bind_nowhere (declare_nowhere index c) fun t => ih t (index + 1)

theorem findUndefinedParents_nowhere :
    t.nowhere.findUndefinedParents = t.findUndefinedParents.nowhere ClassTable.nowhere := by
  have hparent : ∀ c, t.nowhere.undefinedParent? c.nowhere = t.undefinedParent? c := by
    intro c
    unfold undefinedParent?
    simp only [contains_nowhere]
    rfl
  have hfound : (t.nowhere.classes.filterMap fun c =>
      (t.nowhere.undefinedParent? c).map fun parent => (c, parent)) =
        (t.classes.filterMap fun c => (t.undefinedParent? c).map fun parent => (c, parent)).map
          (Prod.map ClassInfo.nowhere id) := by
    rw [nowhere, List.filterMap_map, List.map_filterMap]
    refine List.filterMap_congr fun c _ => ?_
    show (t.nowhere.undefinedParent? c.nowhere).map _ = _
    rw [hparent, Option.map_map]
    rfl
  unfold findUndefinedParents
  dsimp only
  rw [hfound, Diagnosed.nowhere, List.map_map, List.map_map, List.map_map]
  rfl

theorem findEntry_nowhere (p : Program) :
    t.nowhere.findEntry p.nowhere = (t.findEntry p).nowhere id := by
  have hmain : t.nowhere.mainDecl? p.nowhere = (t.mainDecl? p).map ClassDecl.nowhere := by
    have hindex : (t.nowhere.find? Names.main).bind (fun c => c.origin.index?) =
        (t.find? Names.main).bind fun c => c.origin.index? := by
      rw [find?_nowhere, Option.bind_map]
      rfl
    rw [mainDecl?, mainDecl?, hindex]
    cases (t.find? Names.main).bind fun c => c.origin.index? with
    | none => rfl
    | some index => exact p.getElem?_classes_nowhere index
  unfold findEntry
  rw [hmain]
  cases t.mainDecl? p with
  | none => rfl
  | some c =>
    have hentry : (c.nowhere.methods.find? fun m => m.name == Names.entry) =
        (c.methods.find? fun m => m.name == Names.entry).map Method.unplaced := by
      rw [ClassDecl.methods_nowhere, List.find?_map]
      rfl
    dsimp only [Option.map_some]
    rw [hentry]
    cases c.methods.find? fun m => m.name == Names.entry with
    | none => rfl
    | some m =>
      have hformals : m.unplaced.formals.isEmpty = m.formals.isEmpty := List.isEmpty_map
      dsimp only [Option.map_some]
      rw [hformals]
      split_ifs <;> rfl

theorem walk_nowhere (done : List String) (n : Nat) (path : List String) (next : Option String) :
    t.nowhere.walk done n path next = t.walk done n path next := by
  induction n generalizing path next with
  | zero => cases next <;> rfl
  | succ n ih =>
    cases next with
    | none => rfl
    | some name =>
      rw [walk, walk, contains_nowhere, parentOf?_nowhere, ih]
      rfl

theorem settle_nowhere (path : List String) (ending : Walk) :
    t.nowhere.settle path ending = (t.settle path ending).nowhere ClassTable.nowhere := by
  have hcycle : ∀ members, t.nowhere.reportCycle members = (t.reportCycle members).nowhere id := by
    intro members
    have hfind : t.nowhere.classes.find? (fun c => members.contains c.name) =
        (t.classes.find? fun c => members.contains c.name).map ClassInfo.nowhere := List.find?_map
    rw [reportCycle, reportCycle, hfind]
    cases t.classes.find? fun c => members.contains c.name <;> rfl
  cases ending with
  | settled broken => cases broken <;> rfl
  | cycle members => exact Diagnosed.bind_nowhere (hcycle members) fun _ => rfl

theorem walkAll_nowhere (names : List String) (t : ClassTable) (done : List String) :
    t.nowhere.walkAll done names = (t.walkAll done names).nowhere ClassTable.nowhere := by
  induction names generalizing t done with
  | nil => rfl
  | cons name names ih =>
    have hlength : t.nowhere.classes.length = t.classes.length := List.length_map _
    rw [walkAll, walkAll, hlength, walk_nowhere]
    split_ifs
    · exact ih t done
    · exact Diagnosed.bind_nowhere (settle_nowhere _ _) fun t => ih t _

theorem findCycles_nowhere :
    t.nowhere.findCycles = t.findCycles.nowhere ClassTable.nowhere := by
  have hdone : (t.nowhere.classes.filter fun c => c.isBasic || t.nowhere.unresolved.contains c.name)
      = (t.classes.filter fun c => c.isBasic || t.unresolved.contains c.name).map
        ClassInfo.nowhere := List.filter_map
  unfold findCycles
  dsimp only
  rw [hdone, nowhere, List.map_map, List.map_map]
  exact walkAll_nowhere _ t _

/-- The table of a program without places. -/
theorem ofProgram_nowhere (p : Program) :
    ofProgram p.nowhere = (ofProgram p).nowhere ClassTable.nowhere := by
  unfold ofProgram
  rw [Program.classes_nowhere]
  refine Diagnosed.bind_nowhere (declareAll_nowhere p.classes basic 0) fun t => ?_
  refine Diagnosed.bind_nowhere findUndefinedParents_nowhere fun t => ?_
  exact Diagnosed.bind_nowhere (findEntry_nowhere p) fun _ => findCycles_nowhere

end ClassTable

end Cool
