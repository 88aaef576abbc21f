import Cool.Proofs.Hierarchy.Cycles
import Mathlib.Data.List.Chain
import Mathlib.Logic.Function.Iterate

/-!
# Finding cycles with marks

The walks along the parents can be made one class at a time, with a mark for every class: it has not
been visited, it is on the path of the walk that is under way, or it is done. Nothing bounds the
steps from the outside. What bounds them is that a class enters a path only while it is not visited,
and loses that mark for good.

* `CycleSearch`, `CycleSearch.step` : the search and one turn of it;
* `CycleSearch.Turn` : what a turn can do;
* `CycleSearch.Invariant`, `Invariant.turn` : what holds before and behind every turn;
* `CycleSearch.run` : the search after so many turns;
* `CycleSearch.exists_iterate_walkAll` : it comes to an end, with the table and the reports of
  `ClassTable.findCycles`;
* `CycleSearch.run_checkedIn` : all of this for the table of a program.
-/

namespace Cool

namespace ClassTable

/-! ## The search -/

/-- How far the search has come with a class. -/
inductive Mark where
  | unvisited
  | inProgress
  | done
  deriving DecidableEq

/-- The marks of the classes, by name. -/
abbrev Marks := String → Option Mark

def Marks.set (marks : Marks) (name : String) (mark : Mark) : Marks :=
  Function.update marks name (some mark)

theorem Marks.set_self (marks : Marks) (name : String) (mark : Mark) :
    marks.set name mark name = some mark :=
  Function.update_self ..

theorem Marks.set_of_ne {a name : String} (h : a ≠ name) (marks : Marks) (mark : Mark) :
    marks.set name mark a = marks a :=
  Function.update_of_ne h ..

theorem Marks.foldl_set_done (path : List String) (marks : Marks) (a : String) :
    path.foldl (fun marks name => marks.set name .done) marks a =
      if a ∈ path then some .done else marks a := by
  induction path generalizing marks with
  | nil => simp
  | cons name path ih =>
    rw [List.foldl_cons, ih]
    by_cases ha : a = name
    · subst ha
      simp [Marks.set_self]
    · simp [Marks.set_of_ne ha, ha]

/-- A walk that is under way: the classes on its path, and the name that it comes to next. -/
structure Trail where
  path : List String
  next : Option String

/-- A search for cycles between two turns. -/
structure CycleSearch where
  table : ClassTable
  marks : Marks
  /-- The names that no walk has been started at yet. -/
  names : List String
  trail : Option Trail
  reports : List Diagnostic

namespace CycleSearch

/-- Before the first turn, the classes are done about which everything is known. -/
def start (t : ClassTable) : CycleSearch where
  table := t
  marks name := (t.find? name).map fun c =>
    if t.unresolved.contains name || c.isBasic then .done else .unvisited
  names := t.classes.map ClassInfo.name
  trail := none
  reports := []

/-- Ends a walk: the classes on its path are done, and unresolved if it has ended badly. -/
def finish (s : CycleSearch) (path : List String) (broken : Bool) : CycleSearch :=
  { s with
    table := if broken then s.table.markUnresolved path else s.table
    marks := path.foldl (fun marks name => marks.set name .done) s.marks
    trail := none }

/-- One turn: between two walks the next name is taken, and a walk goes on by one class or ends. A
search that has come to its end stays as it is. -/
def step (s : CycleSearch) : CycleSearch :=
  match s.trail with
  | none =>
    match s.names with
    | [] => s
    | name :: names =>
      if s.marks name = some .unvisited then { s with names, trail := some ⟨[], some name⟩ }
      else { s with names }
  | some ⟨path, none⟩ => s.finish path false
  | some ⟨path, some name⟩ =>
    match (s.marks name).getD .done with
    | .done => s.finish path (s.table.unresolved.contains name)
    | .inProgress =>
      let members := path.drop ((path.findIdx? (· == name)).getD 0)
      { s.finish path true with reports := s.reports ++ (s.table.reportCycle members).reports }
    | .unvisited =>
      { s with
        marks := s.marks.set name .inProgress
        trail := some ⟨path ++ [name], s.table.parentOf? name⟩ }

/-- The classes on the path of the walk that is under way, if one is. -/
def path (s : CycleSearch) : List String :=
  match s.trail with
  | none => []
  | some trail => trail.path

/-- Whether the search has come to its end. -/
def Finished (s : CycleSearch) : Prop :=
  s.trail = none ∧ s.names = []

variable {t : ClassTable} {s s' : CycleSearch} {name : String} {names path done : List String}

/-! ## What a turn can do -/

inductive Turn : CycleSearch → CycleSearch → Prop
  | finished {s : CycleSearch} (htrail : s.trail = none) (hnames : s.names = []) : Turn s s
  | skip {s : CycleSearch} {name : String} {names : List String} (htrail : s.trail = none)
    (hnames : s.names = name :: names) (hmark : s.marks name ≠ some .unvisited) :
    Turn s { s with names }
  | start {s : CycleSearch} {name : String} {names : List String} (htrail : s.trail = none)
    (hnames : s.names = name :: names) (hmark : s.marks name = some .unvisited) :
    Turn s { s with names, trail := some ⟨[], some name⟩ }
  | finish {s : CycleSearch} {path : List String} {next : Option String} (broken : Bool)
    (more : List Diagnostic) (htrail : s.trail = some ⟨path, next⟩) :
    Turn s { s.finish path broken with reports := s.reports ++ more }
  | enter {s : CycleSearch} {path : List String} {name : String}
    (htrail : s.trail = some ⟨path, some name⟩) (hmark : s.marks name = some .unvisited) :
    Turn s { s with
      marks := s.marks.set name .inProgress
      trail := some ⟨path ++ [name], s.table.parentOf? name⟩ }

theorem turn_step (s : CycleSearch) : Turn s s.step := by
  have hkeep (path : List String) (broken : Bool) :
      s.finish path broken = { s.finish path broken with reports := s.reports ++ [] } := by
    rw [List.append_nil]
    rfl
  unfold step
  split
  · rename_i htrail
    split
    · rename_i hnames
      exact .finished htrail hnames
    · rename_i name names hnames
      split_ifs with hmark
      · exact .start htrail hnames hmark
      · exact .skip htrail hnames hmark
  · rename_i path htrail
    rw [hkeep]
    exact .finish false [] htrail
  · rename_i path name htrail
    split
    · rw [hkeep]
      exact .finish _ [] htrail
    · exact .finish true _ htrail
    · rename_i hmark
      refine .enter htrail ?_
      cases hname : s.marks name with
      | none => simp [hname] at hmark
      | some mark => simpa [hname] using hmark

theorem Turn.trail_cases {trail : Trail} (h : Turn s s') (htrail : s.trail = some trail) :
    s'.trail = none ∨
      ∃ trail', s'.trail = some trail' ∧ trail'.path.length = trail.path.length + 1 := by
  cases h with
  | finished hnone | skip hnone | start hnone =>
    rw [hnone] at htrail
    cases htrail
  | finish => exact Or.inl rfl
  | @enter path name htrail' _ =>
    rw [htrail'] at htrail
    cases htrail
    exact Or.inr ⟨_, rfl, List.length_append⟩

/-- A class that is not visited has never been. -/
theorem Turn.unvisited (h : Turn s s') (hmark : s'.marks name = some .unvisited) :
    s.marks name = some .unvisited := by
  cases h with
  | finished | skip | start => exact hmark
  | @finish path next broken more htrail =>
    have hset := (Marks.foldl_set_done path s.marks name).symm.trans hmark
    split_ifs at hset
    · cases hset
    · exact hset
  | @enter path entered htrail hentered =>
    by_cases hname : name = entered
    · exact hname ▸ hentered
    · exact (Marks.set_of_ne hname s.marks .inProgress).symm.trans hmark

/-- A class enters a path only while it is not visited. -/
theorem Turn.enters (h : Turn s s') (hnot : name ∉ s.path) (hmem : name ∈ s'.path) :
    s.marks name = some .unvisited ∧ s'.marks name = some .inProgress := by
  cases h with
  | finished | skip => exact absurd hmem hnot
  | start | finish => exact absurd hmem List.not_mem_nil
  | @enter path entered htrail hentered =>
    rw [CycleSearch.path, htrail] at hnot
    obtain rfl : name = entered :=
      List.mem_singleton.mp ((List.mem_append.mp hmem).resolve_left hnot)
    exact ⟨hentered, Marks.set_self ..⟩

/-! ## What holds between the turns -/

/-- The marks when a walk is under way on this path, and these classes are done. -/
def marksOf (t : ClassTable) (done path : List String) : Marks := fun name =>
  if t.contains name then
    some (if name ∈ path then .inProgress else if name ∈ done then .done else .unvisited)
  else none

theorem marksOf_eq_inProgress_iff (hpath : ∀ a ∈ path, t.contains a = true) :
    marksOf t done path name = some .inProgress ↔ name ∈ path := by
  unfold marksOf
  split_ifs with hc hmem hdone
  · simpa using hmem
  · simpa using hmem
  · simpa using hmem
  · simpa using fun hmem => hc (hpath name hmem)

theorem marksOf_eq_unvisited_iff : marksOf t done path name = some .unvisited ↔
    t.contains name = true ∧ name ∉ path ∧ name ∉ done := by
  unfold marksOf
  split_ifs with hc hmem hdone <;> simp_all

theorem set_marksOf (hc : t.contains name = true) :
    (marksOf t done path).set name .inProgress = marksOf t done (path ++ [name]) := by
  funext a
  by_cases ha : a = name
  · subst ha
    rw [Marks.set_self, marksOf, if_pos hc, if_pos (by simp)]
  · rw [Marks.set_of_ne ha]
    simp [marksOf, ha]

theorem foldl_set_marksOf (hpath : ∀ a ∈ path, t.contains a = true) :
    path.foldl (fun marks name => marks.set name .done) (marksOf t done path) =
      marksOf t (done ++ path) [] := by
  funext a
  rw [Marks.foldl_set_done]
  split_ifs with ha
  · simp [marksOf, hpath a ha, ha]
  · simp [marksOf, ha]

theorem marksOf_congr {t' : ClassTable} (h : t'.contains = t.contains) :
    marksOf t' done path = marksOf t done path := by
  unfold marksOf
  rw [h]

/-- The names of the classes that the search does not start at. -/
def known (t : ClassTable) : List String :=
  (t.classes.filter fun c => c.isBasic || t.unresolved.contains c.name).map ClassInfo.name

theorem mem_known_iff (hnodup : (t.classes.map ClassInfo.name).Nodup) : name ∈ known t ↔
    ∃ c, t.find? name = some c ∧ (t.unresolved.contains name || c.isBasic) = true := by
  simp only [known, List.mem_map, List.mem_filter, find?_eq_some_iff hnodup, Bool.or_comm]
  constructor
  · rintro ⟨c, ⟨hc, hknown⟩, rfl⟩
    exact ⟨c, ⟨hc, rfl⟩, hknown⟩
  · rintro ⟨c, ⟨hc, rfl⟩, hknown⟩
    exact ⟨c, ⟨hc, hknown⟩, rfl⟩

theorem marks_start (hnodup : (t.classes.map ClassInfo.name).Nodup) :
    (start t).marks = marksOf t (known t) [] := by
  funext name
  have hmem : name ∈ known t ↔ _ := mem_known_iff hnodup
  dsimp only [start]
  rw [marksOf, contains]
  cases hfind : t.find? name with
  | none => rfl
  | some c =>
    rw [hfind] at hmem
    have hknown : name ∈ known t ↔ (t.unresolved.contains name || c.isBasic) = true := by
      simpa using hmem
    simp only [hknown, Option.map_some, Option.isSome_some, if_true, List.not_mem_nil, if_false]

/-- A table that can be searched: no two classes have one name, and each class that the search may
start at has a parent in the table. -/
structure Searchable (t : ClassTable) : Prop where
  nodup : (t.classes.map ClassInfo.name).Nodup
  parent : ∀ a, t.contains a = true → a ∉ known t →
    ∃ b, t.parentOf? a = some b ∧ t.contains b = true

/-- What holds before and behind every turn of a search through a table, if these classes are
done. -/
structure Invariant (t : ClassTable) (done : List String) (s : CycleSearch) : Prop where
  classes : s.table.classes = t.classes
  known : known t ⊆ done
  marks : s.marks = marksOf t done s.path
  fresh : ∀ a ∈ s.path, t.contains a = true ∧ a ∉ done
  nodup : s.path.Nodup
  /-- A walk comes to a class of the table next, the parent of the last class of its path. -/
  order : ∀ trail, s.trail = some trail → ∃ name, trail.next = some name ∧
    t.contains name = true ∧ (trail.path ++ [name]).IsChain fun a b => t.parentOf? a = some b
  names : ∀ a ∈ s.names, t.contains a = true

/-- The end of a walk leaves the classes of its path done. -/
theorem Invariant.finish (h : Invariant t done s) {next : Option String}
    (htrail : s.trail = some ⟨path, next⟩) (broken : Bool) (more : List Diagnostic) :
    Invariant t (done ++ path) { s.finish path broken with reports := s.reports ++ more } := by
  have hpath : s.path = path := by rw [CycleSearch.path, htrail]
  have hfresh := hpath ▸ h.fresh
  have hmarks := h.marks
  refine ⟨?_, fun a ha => List.mem_append_left _ (h.known ha), ?_, List.forall_mem_nil _,
    List.nodup_nil, fun _ h => absurd h.symm (Option.some_ne_none _), h.names⟩
  · show (if broken then s.table.markUnresolved path else s.table).classes = t.classes
    split_ifs
    · exact h.classes
    · exact h.classes
  · rw [hpath] at hmarks
    show path.foldl (fun marks name => marks.set name .done) s.marks = _
    rw [hmarks]
    exact foldl_set_marksOf fun a ha => (hfresh a ha).1

/-- A class that has not been visited goes to the end of the path, and its parent comes next. -/
theorem Invariant.enter (h : Invariant t done s) (ht : Searchable t)
    (htrail : s.trail = some ⟨path, some name⟩) (hmark : s.marks name = some .unvisited) :
    Invariant t done { s with
      marks := s.marks.set name .inProgress
      trail := some ⟨path ++ [name], s.table.parentOf? name⟩ } := by
  have hpath : s.path = path := by rw [CycleSearch.path, htrail]
  have hfresh := hpath ▸ h.fresh
  have hnodup := hpath ▸ h.nodup
  have hmarks := h.marks
  have hparent : s.table.parentOf? = t.parentOf? := by
    funext a
    rw [parentOf?, parentOf?, find?, find?, h.classes]
  rw [hpath] at hmarks
  rw [hmarks, marksOf_eq_unvisited_iff] at hmark
  obtain ⟨hc, hnot, hdone⟩ := hmark
  obtain ⟨b, hb, hbc⟩ := ht.parent name hc fun hmem => hdone (h.known hmem)
  refine ⟨h.classes, h.known, ?_, ?_, ?_, ?_, h.names⟩
  · show s.marks.set name .inProgress = marksOf t done (path ++ [name])
    rw [hmarks, set_marksOf hc]
  · intro a ha
    rcases List.mem_append.mp ha with ha | ha
    · exact hfresh a ha
    · exact List.mem_singleton.mp ha ▸ ⟨hc, hdone⟩
  · exact List.nodup_append.mpr ⟨hnodup, List.nodup_singleton _, by
      rintro c hmem _ hsame rfl
      exact hnot (List.mem_singleton.mp hsame ▸ hmem)⟩
  · obtain ⟨name', hname', -, horder⟩ := h.order _ htrail
    cases hname'
    rintro trail ⟨⟩
    refine ⟨b, by rw [hparent]; exact hb, hbc, ?_⟩
    rw [List.append_assoc, List.singleton_append, List.isChain_append_cons_cons]
    exact ⟨horder, hb, .singleton b⟩

/-- A turn keeps the invariant, with more classes done where it ends a walk. -/
theorem Invariant.turn (h : Invariant t done s) (ht : Searchable t) (hturn : Turn s s') :
    ∃ done', Invariant t done' s' := by
  cases hturn with
  | finished => exact ⟨done, h⟩
  | @skip name names htrail hnames _ =>
    refine ⟨done, { h with names := fun a ha => h.names a ?_ }⟩
    exact hnames ▸ List.mem_cons_of_mem _ ha
  | @start name names htrail hnames _ =>
    have hmarks := h.marks
    have hpath : s.path = [] := by rw [path, htrail]
    refine ⟨done, h.classes, h.known, hpath ▸ hmarks, List.forall_mem_nil _, List.nodup_nil, ?_,
      fun a ha => h.names a ?_⟩
    · rintro trail ⟨⟩
      exact ⟨name, rfl, h.names name (hnames ▸ List.mem_cons_self), .singleton _⟩
    · exact hnames ▸ List.mem_cons_of_mem _ ha
  | finish broken more htrail => exact ⟨_, h.finish htrail broken more⟩
  | enter htrail hmark => exact ⟨done, h.enter ht htrail hmark⟩

/-! ## Cycles on a path -/

/-- The classes of the cycle through a class, from there on in the order of the parents. -/
structure IsCycleFrom (t : ClassTable) (name : String) (members : List String) : Prop where
  head : members.head? = some name
  nodup : members.Nodup
  order : (members ++ [name]).IsChain fun a b => t.parentOf? a = some b
  mem_iff : ∀ a, a ∈ members ↔ t.Inherits name a

theorem isTrail_of_isChain (path : List String) : ∀ name,
    ((path ++ [name]).IsChain fun a b => t.parentOf? a = some b) → t.IsTrail path (some name) := by
  induction path using List.reverseRecOn with
  | nil => exact fun name _ => .nil _
  | append_singleton path a ih =>
    intro name horder
    rw [List.append_assoc, List.singleton_append, List.isChain_append_cons_cons] at horder
    obtain ⟨horder, hname, -⟩ := horder
    exact hname ▸ (ih a horder).step

/-- The part of a path that starts at a class of it. -/
theorem exists_findIdx?_drop (hmem : name ∈ path) :
    ∃ start, path.findIdx? (· == name) = some start ∧
      path.drop start = path.dropWhile fun c => c != name := by
  refine ⟨path.findIdx (· == name), List.findIdx?_eq_some_of_exists ⟨name, hmem, by simp⟩, ?_⟩
  rw [List.dropWhile_eq_drop_findIdx_not]
  congr 2
  funext c
  simp [bne]

/-- A path that comes back to one of its classes goes round a cycle from there on. -/
theorem exists_isCycleFrom (hnodup : path.Nodup)
    (horder : (path ++ [name]).IsChain fun a b => t.parentOf? a = some b) (hmem : name ∈ path) :
    ∃ start, path.findIdx? (· == name) = some start ∧ IsCycleFrom t name (path.drop start) := by
  obtain ⟨start, hstart, hdrop⟩ := exists_findIdx?_drop hmem
  have hsuffix : path.drop start <:+ path := List.drop_suffix start path
  refine ⟨start, hstart, ?_, hnodup.sublist hsuffix.sublist, ?_, fun a => ?_⟩
  · obtain ⟨l, hl⟩ := exists_dropWhile_eq_cons hmem
    rw [hdrop, hl, List.head?_cons]
  · obtain ⟨before, hbefore⟩ := hsuffix
    exact horder.suffix ⟨before, by rw [← List.append_assoc, hbefore]⟩
  · rw [hdrop]
    exact (isTrail_of_isChain path name horder).mem_members_iff hmem

/-! ## The walks -/

/-- A walk that ends at a class about which everything is known. -/
theorem finish_eq_settle (hpath : ∀ a ∈ path, t.contains a = true) (names : List String)
    (trail : Option Trail) (reports : List Diagnostic) (broken : Bool) :
    finish ⟨t, marksOf t done path, names, trail, reports⟩ path broken =
      ⟨(t.settle path (.settled broken)).value, marksOf t (done ++ path) [], names, none,
        reports ++ (t.settle path (.settled broken)).reports⟩ := by
  rw [finish, foldl_set_marksOf hpath, reports_settle_settled, List.append_nil]
  cases broken with
  | false => rfl
  | true => rfl

/-- The turns of one walk do what the walk does. -/
theorem exists_iterate_walks {next : Option String} {path' : List String} {ending : Walk}
    (hwalks : Walks t done path next path' ending) (names : List String)
    (reports : List Diagnostic) (hpath : ∀ a ∈ path, t.contains a = true) :
    ∃ n, step^[n] ⟨t, marksOf t done path, names, some ⟨path, next⟩, reports⟩ =
      ⟨(t.settle path' ending).value, marksOf t (done ++ path') [], names, none,
        reports ++ (t.settle path' ending).reports⟩ := by
  induction hwalks with
  | root path =>
    refine ⟨1, ?_⟩
    rw [Function.iterate_one, step]
    exact finish_eq_settle hpath names _ reports false
  | @cycle path name hmem =>
    obtain ⟨start, hstart, hdrop⟩ := exists_findIdx?_drop hmem
    have hmark : marksOf t done path name = some .inProgress :=
      (marksOf_eq_inProgress_iff hpath).mpr hmem
    refine ⟨1, ?_⟩
    rw [Function.iterate_one, step]
    dsimp only
    rw [hmark, hstart, finish_eq_settle hpath names _ reports true]
    dsimp only [Option.getD_some]
    rw [hdrop, reports_settle_cycle]
    rfl
  | @settled path name hmem hd =>
    have hmark : (marksOf t done path name).getD .done = .done := by
      unfold marksOf
      split_ifs with hc hdone
      · rfl
      · exact absurd (hd.resolve_right (by simp [hc])) hdone
      · rfl
    refine ⟨1, ?_⟩
    rw [Function.iterate_one, step]
    dsimp only
    rw [hmark]
    exact finish_eq_settle hpath names _ reports _
  | @step path path' name ending hmem hd hc hrest ih =>
    have hmark : marksOf t done path name = some .unvisited :=
      marksOf_eq_unvisited_iff.mpr ⟨hc, hmem, hd⟩
    obtain ⟨n, hn⟩ := ih fun a ha => (List.mem_append.mp ha).elim (hpath a)
      fun ha => List.mem_singleton.mp ha ▸ hc
    refine ⟨n + 1, ?_⟩
    rw [Function.iterate_succ_apply, ← hn, step]
    dsimp only
    rw [hmark, ← set_marksOf hc]
    rfl

/-- The search ends, with what the walks from all names leave behind. -/
theorem exists_iterate_walkAll : ∀ (names : List String) (t : ClassTable) (done : List String)
    (reports : List Diagnostic), (∀ a ∈ names, t.contains a = true) →
      ∃ n done', done ⊆ done' ∧ names ⊆ done' ∧
        step^[n] ⟨t, marksOf t done [], names, none, reports⟩ =
          ⟨(t.walkAll done names).value, marksOf t done' [], [], none,
            reports ++ (t.walkAll done names).reports⟩
  | [], t, done, reports, _ =>
    ⟨0, done, List.Subset.refl _, List.nil_subset _, by
      rw [walkAll, Diagnosed.reports_pure, List.append_nil]
      rfl⟩
  | name :: names, t, done, reports, hnames => by
    obtain ⟨hc, hnames⟩ := List.forall_mem_cons.mp hnames
    rcases walkAll_cons t done name names with ⟨hd, heq⟩ | ⟨hd, path, ending, hw, heq⟩
    · obtain ⟨n, done', hsub, hcover, hn⟩ := exists_iterate_walkAll names t done reports hnames
      refine ⟨n + 1, done', hsub, List.cons_subset.mpr ⟨hsub hd, hcover⟩, ?_⟩
      have hmark : marksOf t done [] name ≠ some .unvisited :=
        fun h => (marksOf_eq_unvisited_iff.mp h).2.2 hd
      rw [heq, ← hn, Function.iterate_succ_apply, step]
      dsimp only
      rw [if_neg hmark]
    · have hcontains := contains_settle (t := t) path ending
      obtain ⟨n, hn⟩ := exists_iterate_walks hw names reports (by simp)
      obtain ⟨m, done', hsub, hcover, hm⟩ := exists_iterate_walkAll names
        (t.settle path ending).value (done ++ path) (reports ++ (t.settle path ending).reports)
        (by rwa [hcontains])
      have hmark : marksOf t done [] name = some .unvisited :=
        marksOf_eq_unvisited_iff.mpr ⟨hc, List.not_mem_nil, hd⟩
      refine ⟨m + (n + 1), done', fun a ha => hsub (List.mem_append_left _ ha), ?_, ?_⟩
      · exact List.cons_subset.mpr ⟨hsub (List.mem_append_right _ (hw.start_mem hd hc)), hcover⟩
      · rw [marksOf_congr hcontains, marksOf_congr hcontains] at hm
        rw [heq, Diagnosed.value_bind, Diagnosed.reports_bind, ← List.append_assoc, ← hm, ← hn,
          Function.iterate_add_apply, Function.iterate_succ_apply]
        congr 2
        rw [step]
        dsimp only
        rw [if_pos hmark]

/-! ## The whole run -/

/-- The search after so many turns. -/
def run (t : ClassTable) (n : Nat) : CycleSearch :=
  step^[n] (start t)

theorem run_succ (t : ClassTable) (n : Nat) : run t (n + 1) = (run t n).step :=
  Function.iterate_succ_apply' step n (start t)

theorem turn_run (t : ClassTable) (n : Nat) : Turn (run t n) (run t (n + 1)) :=
  run_succ t n ▸ turn_step _

/-- The invariant holds through the whole run. -/
theorem exists_invariant_run (ht : Searchable t) (n : Nat) :
    ∃ done, Invariant t done (run t n) := by
  induction n with
  | zero =>
    refine ⟨known t, rfl, List.Subset.refl _, marks_start ht.nodup, List.forall_mem_nil _,
      List.nodup_nil, fun _ h => absurd h.symm (Option.some_ne_none _), fun a ha => ?_⟩
    exact contains_iff_mem.mpr ha
  | succ n ih =>
    obtain ⟨done, h⟩ := ih
    exact h.turn ht (turn_run t n)

theorem step_of_finished (h : s.Finished) : s.step = s := by
  rw [step, h.1]
  dsimp only
  rw [h.2]

/-- A class that has been visited is never unvisited again. -/
theorem unvisited_run {m n : Nat} (hle : m ≤ n) (h : (run t n).marks name = some .unvisited) :
    (run t m).marks name = some .unvisited := by
  induction hle with
  | refl => exact h
  | step _ ih => exact ih ((turn_run t _).unvisited h)

/-- A class enters a path in one turn at the most. -/
theorem eq_of_enters {m n : Nat} (hm : name ∉ (run t m).path ∧ name ∈ (run t (m + 1)).path)
    (hn : name ∉ (run t n).path ∧ name ∈ (run t (n + 1)).path) : m = n := by
  have hlater : ∀ m n, (name ∉ (run t m).path ∧ name ∈ (run t (m + 1)).path) →
      (name ∉ (run t n).path ∧ name ∈ (run t (n + 1)).path) → ¬m < n := by
    intro m n hm hn hlt
    have hentered := ((turn_run t m).enters hm.1 hm.2).2
    have hunvisited := unvisited_run hlt ((turn_run t n).enters hn.1 hn.2).1
    rw [hentered] at hunvisited
    cases hunvisited
  have hlt := hlater m n hm hn
  have hgt := hlater n m hn hm
  omega

/-- While a walk goes on, every turn makes its path longer by one. -/
theorem exists_trail_run {n : Nat} {trail : Trail} (htrail : (run t n).trail = some trail) :
    ∀ k, (∃ j ≤ k, (run t (n + j)).trail = none) ∨
      ∃ trail', (run t (n + k)).trail = some trail' ∧
        trail'.path.length = trail.path.length + k
  | 0 => Or.inr ⟨trail, htrail, rfl⟩
  | k + 1 => by
    rcases exists_trail_run htrail k with ⟨j, hj, hnone⟩ | ⟨trail', htrail', hlength⟩
    · exact Or.inl ⟨j, Nat.le_succ_of_le hj, hnone⟩
    · rcases (turn_run t (n + k)).trail_cases htrail' with hnone | ⟨trail'', htrail'', hlength'⟩
      · exact Or.inl ⟨k + 1, Nat.le_refl _, hnone⟩
      · exact Or.inr ⟨trail'', htrail'', by omega⟩

/-- Every walk ends after one turn more than there are classes, at the latest. -/
theorem exists_trail_eq_none (ht : Searchable t) {n : Nat} {trail : Trail}
    (htrail : (run t n).trail = some trail) :
    ∃ k ≤ t.classes.length + 1, (run t (n + k)).trail = none := by
  rcases exists_trail_run htrail (t.classes.length + 1) with hnone | ⟨trail', htrail', hlength⟩
  · exact hnone
  · obtain ⟨done, h⟩ := exists_invariant_run ht (n + (t.classes.length + 1))
    have hpath : (run t (n + (t.classes.length + 1))).path = trail'.path := by rw [path, htrail']
    have hsub : trail'.path ⊆ t.classes.map ClassInfo.name := fun a ha =>
      contains_iff_mem.mp (h.fresh a (hpath ▸ ha)).1
    have hle := (hpath ▸ h.nodup).length_le_of_subset hsub
    rw [List.length_map] at hle
    omega

theorem searchable_checkedIn (p : Program) : Searchable (checkedIn p).value where
  nodup := nodup_declaredIn p
  parent a hc hknown := by
    obtain ⟨info, hinfo⟩ := contains_iff.mp hc
    have hunresolved : a ∉ (checkedIn p).value.unresolved :=
      fun hmem => hknown ((settled_checkedIn p).unresolved a hmem)
    rcases (find?_checkedIn.mp hinfo).1 with hbasic | ⟨i, c, -, rfl⟩
    · exact absurd (mem_knownIn.mpr ⟨info, hinfo, Or.inl hbasic⟩) hknown
    · have hparent : (checkedIn p).value.parentOf? a = some c.parent :=
        parentOf?_eq_of_find? hinfo
      exact ⟨c.parent, hparent, (settled_checkedIn p).closed a c.parent hunresolved hparent⟩

/-- The search for cycles in the table of a program.

Between two walks no class is in progress. During a walk, the classes in progress are those on its
path, which lead from each to its parent and do not repeat; the class that it comes to next is in
the table, and where it is in progress it is found on the path, whose rest from there on is its
cycle. Every class enters a path once at the most, every walk ends after one turn more than there
are classes, at the latest, and in the end all classes are done, with the table of the program and
the reports of its cycles. -/
theorem run_checkedIn (p : Program) :
    let t := (checkedIn p).value
    (∀ n name, (run t n).trail = none → (run t n).marks name ≠ some .inProgress) ∧
    (∀ n trail, (run t n).trail = some trail →
      (∀ name, (run t n).marks name = some .inProgress ↔ name ∈ trail.path) ∧
      trail.path.Nodup ∧
      ∃ next, trail.next = some next ∧ ((run t n).marks next).isSome ∧
        ((trail.path ++ [next]).IsChain fun a b => t.parentOf? a = some b) ∧
        ((run t n).marks next = some .inProgress → ∃ start,
          trail.path.findIdx? (· == next) = some start ∧
          IsCycleFrom t next (trail.path.drop start))) ∧
    (∀ name m n, name ∉ (run t m).path ∧ name ∈ (run t (m + 1)).path →
      name ∉ (run t n).path ∧ name ∈ (run t (n + 1)).path → m = n) ∧
    (∀ n trail, (run t n).trail = some trail →
      ∃ k ≤ t.classes.length + 1, (run t (n + k)).trail = none) ∧
    ∃ n, (run t n).Finished ∧ (∀ k, run t (n + k) = run t n) ∧
      (∀ c ∈ t.classes, (run t n).marks c.name = some .done) ∧
      (run t n).table = (ofProgram p).value ∧
      (ofProgram p).reports = (declaredIn p).reports ++ ((checkedIn p).reports ++
        ((findEntry t p).reports ++ (run t n).reports)) := by
  intro t
  have ht : Searchable t := searchable_checkedIn p
  have hmarked (n : Nat) (name : String) :
      (run t n).marks name = some .inProgress ↔ name ∈ (run t n).path := by
    obtain ⟨done, h⟩ := exists_invariant_run ht n
    rw [h.marks, marksOf_eq_inProgress_iff fun a ha => (h.fresh a ha).1]
  refine ⟨fun n name htrail => ?_, fun n trail htrail => ?_, fun name m n => eq_of_enters,
    fun n trail => exists_trail_eq_none ht, ?_⟩
  · rw [Ne, hmarked, path, htrail]
    exact List.not_mem_nil
  · have hpath : (run t n).path = trail.path := by rw [path, htrail]
    obtain ⟨done, h⟩ := exists_invariant_run ht n
    obtain ⟨next, hnext, hc, horder⟩ := h.order trail htrail
    refine ⟨fun name => hpath ▸ hmarked n name, hpath ▸ h.nodup, next, hnext, ?_, horder,
      fun hmark => ?_⟩
    · rw [h.marks, marksOf, if_pos hc]
      rfl
    · exact exists_isCycleFrom (hpath ▸ h.nodup) horder (hpath ▸ (hmarked n next).mp hmark)
  · obtain ⟨n, done, -, hcover, hn⟩ := exists_iterate_walkAll (t.classes.map ClassInfo.name) t
      (known t) [] fun a ha => contains_iff_mem.mpr ha
    have hrun : run t n =
        ⟨t.findCycles.value, marksOf t done [], [], none, t.findCycles.reports⟩ := by
      rw [← marks_start ht.nodup] at hn
      exact hn
    have hfinished : (run t n).Finished := by
      rw [hrun]
      exact ⟨rfl, rfl⟩
    refine ⟨n, hfinished, fun k => ?_, fun c hc => ?_, hrun ▸ rfl,
      hrun ▸ reports_ofProgram p⟩
    · induction k with
      | zero => rfl
      | succ k ih => rw [← Nat.add_assoc, run_succ, ih, step_of_finished hfinished]
    · have hmem : c.name ∈ t.classes.map ClassInfo.name := List.mem_map_of_mem hc
      rw [hrun]
      simp [marksOf, contains_iff_mem.mpr hmem, hcover hmem]

end CycleSearch

end ClassTable

end Cool
