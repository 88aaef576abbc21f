import Cool.Proofs.Hierarchy.Permuted
import Cool.Proofs.Signature.Built
import Mathlib.Data.Set.List

/-!
# What is reported on the hierarchy

The reports of a class table, read off the declarations of the program alone: those on single
declarations, those on parents, the one on the class that a program starts in, and one for each
cycle of inheritance. A cycle is reported at the class of it that is declared first. The cycles
come in the order of the first classes that lead into them, which need not lie on them.

* `Program.Taken`, `Program.accepted` : which declarations are accepted;
* `Program.declarationDefect?`, `Program.parentDefect?`, `Program.entryReport?` : the defects that
  are found without walking;
* `Program.Extends`, `Program.Reaches`, `Program.OneCycle` : the parents of accepted classes;
* `Program.HeadsCycle`, `Program.EnteredBefore` : where and in what order cycles are reported;
* `exists_heads_reports_ofProgram` : all reports, in order.
-/

namespace Cool

open ClassTable

/-- The report of a defect at a class. -/
def ClassDecl.structural (c : ClassDecl) (defect : StructuralDefect) : Diagnostic :=
  .located (.structural defect) c.file c.span

namespace Program

variable {p : Program} {i j k : Nat} {c d : ClassDecl} {a b : String} {info : ClassInfo}
  {l : List ClassInfo}

/-! ## Accepted declarations -/

/-- A declaration of the name is accepted before a position. -/
def Taken (p : Program) (i : Nat) (a : String) : Prop :=
  ∃ k d, k < i ∧ p.Accepts k d ∧ d.name = a

/-- The first declaration of a name that is not reserved is accepted. -/
theorem taken_iff : p.Taken i a ↔
    isReserved a = false ∧ ∃ k d, k < i ∧ p.classes[k]? = some d ∧ d.name = a := by
  constructor
  · rintro ⟨k, d, hk, hd, rfl⟩
    exact ⟨hd.2.1, k, d, hk, hd.1, rfl⟩
  · rintro ⟨hr, k, d, hk, hd, rfl⟩
    induction k using Nat.strong_induction_on generalizing d with
    | _ k ih =>
      by_cases hfirst : ∃ l e, l < k ∧ p.classes[l]? = some e ∧ e.name = d.name
      · obtain ⟨l, e, hl, he, hname⟩ := hfirst
        rw [← hname]
        exact ih l hl e (hl.trans hk) he (by rwa [hname])
      · exact ⟨k, d, hk, ⟨hd, hr, fun l e hl he hname => hfirst ⟨l, e, hl, he, hname⟩⟩, rfl⟩

theorem accepts_iff : p.Accepts i c ↔
    p.classes[i]? = some c ∧ isReserved c.name = false ∧ ¬p.Taken i c.name := by
  refine and_congr_right fun _ => and_congr_right fun hr => ?_
  rw [taken_iff]
  simp only [hr, true_and]
  exact ⟨fun hfirst ⟨k, d, hk, hd, hname⟩ => hfirst k d hk hd hname,
    fun hnot k d hk hd hname => hnot ⟨k, d, hk, hd, hname⟩⟩

theorem taken_succ_iff (hc : p.classes[i]? = some c) :
    p.Taken (i + 1) a ↔ p.Taken i a ∨ p.Accepts i c ∧ a = c.name := by
  constructor
  · rintro ⟨k, d, hk, hd, rfl⟩
    rcases (Nat.lt_succ_iff_lt_or_eq.mp hk) with hk | rfl
    · exact Or.inl ⟨k, d, hk, hd, rfl⟩
    · cases hc.symm.trans hd.1
      exact Or.inr ⟨hd, rfl⟩
  · rintro (⟨k, d, hk, hd⟩ | ⟨hc, rfl⟩)
    · exact ⟨k, d, hk.trans (Nat.lt_succ_self i), hd⟩
    · exact ⟨i, c, Nat.lt_succ_self i, hc, rfl⟩

instance (p : Program) (i : Nat) (a : String) : Decidable (p.Taken i a) :=
  decidable_of_iff (isReserved a = false ∧ ∃ d ∈ p.classes.take i, d.name = a) <| by
    rw [taken_iff]
    refine and_congr_right fun _ => ?_
    simp only [List.mem_iff_getElem?, List.getElem?_take, Option.ite_none_right_eq_some]
    constructor
    · rintro ⟨d, ⟨k, hk, hd⟩, hname⟩
      exact ⟨k, d, hk, hd, hname⟩
    · rintro ⟨k, d, hk, hd, hname⟩
      exact ⟨d, ⟨k, hk, hd⟩, hname⟩

/-- The declarations that are accepted, with their positions. -/
def accepted (p : Program) : List (ClassDecl × Nat) :=
  p.classes.zipIdx.filter fun (c, i) => !isReserved c.name && !decide (p.Taken i c.name)

theorem mem_accepted_iff : (c, i) ∈ p.accepted ↔ p.Accepts i c := by
  rw [accepted, List.mem_filter, List.mk_mem_zipIdx_iff_getElem?, accepts_iff]
  simp

/-! ## Defects that are found without walking -/

/-- What is wrong with a declaration by itself, or with its name. -/
def declarationDefect? (p : Program) (i : Nat) (c : ClassDecl) : Option StructuralDefect :=
  if isReserved c.name then some (.basicClassRedefined c.name)
  else if p.Taken i c.name then some (.classRedefined c.name)
  else if isIllegalParent c.parent then some (.illegalParent c.name c.parent)
  else none

/-- What is wrong with the parent of an accepted class, if the name of the parent is allowed. -/
def parentDefect? (p : Program) (c : ClassDecl) : Option StructuralDefect :=
  if isIllegalParent c.parent || p.classTable.contains c.parent then none
  else some (.undefinedParent c.name c.parent)

/-- What is wrong with the class that the program starts in. -/
def entryReport? (p : Program) : Option Diagnostic :=
  match p.accepted.find? fun (c, _) => c.name == Names.main with
  | none => some (.general (.structural .noMainClass))
  | some (c, _) =>
    match c.methods.find? fun m => m.name == Names.entry with
    | none => some (c.structural .noEntryMethod)
    | some m =>
      if m.formals.isEmpty then none
      else some (.located (.structural .entryMethodHasFormals) c.file m.span)

/-! ## Cycles of the parents of accepted classes -/

/-- A class of the program is accepted, and this is its parent. -/
def Extends (p : Program) (a b : String) : Prop :=
  ∃ i c, p.Accepts i c ∧ c.name = a ∧ c.parent = b

/-- The chain of parents of a class goes through another, or starts with it. -/
def Reaches (p : Program) : String → String → Prop :=
  Relation.ReflTransGen p.Extends

/-- Two classes lie on one cycle. -/
def OneCycle (p : Program) (a b : String) : Prop :=
  Relation.TransGen p.Extends a b ∧ Relation.TransGen p.Extends b a

/-- A class of a cycle that is the first of its cycle to be declared. -/
def HeadsCycle (p : Program) (c : ClassDecl) : Prop :=
  ∃ i, p.Accepts i c ∧ p.OneCycle c.name c.name ∧
    ∀ k d, k < i → p.Accepts k d → ¬p.OneCycle c.name d.name

/-- A class leads to `a`, and neither it nor any declared before it leads to `b`. -/
def EnteredBefore (p : Program) (a b : String) : Prop :=
  ∃ i c, p.Accepts i c ∧ p.Reaches c.name a ∧
    ∀ k d, k ≤ i → p.Accepts k d → ¬p.Reaches d.name b

/-! ## The declarations -/

section Declare

variable {t : ClassTable}
  (ht : isReserved c.name = false → (t.contains c.name = true ↔ p.Taken i c.name))
include ht

/-- In a table of the classes that are accepted before a position, the declaration there has the
defects that it has in the program. -/
theorem reports_declare :
    (t.declare i c).reports = ((p.declarationDefect? i c).map c.structural).toList := by
  unfold declare declarationDefect?
  dsimp only
  by_cases hr : isReserved c.name = true
  · rw [if_pos hr, if_pos hr]
    rfl
  · rw [if_neg hr, if_neg hr]
    have hiff := ht (by simpa using hr)
    by_cases htaken : p.Taken i c.name
    · rw [if_pos (hiff.mpr htaken), if_pos htaken]
      rfl
    · rw [if_neg fun h => htaken (hiff.mp h), if_neg htaken]
      split_ifs
      · rfl
      · rfl

theorem classes_declare : (t.declare i c).value.classes = t.classes ++
    if !isReserved c.name && !decide (p.Taken i c.name) then [c.info i] else [] := by
  by_cases h : isReserved c.name = false ∧ t.contains c.name = false
  · have hnot : ¬p.Taken i c.name := by
      rw [← ht h.1, h.2]
      exact Bool.false_ne_true
    rw [(declare_of_accepted i h.1 h.2).1, if_pos (by simp [h.1, hnot])]
  · rw [(declare_of_refused i h).1, if_neg ?_, List.append_nil]
    simp only [Bool.and_eq_true, Bool.not_eq_true', decide_eq_false_iff_not]
    rintro ⟨hr, hnot⟩
    rw [← ht hr, Bool.not_eq_true] at hnot
    exact h ⟨hr, hnot⟩

end Declare

theorem declareAll_of_taken : ∀ (cs : List ClassDecl) (t : ClassTable) (i : Nat),
    p.classes.drop i = cs →
      (∀ a, isReserved a = false → (t.contains a = true ↔ p.Taken i a)) →
        (t.declareAll i cs).reports = (cs.zipIdx i).filterMap
          (fun (c, i) => (p.declarationDefect? i c).map c.structural) ∧
        (t.declareAll i cs).value.classes = t.classes ++ ((cs.zipIdx i).filter fun (c, i) =>
          !isReserved c.name && !decide (p.Taken i c.name)).map fun (c, i) => c.info i
  | [], t, i, _, _ => ⟨rfl, (List.append_nil _).symm⟩
  | c :: cs, t, i, hdrop, ht => by
    have hc : p.classes[i]? = some c := by
      rw [← List.head?_drop, hdrop, List.head?_cons]
    have hrest : p.classes.drop (i + 1) = cs := by
      rw [← List.tail_drop, hdrop, List.tail_cons]
    have htaken : ∀ a, isReserved a = false →
        ((t.declare i c).value.contains a = true ↔ p.Taken (i + 1) a) := by
      intro a hr
      rw [contains_declare, taken_succ_iff hc, ht a hr, accepts_iff]
      refine or_congr_right ⟨?_, ?_⟩
      · rintro ⟨rfl, hr, hnot⟩
        exact ⟨⟨hc, hr, fun h => by simp [(ht c.name hr).mpr h] at hnot⟩, rfl⟩
      · rintro ⟨⟨-, hr, hnot⟩, rfl⟩
        refine ⟨rfl, hr, ?_⟩
        rw [Bool.eq_false_iff, Ne, ht _ hr]
        exact hnot
    obtain ⟨hreports, hclasses⟩ := declareAll_of_taken cs _ (i + 1) hrest htaken
    rw [declareAll, Diagnosed.reports_bind, Diagnosed.value_bind, reports_declare (ht c.name),
      hreports, hclasses, classes_declare (ht c.name), List.zipIdx_cons]
    constructor
    · cases hdefect : p.declarationDefect? i c <;> simp [hdefect]
    · rw [List.append_assoc, List.filter_cons]
      split_ifs <;> rfl

theorem reports_and_classes_declaredIn (p : Program) :
    (declaredIn p).reports = p.classes.zipIdx.filterMap
        (fun (c, i) => (p.declarationDefect? i c).map c.structural) ∧
      (declaredIn p).value.classes =
        ClassTable.basic.classes ++ p.accepted.map fun (c, i) => c.info i := by
  refine declareAll_of_taken p.classes ClassTable.basic 0 List.drop_zero fun a hr => ?_
  rw [contains_basic_eq_false hr]
  refine ⟨nofun, ?_⟩
  rintro ⟨k, d, hk, -⟩
  exact absurd hk (Nat.not_lt_zero k)

/-! ## The parents -/

/-- A class that inherits from what it must not is not looked at again. -/
theorem undefinedParent?_of_accepts (hc : p.Accepts i c) :
    (declaredIn p).value.undefinedParent? (c.info i) =
      if isIllegalParent c.parent || p.classTable.contains c.parent then none
      else some c.parent := by
  have hcontains : (declaredIn p).value.contains c.parent = p.classTable.contains c.parent := by
    rw [contains, contains, find?_eq_find?_checkedIn]
    rfl
  have hillegal : (declaredIn p).value.unresolved.contains c.name = isIllegalParent c.parent := by
    rw [Bool.eq_iff_iff, List.contains_iff_mem, mem_unresolved_declaredIn]
    constructor
    · rintro ⟨k, d, hd, hname, hillegal⟩
      obtain ⟨-, rfl⟩ := hc.eq_of_name hd hname
      exact hillegal
    · exact fun hillegal => ⟨i, c, hc, rfl, hillegal⟩
  rw [undefinedParent?, show (c.info i).name = c.name from rfl, hillegal,
    show (c.info i).parent = some c.parent from rfl, Option.filter_some, hcontains]
  cases isIllegalParent c.parent <;> cases p.classTable.contains c.parent <;> rfl

theorem reports_checkedIn (p : Program) : (checkedIn p).reports =
    p.accepted.filterMap fun (c, _) => (p.parentDefect? c).map c.structural := by
  have hbasic : ∀ info ∈ ClassTable.basic.classes,
      ((declaredIn p).value.undefinedReport? ∘ ClassInfo.unplaced) info = none := by
    intro info hinfo
    show ((declaredIn p).value.undefinedParent? info).map _ = none
    rw [undefinedParent?_of_mem_basic hinfo, Option.map_none]
  rw [checkedIn, reports_findUndefinedParents, (reports_and_classes_declaredIn p).2,
    List.filterMap_map, List.filterMap_append, List.filterMap_eq_nil_iff.mpr hbasic,
    List.nil_append, List.filterMap_map]
  refine List.filterMap_congr ?_
  rintro ⟨c, i⟩ hc
  show ((declaredIn p).value.undefinedParent? (c.info i)).map _ =
    (p.parentDefect? c).map c.structural
  rw [undefinedParent?_of_accepts (mem_accepted_iff.mp hc)]
  unfold parentDefect?
  split_ifs
  · rfl
  · rfl

/-! ## The start of the program -/

theorem find?_accepted_eq_some_iff : (p.accepted.find? fun (c, _) => c.name == a) = some (c, i) ↔
    p.Accepts i c ∧ c.name = a := by
  constructor
  · intro h
    exact ⟨mem_accepted_iff.mp (List.mem_of_find?_eq_some h), by simpa using List.find?_some h⟩
  · rintro ⟨hc, rfl⟩
    have hsome : (p.accepted.find? fun (d, _) => d.name == c.name).isSome = true :=
      List.find?_isSome.mpr ⟨(c, i), mem_accepted_iff.mpr hc, beq_self_eq_true c.name⟩
    obtain ⟨⟨d, k⟩, hd⟩ := Option.isSome_iff_exists.mp hsome
    have hname : d.name = c.name := by simpa using List.find?_some hd
    obtain ⟨rfl, rfl⟩ := (mem_accepted_iff.mp (List.mem_of_find?_eq_some hd)).eq_of_name hc hname
    exact hd

theorem mainDecl?_eq_find? (p : Program) : (checkedIn p).value.mainDecl? p =
    (p.accepted.find? fun (c, _) => c.name == Names.main).map Prod.fst := by
  refine Option.ext fun c => ?_
  rw [FeatureTable.mainDecl?_eq_some_iff, Option.map_eq_some_iff]
  constructor
  · rintro ⟨⟨i, hc⟩, hname⟩
    exact ⟨(c, i), find?_accepted_eq_some_iff.mpr ⟨hc, hname⟩, rfl⟩
  · rintro ⟨⟨c, i⟩, hfind, rfl⟩
    obtain ⟨hc, hname⟩ := find?_accepted_eq_some_iff.mp hfind
    exact ⟨⟨i, hc⟩, hname⟩

theorem reports_findEntry (p : Program) :
    (findEntry (checkedIn p).value p).reports = p.entryReport?.toList := by
  rw [findEntry, mainDecl?_eq_find?, entryReport?]
  cases p.accepted.find? fun (c, _) => c.name == Names.main with
  | none => rfl
  | some entry =>
    dsimp only [Option.map_some]
    cases entry.1.methods.find? fun m => m.name == Names.entry with
    | none => rfl
    | some m =>
      dsimp only
      split_ifs
      · rfl
      · rfl

/-- Nothing is wrong with the start of a program that has a class and a method to start with. -/
theorem entryReport?_eq_none_iff : p.entryReport? = none ↔ ∃ i c m, p.Accepts i c ∧
    c.name = Names.main ∧ c.methods.find? (fun m => m.name == Names.entry) = some m ∧
      m.formals = [] := by
  rw [entryReport?]
  constructor
  · intro h
    cases hfind : p.accepted.find? fun (c, _) => c.name == Names.main with
    | none => simp [hfind] at h
    | some entry =>
      obtain ⟨hc, hname⟩ := find?_accepted_eq_some_iff.mp hfind
      cases hm : entry.1.methods.find? fun m => m.name == Names.entry with
      | none => simp [hfind, hm] at h
      | some m =>
        refine ⟨entry.2, entry.1, m, hc, hname, hm, ?_⟩
        simpa [hfind, hm] using h
  · rintro ⟨i, c, m, hc, hname, hm, hformals⟩
    simp [find?_accepted_eq_some_iff.mpr ⟨hc, hname⟩, hm, hformals]

/-! ## The order of the classes -/

theorem pairwise_classes_checkedIn (p : Program) : (checkedIn p).value.classes.Pairwise fun x y =>
    ∀ i k, x.origin = .declared i → y.origin = .declared k → i < k := by
  have hbasic : ∀ info ∈ ClassTable.basic.classes, info.origin = .basic := by decide
  have hzip : p.classes.zipIdx.Pairwise fun x y => x.2 < y.2 := by
    rw [← List.pairwise_map, List.zipIdx_map_snd]
    exact List.pairwise_lt_range'
  rw [show (checkedIn p).value.classes = (declaredIn p).value.classes from rfl,
    (reports_and_classes_declaredIn p).2, List.pairwise_append, List.pairwise_map]
  have hfirst : ∀ x ∈ ClassTable.basic.classes, ∀ i, x.origin ≠ .declared i := by
    intro x hx i
    rw [hbasic x hx]
    exact nofun
  refine ⟨List.pairwise_of_forall_mem_list fun x hx _ _ i _ hi => absurd hi (hfirst x hx i), ?_,
    fun x hx _ _ i _ hi => absurd hi (hfirst x hx i)⟩
  refine List.Pairwise.imp ?_ (hzip.filter _)
  rintro ⟨c, i⟩ ⟨d, k⟩ hlt _ _ hi hk
  cases hi
  cases hk
  exact hlt

/-- With a declared class, the first classes of the table are those declared up to it. -/
theorem info_mem_of_ahead (hl : l <+: (checkedIn p).value.classes) (hc : c.info i ∈ l)
    (hd : p.Accepts k d) (hk : k ≤ i) : d.info k ∈ l := by
  obtain ⟨behind, hclasses⟩ := hl
  have hmem : d.info k ∈ (checkedIn p).value.classes :=
    mem_classes_declaredIn.mpr (Or.inr ⟨k, d, hd, rfl⟩)
  rw [← hclasses] at hmem
  refine (List.mem_append.mp hmem).resolve_right fun hbehind => ?_
  have horder := hclasses ▸ pairwise_classes_checkedIn p
  have hlt := (List.pairwise_append.mp horder).2.2 _ hc _ hbehind i k rfl rfl
  exact absurd hlt (Nat.not_lt.mpr hk)

/-! ## The parents of accepted classes -/

theorem parentOf?_of_extends (h : p.Extends a b) : (checkedIn p).value.parentOf? a = some b := by
  obtain ⟨i, c, hc, rfl, rfl⟩ := h
  exact parentOf?_eq_some_iff.mpr
    ⟨c.info i, find?_checkedIn.mpr ⟨Or.inr ⟨i, c, hc, rfl⟩, rfl⟩, rfl⟩

theorem extends_of_parentOf? (h : (checkedIn p).value.parentOf? a = some b)
    (ha : a ∉ knownIn p) : p.Extends a b := by
  obtain ⟨info, hinfo, hparent⟩ := parentOf?_eq_some_iff.mp h
  obtain ⟨hbasic | ⟨i, c, hc, rfl⟩, rfl⟩ := find?_checkedIn.mp hinfo
  · exact absurd (mem_knownIn.mpr ⟨info, hinfo, Or.inl hbasic⟩) ha
  · exact ⟨i, c, hc, rfl, Option.some.inj hparent⟩

/-- Basic classes and others that are known from the start lead to no cycle. -/
theorem not_mem_knownIn (h : (checkedIn p).value.Inherits a b) (hb : (checkedIn p).value.Cyclic b) :
    a ∉ knownIn p := fun ha =>
  not_cyclic_of_mem_knownIn ((closed_knownIn p).mem_of_inherits ha h hb.contains) hb

theorem reaches_iff (hb : (checkedIn p).value.Cyclic b) :
    p.Reaches a b ↔ (checkedIn p).value.Inherits a b := by
  constructor
  · exact Relation.ReflTransGen.mono (fun _ _ => parentOf?_of_extends) a b
  · intro h
    induction h using Relation.ReflTransGen.head_induction_on with
    | refl => exact .refl
    | head hp h ih =>
      exact .head (extends_of_parentOf? hp (not_mem_knownIn (.head hp h) hb)) ih

theorem oneCycle_self_iff : p.OneCycle a a ↔ (checkedIn p).value.Cyclic a := by
  constructor
  · exact fun h => Relation.TransGen.mono (fun _ _ => parentOf?_of_extends) a a h.1
  · intro h
    obtain ⟨b, hab, hba⟩ := Relation.TransGen.head'_iff.mp h
    have hextends := extends_of_parentOf? hab (not_mem_knownIn (.refl _ a) h)
    have hcycle := Relation.TransGen.head' hextends ((reaches_iff h).mpr hba)
    exact ⟨hcycle, hcycle⟩

/-- What a class of a cycle inherits from lies on the cycle. -/
theorem oneCycle_iff (ha : (checkedIn p).value.Cyclic a) :
    p.OneCycle a b ↔ (checkedIn p).value.Inherits a b := by
  constructor
  · intro h
    have hpath := Relation.TransGen.mono (fun _ _ => parentOf?_of_extends) a b h.1
    exact hpath.to_reflTransGen
  · intro h
    have hcycle := (oneCycle_self_iff.mpr ha).1
    exact ⟨.trans_left hcycle ((reaches_iff (ha.of_inherits h)).mpr h),
      .trans_right ((reaches_iff ha).mpr (ha.inherits_symm h)) hcycle⟩

/-- Only accepted classes lead to a cycle. -/
theorem exists_accepts_of_inherits (hinfo : info ∈ (checkedIn p).value.classes)
    (h : (checkedIn p).value.Inherits info.name b) (hb : (checkedIn p).value.Cyclic b) :
    ∃ i c, p.Accepts i c ∧ info = c.info i := by
  refine (mem_classes_declaredIn.mp hinfo).resolve_left fun hbasic => ?_
  exact not_mem_knownIn h hb
    (mem_knownIn.mpr ⟨info, find?_checkedIn.mpr ⟨Or.inl hbasic, rfl⟩, Or.inl hbasic⟩)

/-! ## Where cycles are reported -/

theorem OneCycle.trans {e : String} (h : p.OneCycle a b) (h' : p.OneCycle b e) : p.OneCycle a e :=
  ⟨h.1.trans h'.1, h'.2.trans h.2⟩

theorem HeadsCycle.oneCycle (h : p.HeadsCycle c) : p.OneCycle c.name c.name := by
  obtain ⟨i, -, hcycle, -⟩ := h
  exact hcycle

theorem HeadsCycle.eq_of_oneCycle (hc : p.HeadsCycle c) (hd : p.HeadsCycle d)
    (h : p.OneCycle c.name d.name) : c = d := by
  obtain ⟨i, haccepts, -, hfirst⟩ := hc
  obtain ⟨k, haccepts', -, hfirst'⟩ := hd
  rcases Nat.lt_trichotomy i k with hlt | rfl | hlt
  · exact absurd h.symm (hfirst' i c hlt haccepts)
  · exact Option.some.inj (haccepts.1.symm.trans haccepts'.1)
  · exact absurd h (hfirst k d hlt haccepts')

theorem headsCycle_of_heads (hc : p.Accepts i c) (h : (checkedIn p).value.Heads (c.info i)) :
    p.HeadsCycle c := by
  refine ⟨i, hc, oneCycle_self_iff.mpr h.cyclic, fun k d hk hd hcycle => ?_⟩
  obtain ⟨before, behind, hclasses, hbefore⟩ := h.first
  have hprefix : before ++ [c.info i] <+: (checkedIn p).value.classes :=
    ⟨behind, by rw [hclasses, List.append_assoc, List.singleton_append]⟩
  have hmem : d.info k ∈ before ++ [c.info i] :=
    info_mem_of_ahead hprefix (List.mem_append_right _ (List.mem_singleton_self _)) hd hk.le
  rcases List.mem_append.mp hmem with hmem | hmem
  · exact hbefore _ hmem ((oneCycle_iff h.cyclic).mp hcycle)
  · have horigin := congrArg ClassInfo.origin (List.mem_singleton.mp hmem)
    exact hk.ne (Origin.declared.inj horigin)

theorem enteredBefore_of_names (ha : (checkedIn p).value.Cyclic a)
    (hb : (checkedIn p).value.Cyclic b) (h : (checkedIn p).value.EnteredBefore
      ((checkedIn p).value.classes.map ClassInfo.name) a b) : p.EnteredBefore a b := by
  obtain ⟨names, hnames, ⟨e, he, hea⟩, hnot⟩ := h
  obtain ⟨l, hl, rfl⟩ := List.prefix_map_iff.mp hnames
  obtain ⟨info, hinfo, rfl⟩ := List.mem_map.mp he
  obtain ⟨i, c, hc, rfl⟩ := exists_accepts_of_inherits (hl.subset hinfo) hea ha
  refine ⟨i, c, hc, (reaches_iff ha).mpr hea, fun k d hk hd hdb => ?_⟩
  have hmem : (d.info k).name ∈ l.map ClassInfo.name :=
    List.mem_map_of_mem (info_mem_of_ahead hl hinfo hd hk)
  exact hnot _ hmem ((reaches_iff hb).mp hdb)

/-- The walks report the cycles, each once, at the class of it that is declared first, and in the
order of the first classes that lead to them. -/
theorem exists_heads_reports_findCycles (p : Program) : ∃ heads : List ClassDecl,
    (checkedIn p).value.findCycles.reports =
      heads.map (fun c => c.structural (.inheritanceCycle c.name)) ∧
    (∀ c, c ∈ heads ↔ p.HeadsCycle c) ∧
    (∀ a, p.OneCycle a a → ∃ c ∈ heads, p.OneCycle a c.name) ∧
    heads.Pairwise fun c d => p.EnteredBefore c.name d.name := by
  obtain ⟨heads, hreports, hheads, horder, hcover⟩ := exists_heads_findCycles p
  have hrange : heads ∈ Set.range (List.map fun entry : {entry : ClassDecl × Nat //
      p.Accepts entry.2 entry.1} => entry.1.1.info entry.1.2) := by
    rw [Set.range_list_map]
    intro info hinfo
    obtain ⟨before, behind, hclasses, -⟩ := (hheads info hinfo).first
    obtain ⟨i, c, hc, rfl⟩ := exists_accepts_of_inherits (by rw [hclasses]; simp)
      (.refl _ info.name) (hheads info hinfo).cyclic
    exact ⟨⟨(c, i), hc⟩, rfl⟩
  obtain ⟨entries, rfl⟩ := hrange
  have hhead : ∀ entry ∈ entries, p.HeadsCycle entry.1.1 := fun entry hentry =>
    headsCycle_of_heads entry.2 (hheads _ (List.mem_map_of_mem hentry))
  have hcover' : ∀ a, p.OneCycle a a →
      ∃ c ∈ entries.map fun entry => entry.1.1, p.OneCycle a c.name := by
    intro a ha
    have hcyclic := oneCycle_self_iff.mp ha
    obtain ⟨info, hinfo, hinherits⟩ := hcover a hcyclic
    obtain ⟨entry, hentry, rfl⟩ := List.mem_map.mp hinfo
    exact ⟨entry.1.1, List.mem_map_of_mem hentry, (oneCycle_iff hcyclic).mpr hinherits⟩
  refine ⟨entries.map fun entry => entry.1.1, ?_, fun c => ⟨fun hc => ?_, fun hc => ?_⟩,
    hcover', ?_⟩
  · rw [hreports, List.map_map, List.map_map]
    rfl
  · obtain ⟨entry, hentry, rfl⟩ := List.mem_map.mp hc
    exact hhead entry hentry
  · -- the head of the cycle of `c` that is reported is the only one, so it is `c`
    obtain ⟨d, hd, hcd⟩ := hcover' c.name hc.oneCycle
    obtain ⟨entry, hentry, rfl⟩ := List.mem_map.mp hd
    rwa [hc.eq_of_oneCycle (hhead entry hentry) hcd]
  · refine List.pairwise_map.mpr ((List.pairwise_map.mp horder).imp_of_mem fun {x y} hx hy h => ?_)
    exact enteredBefore_of_names (hheads _ (List.mem_map_of_mem hx)).cyclic
      (hheads _ (List.mem_map_of_mem hy)).cyclic h

/-- The reports of a class table: on each declaration, that it takes the name of a basic class or
one that is taken, or else that its parent is not allowed; on each other accepted class, that its
parent is not in the table; one if there is no method to start with; and one for each cycle. -/
theorem exists_heads_reports_ofProgram (p : Program) : ∃ heads : List ClassDecl,
    (ClassTable.ofProgram p).reports =
      p.classes.zipIdx.filterMap (fun (c, i) => (p.declarationDefect? i c).map c.structural) ++
        (p.accepted.filterMap (fun (c, _) => (p.parentDefect? c).map c.structural) ++
          (p.entryReport?.toList ++
            heads.map fun c => c.structural (.inheritanceCycle c.name))) ∧
    (p.entryReport? = none ↔ ∃ i c m, p.Accepts i c ∧ c.name = Names.main ∧
      c.methods.find? (fun m => m.name == Names.entry) = some m ∧ m.formals = []) ∧
    (∀ c, c ∈ heads ↔ p.HeadsCycle c) ∧
    (∀ a, p.OneCycle a a → ∃! c, c ∈ heads ∧ p.OneCycle a c.name) ∧
    heads.Pairwise fun c d => p.EnteredBefore c.name d.name := by
  obtain ⟨heads, hreports, hheads, hcover, horder⟩ := exists_heads_reports_findCycles p
  refine ⟨heads, ?_, entryReport?_eq_none_iff, hheads, fun a ha => ?_, horder⟩
  · rw [reports_ofProgram, (reports_and_classes_declaredIn p).1, reports_checkedIn,
      reports_findEntry, hreports]
  · obtain ⟨c, hc, hac⟩ := hcover a ha
    refine ⟨c, ⟨hc, hac⟩, fun d ⟨hd, had⟩ => ?_⟩
    exact ((hheads d).mp hd).eq_of_oneCycle ((hheads c).mp hc) (.trans had.symm hac)

end Program

end Cool
