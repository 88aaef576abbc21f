import Cool.Proofs.Typing.Visits
import Cool.Proofs.Wording

/-!
# What a check asks the hierarchy

At a node, the check asks whether types conform and which type is their join. A question about a
class that is not in the table has no answer; this, and nothing else, is reported as an undefined
type. So whether all questions were answered can be seen from the reports.

* `Query`, `Query.Answered` : the questions, and that they have an answer;
* `Visit.queries` : what is asked at a node;
* `Context.Asks` : a check reports an undefined type exactly if one of its questions has no answer;
* `Visit.asks_node`, `Context.undefinedType_mem_reports_check_iff` : single nodes, and whole
  expressions.
-/

namespace Cool

open Diagnosed

inductive Query where
  | conforms (sub sup : Ty)
  | join (a b : Ty)

/-- The question has an answer: it is about classes of the table. -/
def Query.Answered (Γ : Context) : Query → Prop
  | .conforms sub sup => ∃ answer, Γ.classes.conforms Γ.className sub sup = .ok answer
  | .join a b => ∃ type, Γ.classes.join Γ.className a b = .ok type

namespace Context

variable (Γ : Context)

/-! ## The questions of single rules -/

def assignQueries (σ : Scope) (name : String) (value : Ty) : List Query :=
  if name = Names.self then []
  else (σ.lookup? name).toList.map fun declared => .conforms value declared

def argumentQueries (args : List (Ty × FormalSig)) : List Query :=
  args.map fun (type, formal) => .conforms type formal.type

def callQueries (start method : String) (args : List Ty) : List Query :=
  if Γ.classes.isResolved start then
    match Γ.features.lookupMethod? Γ.classes start method with
    | none => []
    | some signature =>
      if args.length ≠ signature.formals.length then []
      else argumentQueries (args.zip signature.formals)
  else []

def staticCallQueries (receiver : Ty) (type method : String) (args : List Ty) : List Query :=
  if type = Names.selfType then []
  else if Γ.classes.contains type then
    .conforms receiver (.named type) :: Γ.callQueries type method args
  else []

def letInitQueries (declared : Ty) (init : Option Ty) : List Query :=
  if declared.isSelfType then [] else init.toList.map fun type => .conforms type declared

/-- The questions of branches whose values have the given types, behind others whose values have
the type `joined`. -/
def branchQueries (span : Span) : Option Ty → List Ty → List Query
  | _, [] => []
  | joined, type :: types =>
    joined.toList.map (fun joined => .join joined type) ++
      branchQueries span (some (Γ.joinBranch span type joined).value) types

end Context

/-- What is asked at a node. -/
def Visit.queries (Γ : Context) : Visit → List Query
  | ⟨σ, .assign _ name value⟩ => Context.assignQueries σ name (type Γ ⟨σ, value⟩)
  | ⟨σ, .selfDispatch _ method args⟩ =>
    Γ.callQueries Γ.className method (args.map fun e => type Γ ⟨σ, e⟩)
  | ⟨σ, .dispatch _ receiver method args⟩ =>
    Γ.callQueries ((type Γ ⟨σ, receiver⟩).resolve Γ.className) method
      (args.map fun e => type Γ ⟨σ, e⟩)
  | ⟨σ, .staticDispatch _ receiver named method args⟩ =>
    Γ.staticCallQueries (type Γ ⟨σ, receiver⟩) named method (args.map fun e => type Γ ⟨σ, e⟩)
  | ⟨σ, .cond _ _ thenBranch elseBranch⟩ =>
    [.join (type Γ ⟨σ, thenBranch⟩) (type Γ ⟨σ, elseBranch⟩)]
  | ⟨σ, .letIn note name named init _⟩ =>
    Context.letInitQueries (Γ.letType note.span name named).value
      (init.map fun e => type Γ ⟨σ, e⟩)
  | ⟨σ, .typeCase note _ branches⟩ =>
    Γ.branchQueries note.span none (branches.map fun b => type Γ (Γ.branchBody σ b))
  | _ => []

/-! ## Questions and reports -/

namespace Context

/-- An undefined type is reported exactly if one of the questions has no answer. -/
def Asks (Γ : Context) (queries : List Query) {α : Type} (x : Diagnosed α) : Prop :=
  (∃ d ∈ x.reports, d.IsUndefinedType) ↔ ∃ q ∈ queries, ¬q.Answered Γ

section Asks

variable {Γ : Context} {α β : Type} {queries queries' : List Query} {x : Diagnosed α}
  {f : α → Diagnosed β} {span : Span} {defect : TypingDefect} {type : Ty} {name : String}

theorem asks_pure (a : α) : Γ.Asks [] (pure a : Diagnosed α) := by
  unfold Asks
  simp

theorem Asks.bind (hx : Γ.Asks queries x) (hf : Γ.Asks queries' (f x.value)) :
    Γ.Asks (queries ++ queries') (x >>= f) := by
  unfold Asks at *
  simp only [reports_bind, List.mem_append, or_and_right, exists_or]
  exact or_congr hx hf

/-- What asks nothing does not matter in front. -/
theorem Asks.bind_right (hx : Γ.Asks [] x) (hf : Γ.Asks queries (f x.value)) :
    Γ.Asks queries (x >>= f) :=
  hx.bind hf

/-- What asks nothing does not matter behind. -/
theorem Asks.bind_left (hx : Γ.Asks queries x) (hf : Γ.Asks [] (f x.value)) :
    Γ.Asks queries (x >>= f) :=
  List.append_nil queries ▸ hx.bind hf

theorem Asks.bind_pure (hx : Γ.Asks queries x) (g : α → β) :
    Γ.Asks queries (x >>= fun a => pure (g a)) :=
  hx.bind_left (asks_pure (g x.value))

theorem asks_report (h : ∀ name, defect ≠ .undefinedType name) :
    Γ.Asks [] (Γ.report span defect) := by
  refine iff_of_false ?_ (by simp)
  rintro ⟨d, hd, name, hmessage⟩
  obtain rfl := List.mem_singleton.mp hd
  exact TypingDefect.message_ne h name hmessage

theorem asks_recover (h : ∀ name, defect ≠ .undefinedType name) :
    Γ.Asks [] (Γ.recover span defect type) :=
  (asks_report h).bind_pure _

theorem asks_require {condition : Bool} (h : ∀ name, defect ≠ .undefinedType name) :
    Γ.Asks [] (Γ.require span condition defect) := by
  unfold require
  split
  · exact asks_pure ()
  · exact asks_report h

theorem asks_undefined {q : Query} (h : ¬q.Answered Γ) {x : Diagnosed α}
    (hx : ∃ d ∈ x.reports, d.IsUndefinedType) : Γ.Asks [q] x := by
  unfold Asks
  simp [h, hx]

theorem asks_answered {q : Query} (h : q.Answered Γ) {x : Diagnosed α} (hx : x.reports = []) :
    Γ.Asks [q] x := by
  unfold Asks
  simp [h, hx]

theorem asks_conforms (span : Span) (sub sup : Ty) :
    Γ.Asks [.conforms sub sup] (Γ.conforms span sub sup) := by
  unfold conforms
  split
  · rename_i answer heq
    exact asks_answered (q := .conforms sub sup) ⟨answer, heq⟩ rfl
  · rename_i undefined heq
    refine asks_undefined ?_ ⟨_, List.mem_cons_self, undefined.name, rfl⟩
    rintro ⟨answer, hok⟩
    rw [heq] at hok
    cases hok

theorem asks_join (span : Span) (a b : Ty) : Γ.Asks [.join a b] (Γ.join span a b) := by
  unfold join
  split
  · rename_i type heq
    exact asks_answered (q := .join a b) ⟨type, heq⟩ rfl
  · rename_i undefined heq
    refine asks_undefined ?_ ⟨_, List.mem_cons_self, undefined.name, rfl⟩
    rintro ⟨answer, hok⟩
    rw [heq] at hok
    cases hok

theorem asks_requireConforms (sub sup : Ty) (h : ∀ name, defect ≠ .undefinedType name) :
    Γ.Asks [.conforms sub sup] (Γ.requireConforms span sub sup defect) :=
  (asks_conforms span sub sup).bind (asks_require h)

/-! ## Single rules -/

theorem asks_objectType (σ : Scope) (name : String) : Γ.Asks [] (Γ.objectType σ span name) := by
  unfold objectType
  split
  · exact asks_pure _
  · exact asks_recover (by nofun)

theorem asks_assignType (σ : Scope) (name : String) (value : Ty) :
    Γ.Asks (assignQueries σ name value) (Γ.assignType σ span name value) := by
  unfold assignType assignQueries
  split_ifs
  · exact asks_recover (by nofun)
  cases σ.lookup? name with
  | none => exact asks_recover (by nofun)
  | some declared =>
    refine (asks_conforms span value declared).bind_left ?_
    split
    · exact asks_pure _
    · exact asks_recover (by nofun)

theorem asks_checkArguments (method : String) : ∀ args : List (Ty × FormalSig),
    Γ.Asks (argumentQueries args) (Γ.checkArguments span method args)
  | [] => asks_pure ()
  | (type, formal) :: args =>
    (asks_requireConforms type formal.type (by nofun)).bind (asks_checkArguments method args)

theorem asks_callType (receiver : Ty) (start method : String) (args : List Ty) :
    Γ.Asks (Γ.callQueries start method args) (Γ.callType span receiver start method args) := by
  unfold callType callQueries
  split_ifs
  · cases Γ.features.lookupMethod? Γ.classes start method with
    | none => exact asks_recover (by nofun)
    | some signature =>
      dsimp only
      by_cases harity : args.length = signature.formals.length
      · rw [if_neg (not_not.mpr harity), if_neg (not_not.mpr harity)]
        exact (asks_checkArguments method _).bind_pure _
      · rw [if_pos harity, if_pos harity]
        exact asks_recover (by nofun)
  · exact asks_pure _

theorem asks_staticCallType (receiver : Ty) (type method : String) (args : List Ty) :
    Γ.Asks (Γ.staticCallQueries receiver type method args)
      (Γ.staticCallType span receiver type method args) := by
  unfold staticCallType staticCallQueries
  split_ifs
  · exact asks_recover (by nofun)
  · exact (asks_requireConforms receiver (.named type) (by nofun)).bind
      (asks_callType receiver type method args)
  · exact asks_recover (by nofun)

theorem asks_newType (type : String) : Γ.Asks [] (Γ.newType span type) := by
  unfold newType
  split
  · exact asks_pure _
  · exact asks_recover (by nofun)

theorem asks_letType (name type : String) : Γ.Asks [] (Γ.letType span name type) := by
  unfold letType
  split
  · exact asks_pure _
  · exact asks_recover (by nofun)

theorem asks_checkLetInit (declared : Ty) (init : Option Ty) :
    Γ.Asks (letInitQueries declared init) (Γ.checkLetInit span name declared init) := by
  unfold letInitQueries checkLetInit
  cases init with
  | none => split_ifs <;> exact asks_pure ()
  | some type =>
    dsimp only
    split_ifs
    · exact asks_pure ()
    · exact asks_requireConforms type declared (by nofun)

theorem asks_branchType (name type : String) : Γ.Asks [] (Γ.branchType span name type) := by
  unfold branchType
  split_ifs
  · exact asks_recover (by nofun)
  · exact asks_pure _
  · exact asks_recover (by nofun)

theorem asks_joinBranch (type : Ty) (joined : Option Ty) :
    Γ.Asks (joined.toList.map fun joined => .join joined type)
      (Γ.joinBranch span type joined) := by
  cases joined with
  | none => exact asks_pure type
  | some joined => exact asks_join span joined type

theorem asks_branchesType (span : Span) : ∀ (branches : List (Branch × Ty)) (seen : List String)
    (joined : Option Ty), Γ.Asks (Γ.branchQueries span joined (branches.map Prod.snd))
      (Γ.branchesType span seen joined branches)
  | [], _, joined => asks_pure joined
  | (b, type) :: branches, seen, joined => by
    refine (asks_require (by nofun)).bind_right ?_
    refine (asks_branchType b.name b.type).bind_right ?_
    refine (asks_require (by nofun)).bind_right ?_
    exact (asks_joinBranch type joined).bind (asks_branchesType span branches _ _)

theorem asks_binaryType (op : BinaryOp) (left right : Ty) :
    Γ.Asks [] (Γ.binaryType span op left right) := by
  unfold binaryType
  cases op <;> exact (asks_require (by nofun)).bind_pure _

theorem asks_unaryType (op : UnaryOp) (operand : Ty) :
    Γ.Asks [] (Γ.unaryType span op operand) := by
  unfold unaryType
  cases op <;> exact (asks_require (by nofun)).bind_pure _

end Asks

end Context

/-! ## Nodes and expressions -/

theorem Visit.asks_node (Γ : Context) (v : Visit) : Γ.Asks (v.queries Γ) (v.node Γ) := by
  obtain ⟨σ, e⟩ := v
  cases e with
  | int | string | bool | isVoid | block => exact Context.asks_pure _
  | object note name => exact Context.asks_objectType σ name
  | assign note name value => exact Context.asks_assignType σ name _
  | selfDispatch note method args => exact Context.asks_callType .selfType Γ.className method _
  | dispatch note receiver method args => exact Context.asks_callType _ _ method _
  | staticDispatch note receiver named method args =>
    exact Context.asks_staticCallType _ named method _
  | new note named => exact Context.asks_newType named
  | cond note predicate thenBranch elseBranch =>
    exact (Context.asks_require (by nofun)).bind_right (Context.asks_join _ _ _)
  | loop note predicate body => exact (Context.asks_require (by nofun)).bind_pure _
  | letIn note name named init body =>
    refine (Context.asks_require (by nofun)).bind_right ?_
    refine (Context.asks_letType name named).bind_right ?_
    exact (Context.asks_checkLetInit _ _).bind_pure _
  | typeCase note scrutinee branches =>
    have h := Context.asks_branchesType (Γ := Γ) note.span
      (branches.map fun b => (b, type Γ (Γ.branchBody σ b))) [] none
    rw [List.map_map] at h
    exact h.bind_pure _
  | binary note op left right => exact Context.asks_binaryType op _ _
  | unary note op operand => exact Context.asks_unaryType op _

/-- The check of an expression reports an undefined type exactly if it comes to a question that has
no answer. -/
theorem Context.undefinedType_mem_reports_check_iff (Γ : Context) (v : Visit) :
    (∃ d ∈ (v.check Γ).reports, d.IsUndefinedType) ↔
      ∃ w, Γ.Visits v w ∧ ∃ q ∈ w.queries Γ, ¬q.Answered Γ := by
  constructor
  · rintro ⟨d, hd, hundefined⟩
    obtain ⟨w, hw, hd⟩ := (mem_reports_check_iff v).mp hd
    exact ⟨w, hw, (w.asks_node Γ).mp ⟨d, hd, hundefined⟩⟩
  · rintro ⟨w, hw, hq⟩
    obtain ⟨d, hd, hundefined⟩ := (w.asks_node Γ).mpr hq
    exact ⟨d, (mem_reports_check_iff v).mpr ⟨w, hw, hd⟩, hundefined⟩

end Cool
