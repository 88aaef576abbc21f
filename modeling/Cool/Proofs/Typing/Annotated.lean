import Cool.Check.Class
import Cool.Proofs.Diagnosed
import Cool.Proofs.Tree.Notes
import Cool.Proofs.Tree.Places

/-!
# What a check leaves behind

A check reaches every node, whatever it has to report on the way: it notes a type at each of them,
and what it reports stands at a place of the expression.

* `Expr.annotated_check` : all nodes have types;
* `Context.Reported` : a diagnostic of the tier of types, at one of some places;
* `Expr.reportsOnly_check`, `Feature.reportsOnly_check` : what is reported.
-/

namespace Cool

variable {Γ : Context} {σ : Scope}

/-! ## Types -/

mutual

/-- All nodes of a checked expression have types. -/
theorem Expr.annotated_check (Γ : Context) :
    ∀ (e : Expr) (σ : Scope), (e.check Γ σ).value.1.Annotated
  | .int .., _ | .string .., _ | .bool .., _ | .object .., _ | .new .., _ =>
    List.forall_mem_singleton.mpr rfl
  | .assign _ _ value, σ =>
    List.forall_mem_cons.mpr ⟨rfl, Expr.annotated_check Γ value σ⟩
  | .selfDispatch _ _ args, σ =>
    List.forall_mem_cons.mpr ⟨rfl, Expr.annotated_checkAll Γ args σ⟩
  | .dispatch _ receiver _ args, σ | .staticDispatch _ receiver _ _ args, σ =>
    List.forall_mem_cons.mpr ⟨rfl, List.forall_mem_append.mpr
      ⟨Expr.annotated_check Γ receiver σ, Expr.annotated_checkAll Γ args σ⟩⟩
  | .cond _ predicate thenBranch elseBranch, σ =>
    List.forall_mem_cons.mpr ⟨rfl, List.forall_mem_append.mpr ⟨Expr.annotated_check Γ predicate σ,
      List.forall_mem_append.mpr
        ⟨Expr.annotated_check Γ thenBranch σ, Expr.annotated_check Γ elseBranch σ⟩⟩⟩
  | .loop _ left right, σ | .binary _ _ left right, σ =>
    List.forall_mem_cons.mpr ⟨rfl, List.forall_mem_append.mpr
      ⟨Expr.annotated_check Γ left σ, Expr.annotated_check Γ right σ⟩⟩
  | .block _ body, σ =>
    List.forall_mem_cons.mpr ⟨rfl, Expr.annotated_checkAll Γ body σ⟩
  | .letIn _ _ _ init body, σ =>
    List.forall_mem_cons.mpr ⟨rfl, List.forall_mem_append.mpr
      ⟨Expr.annotated_checkInit Γ init σ, Expr.annotated_check Γ body _⟩⟩
  | .typeCase _ scrutinee branches, σ =>
    List.forall_mem_cons.mpr ⟨rfl, List.forall_mem_append.mpr
      ⟨Expr.annotated_check Γ scrutinee σ, Branch.annotated_checkAll Γ branches σ _ _ _⟩⟩
  | .unary _ _ operand, σ | .isVoid _ operand, σ =>
    List.forall_mem_cons.mpr ⟨rfl, Expr.annotated_check Γ operand σ⟩

theorem Expr.annotated_checkAll (Γ : Context) : ∀ (es : List Expr) (σ : Scope),
    ∀ note ∈ Expr.notesAll (Expr.checkAll Γ σ es).value.1, note.type?.isSome
  | [], _ => List.forall_mem_nil _
  | e :: es, σ => List.forall_mem_append.mpr
      ⟨Expr.annotated_check Γ e σ, Expr.annotated_checkAll Γ es σ⟩

theorem Expr.annotated_checkInit (Γ : Context) : ∀ (init : Option Expr) (σ : Scope),
    ∀ note ∈ Expr.notesInit (Expr.checkInit Γ σ init).value.1, note.type?.isSome
  | none, _ => List.forall_mem_nil _
  | some e, σ => Expr.annotated_check Γ e σ

theorem Branch.annotated_checkAll (Γ : Context) : ∀ (branches : List Branch) (σ : Scope)
    (span : Span) (seen : List String) (joined : Option Ty),
    ∀ note ∈ Branch.notesAll (Branch.checkAll Γ σ span seen joined branches).value.1,
      note.type?.isSome
  | [], _, _, _, _ => List.forall_mem_nil _
  | ⟨_, _, body, _⟩ :: branches, σ, span, _, _ => List.forall_mem_append.mpr
      ⟨Expr.annotated_check Γ body _, Branch.annotated_checkAll Γ branches σ span _ _⟩

end

/-! ## The reports of single rules -/

theorem Expr.span_check_mem_places (Γ : Context) (σ : Scope) (e : Expr) :
    (e.check Γ σ).value.1.span ∈ e.places := by
  cases e <;> exact List.mem_cons_self

namespace Context

/-- A diagnostic of the tier of types, at one of some places in the file of the class. -/
def Reported (Γ : Context) (places : List Span) (d : Diagnostic) : Prop :=
  d.tier = .typing ∧ ∃ span ∈ places, d.location? = some ⟨Γ.file, span⟩

open Diagnosed

variable {places : List Span} {span : Span} (hspan : span ∈ places)
include hspan

theorem reportsOnly_report (defect : TypingDefect) :
    (Γ.report span defect).ReportsOnly (Γ.Reported places) :=
  Diagnosed.reportsOnly_report ⟨rfl, span, hspan, rfl⟩

theorem reportsOnly_recover (defect : TypingDefect) (type : Ty) :
    (Γ.recover span defect type).ReportsOnly (Γ.Reported places) :=
  (reportsOnly_report hspan defect).bind (reportsOnly_pure type)

theorem reportsOnly_require (condition : Bool) (defect : TypingDefect) :
    (Γ.require span condition defect).ReportsOnly (Γ.Reported places) := by
  unfold require
  split_ifs with h
  · exact reportsOnly_pure ()
  · exact reportsOnly_report hspan defect

theorem reportsOnly_conforms (sub sup : Ty) :
    (Γ.conforms span sub sup).ReportsOnly (Γ.Reported places) := by
  unfold conforms
  split
  · exact reportsOnly_pure _
  · exact (reportsOnly_report hspan _).bind (reportsOnly_pure true)

theorem reportsOnly_join (a b : Ty) : (Γ.join span a b).ReportsOnly (Γ.Reported places) := by
  unfold join
  split
  · exact reportsOnly_pure _
  · exact reportsOnly_recover hspan _ _

theorem reportsOnly_requireConforms (sub sup : Ty) (defect : TypingDefect) :
    (Γ.requireConforms span sub sup defect).ReportsOnly (Γ.Reported places) :=
  (reportsOnly_conforms hspan sub sup).bind (reportsOnly_require hspan _ defect)

theorem reportsOnly_objectType (name : String) :
    (Γ.objectType σ span name).ReportsOnly (Γ.Reported places) := by
  unfold objectType
  split
  · exact reportsOnly_pure _
  · exact reportsOnly_recover hspan _ _

theorem reportsOnly_assignType (name : String) (value : Ty) :
    (Γ.assignType σ span name value).ReportsOnly (Γ.Reported places) := by
  unfold assignType
  split
  · exact reportsOnly_recover hspan _ _
  · split
    · exact reportsOnly_recover hspan _ _
    · refine (reportsOnly_conforms hspan _ _).bind ?_
      split
      · exact reportsOnly_pure value
      · exact reportsOnly_recover hspan _ _

theorem reportsOnly_checkArguments (method : String) : ∀ args : List (Ty × FormalSig),
    (Γ.checkArguments span method args).ReportsOnly (Γ.Reported places)
  | [] => reportsOnly_pure ()
  | (_, _) :: more =>
    (reportsOnly_requireConforms hspan _ _ _).bind (reportsOnly_checkArguments method more)

theorem reportsOnly_callType (receiver : Ty) (start method : String) (args : List Ty) :
    (Γ.callType span receiver start method args).ReportsOnly (Γ.Reported places) := by
  unfold callType
  split
  · split
    · exact reportsOnly_recover hspan _ _
    · dsimp only
      split
      · exact reportsOnly_recover hspan _ _
      · exact (reportsOnly_checkArguments hspan _ _).bind (reportsOnly_pure _)
  · exact reportsOnly_pure _

theorem reportsOnly_staticCallType (receiver : Ty) (type method : String) (args : List Ty) :
    (Γ.staticCallType span receiver type method args).ReportsOnly (Γ.Reported places) := by
  unfold staticCallType
  split
  · exact reportsOnly_recover hspan _ _
  · split
    · exact (reportsOnly_requireConforms hspan _ _ _).bind (reportsOnly_callType hspan _ _ _ _)
    · exact reportsOnly_recover hspan _ _

theorem reportsOnly_newType (type : String) :
    (Γ.newType span type).ReportsOnly (Γ.Reported places) := by
  unfold newType
  split
  · exact reportsOnly_pure _
  · exact reportsOnly_recover hspan _ _

theorem reportsOnly_letType (name type : String) :
    (Γ.letType span name type).ReportsOnly (Γ.Reported places) := by
  unfold letType
  split
  · exact reportsOnly_pure _
  · exact reportsOnly_recover hspan _ _

theorem reportsOnly_checkLetInit (name : String) (declared : Ty) (init : Option Ty) :
    (Γ.checkLetInit span name declared init).ReportsOnly (Γ.Reported places) := by
  unfold checkLetInit
  split
  · exact reportsOnly_pure ()
  · split
    · exact reportsOnly_pure ()
    · exact reportsOnly_requireConforms hspan _ _ _

theorem reportsOnly_branchType (name type : String) :
    (Γ.branchType span name type).ReportsOnly (Γ.Reported places) := by
  unfold branchType
  split
  · exact reportsOnly_recover hspan _ _
  · split
    · exact reportsOnly_pure _
    · exact reportsOnly_recover hspan _ _

theorem reportsOnly_joinBranch (type : Ty) (joined : Option Ty) :
    (Γ.joinBranch span type joined).ReportsOnly (Γ.Reported places) := by
  cases joined with
  | none => exact reportsOnly_pure type
  | some joined => exact reportsOnly_join hspan joined type

theorem reportsOnly_binaryType (op : BinaryOp) (left right : Ty) :
    (Γ.binaryType span op left right).ReportsOnly (Γ.Reported places) := by
  cases op <;> exact (reportsOnly_require hspan _ _).bind (reportsOnly_pure _)

theorem reportsOnly_unaryType (op : UnaryOp) (operand : Ty) :
    (Γ.unaryType span op operand).ReportsOnly (Γ.Reported places) := by
  cases op <;> exact (reportsOnly_require hspan _ _).bind (reportsOnly_pure _)

end Context

/-! ## The reports of expressions -/

open Diagnosed Context

section

variable {places : List Span}

mutual

/-- Whatever is reported on an expression stands at one of its places. -/
theorem Expr.reportsOnly_check (Γ : Context) : ∀ (e : Expr) (σ : Scope),
    (∀ span ∈ e.places, span ∈ places) → (e.check Γ σ).ReportsOnly (Γ.Reported places)
  | .int .., _, _ | .string .., _, _ | .bool .., _, _ => reportsOnly_pure _
  | .object .., _, h => by
    have hspan := List.forall_mem_singleton.mp h
    exact (reportsOnly_objectType hspan _).bind (reportsOnly_pure _)
  | .assign _ _ value, σ, h => by
    obtain ⟨hspan, hvalue⟩ := List.forall_mem_cons.mp h
    exact (Expr.reportsOnly_check Γ value σ hvalue).bind
      ((reportsOnly_assignType hspan _ _).bind (reportsOnly_pure _))
  | .selfDispatch _ _ args, σ, h => by
    obtain ⟨hspan, hargs⟩ := List.forall_mem_cons.mp h
    exact (Expr.reportsOnly_checkAll Γ args σ hargs).bind
      ((reportsOnly_callType hspan _ _ _ _).bind (reportsOnly_pure _))
  | .dispatch _ receiver _ args, σ, h => by
    obtain ⟨hspan, hparts⟩ := List.forall_mem_cons.mp h
    obtain ⟨hreceiver, hargs⟩ := List.forall_mem_append.mp hparts
    exact (Expr.reportsOnly_check Γ receiver σ hreceiver).bind
      ((Expr.reportsOnly_checkAll Γ args σ hargs).bind
        ((reportsOnly_callType hspan _ _ _ _).bind (reportsOnly_pure _)))
  | .staticDispatch _ receiver _ _ args, σ, h => by
    obtain ⟨hspan, hparts⟩ := List.forall_mem_cons.mp h
    obtain ⟨hreceiver, hargs⟩ := List.forall_mem_append.mp hparts
    exact (Expr.reportsOnly_check Γ receiver σ hreceiver).bind
      ((Expr.reportsOnly_checkAll Γ args σ hargs).bind
        ((reportsOnly_staticCallType hspan _ _ _ _).bind (reportsOnly_pure _)))
  | .new .., _, h => by
    have hspan := List.forall_mem_singleton.mp h
    exact (reportsOnly_newType hspan _).bind (reportsOnly_pure _)
  | .cond _ predicate thenBranch elseBranch, σ, h => by
    obtain ⟨hspan, hparts⟩ := List.forall_mem_cons.mp h
    obtain ⟨hpredicate, hbranches⟩ := List.forall_mem_append.mp hparts
    obtain ⟨hthen, helse⟩ := List.forall_mem_append.mp hbranches
    have htested := hpredicate _ (Expr.span_check_mem_places Γ σ predicate)
    exact (Expr.reportsOnly_check Γ predicate σ hpredicate).bind
      ((reportsOnly_require htested _ _).bind
        ((Expr.reportsOnly_check Γ thenBranch σ hthen).bind
          ((Expr.reportsOnly_check Γ elseBranch σ helse).bind
            ((reportsOnly_join hspan _ _).bind (reportsOnly_pure _)))))
  | .loop _ predicate body, σ, h => by
    obtain ⟨hspan, hparts⟩ := List.forall_mem_cons.mp h
    obtain ⟨hpredicate, hbody⟩ := List.forall_mem_append.mp hparts
    have htested := hpredicate _ (Expr.span_check_mem_places Γ σ predicate)
    exact (Expr.reportsOnly_check Γ predicate σ hpredicate).bind
      ((reportsOnly_require htested _ _).bind
        ((Expr.reportsOnly_check Γ body σ hbody).bind (reportsOnly_pure _)))
  | .block _ body, σ, h => by
    obtain ⟨-, hbody⟩ := List.forall_mem_cons.mp h
    exact (Expr.reportsOnly_checkAll Γ body σ hbody).bind (reportsOnly_pure _)
  | .letIn _ _ _ init body, σ, h => by
    obtain ⟨hspan, hparts⟩ := List.forall_mem_cons.mp h
    obtain ⟨hinit, hbody⟩ := List.forall_mem_append.mp hparts
    exact (reportsOnly_require hspan _ _).bind ((reportsOnly_letType hspan _ _).bind
      ((Expr.reportsOnly_checkInit Γ init σ hinit).bind
        ((reportsOnly_checkLetInit hspan _ _ _).bind
          ((Expr.reportsOnly_check Γ body _ hbody).bind (reportsOnly_pure _)))))
  | .typeCase _ scrutinee branches, σ, h => by
    obtain ⟨hspan, hparts⟩ := List.forall_mem_cons.mp h
    obtain ⟨hscrutinee, hbranches⟩ := List.forall_mem_append.mp hparts
    exact (Expr.reportsOnly_check Γ scrutinee σ hscrutinee).bind
      ((Branch.reportsOnly_checkAll Γ branches σ _ [] none hspan hbranches).bind
        (reportsOnly_pure _))
  | .binary _ _ left right, σ, h => by
    obtain ⟨hspan, hparts⟩ := List.forall_mem_cons.mp h
    obtain ⟨hleft, hright⟩ := List.forall_mem_append.mp hparts
    exact (Expr.reportsOnly_check Γ left σ hleft).bind
      ((Expr.reportsOnly_check Γ right σ hright).bind
        ((reportsOnly_binaryType hspan _ _ _).bind (reportsOnly_pure _)))
  | .unary _ _ operand, σ, h => by
    obtain ⟨hspan, hoperand⟩ := List.forall_mem_cons.mp h
    exact (Expr.reportsOnly_check Γ operand σ hoperand).bind
      ((reportsOnly_unaryType hspan _ _).bind (reportsOnly_pure _))
  | .isVoid _ operand, σ, h => by
    obtain ⟨-, hoperand⟩ := List.forall_mem_cons.mp h
    exact (Expr.reportsOnly_check Γ operand σ hoperand).bind (reportsOnly_pure _)

theorem Expr.reportsOnly_checkAll (Γ : Context) : ∀ (es : List Expr) (σ : Scope),
    (∀ span ∈ Expr.placesAll es, span ∈ places) →
      (Expr.checkAll Γ σ es).ReportsOnly (Γ.Reported places)
  | [], _, _ => reportsOnly_pure _
  | e :: es, σ, h => by
    obtain ⟨he, hes⟩ := List.forall_mem_append.mp h
    exact (Expr.reportsOnly_check Γ e σ he).bind
      ((Expr.reportsOnly_checkAll Γ es σ hes).bind (reportsOnly_pure _))

theorem Expr.reportsOnly_checkInit (Γ : Context) : ∀ (init : Option Expr) (σ : Scope),
    (∀ span ∈ Expr.placesInit init, span ∈ places) →
      (Expr.checkInit Γ σ init).ReportsOnly (Γ.Reported places)
  | none, _, _ => reportsOnly_pure _
  | some e, σ, h => (Expr.reportsOnly_check Γ e σ h).bind (reportsOnly_pure _)

theorem Branch.reportsOnly_checkAll (Γ : Context) : ∀ (branches : List Branch) (σ : Scope)
    (span : Span) (seen : List String) (joined : Option Ty), span ∈ places →
    (∀ span ∈ Branch.placesAll branches, span ∈ places) →
      (Branch.checkAll Γ σ span seen joined branches).ReportsOnly (Γ.Reported places)
  | [], _, _, _, _, _, _ => reportsOnly_pure _
  | ⟨_, _, body, _⟩ :: branches, σ, span, seen, joined, hspan, h => by
    obtain ⟨hplace, hparts⟩ := List.forall_mem_cons.mp h
    obtain ⟨hbody, hbranches⟩ := List.forall_mem_append.mp hparts
    exact (reportsOnly_require hplace _ _).bind ((reportsOnly_branchType hplace _ _).bind
      ((reportsOnly_require hplace _ _).bind ((Expr.reportsOnly_check Γ body _ hbody).bind
        ((reportsOnly_joinBranch hspan _ _).bind
          ((Branch.reportsOnly_checkAll Γ branches σ span _ _ hspan hbranches).bind
            (reportsOnly_pure _))))))

end

end

/-! ## Features -/

/-- Whatever is reported on a feature stands at one of its places. -/
theorem Feature.reportsOnly_check (Γ : Context) (σ : Scope) (seen : List String) (f : Feature) :
    (f.check Γ σ seen).ReportsOnly (Γ.Reported f.places) := by
  cases f with
  | attr a =>
    obtain ⟨name, type, init, span⟩ := a
    have hspan : span ∈ (Feature.attr ⟨name, type, init, span⟩).places := List.mem_cons_self
    refine ReportsOnly.bind ?_ (reportsOnly_pure _)
    cases init with
    | none => exact reportsOnly_pure _
    | some e =>
      exact (Expr.reportsOnly_check Γ e σ fun _ h => List.mem_cons_of_mem _ h).bind
        ((reportsOnly_requireConforms hspan _ _ _).bind (reportsOnly_pure _))
  | method m =>
    have hspan : m.span ∈ (Feature.method m).places := List.mem_cons_self
    refine ReportsOnly.bind ?_ (reportsOnly_pure _)
    exact (Expr.reportsOnly_check Γ m.body _ fun _ h => List.mem_cons_of_mem _ h).bind
      ((reportsOnly_requireConforms hspan _ _ _).bind (reportsOnly_pure _))

/-- A checked feature has types at all of its nodes. -/
theorem Feature.isSome_check (Γ : Context) (σ : Scope) (seen : List String) (f : Feature) :
    ∀ note ∈ (f.check Γ σ seen).value.notes, note.type?.isSome := by
  cases f with
  | attr a =>
    obtain ⟨name, type, init, span⟩ := a
    cases init with
    | none => exact List.forall_mem_nil _
    | some e => exact Expr.annotated_check Γ e σ
  | method m => exact Expr.annotated_check Γ m.body _

end Cool
