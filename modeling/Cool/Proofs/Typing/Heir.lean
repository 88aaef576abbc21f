import Cool.Proofs.Typing.Check
import Cool.Proofs.Typing.Refine

/-!
# The check in an heir

An expression that is checked without a report in a class is checked without a report in every heir
of the class, in any scope that knows the variables of the first; and the types noted in the heir
take the place of those noted in the class. There is a lemma for each function that finds the type
of a node, and the check of expressions follows node by node.

* `Context.inside`, `Context.HasHeir` : the place in the heir;
* `Note.Refines` : the types noted at a node in the heir and in the class;
* `Expr.check_inside` : the check in the heir.
-/

namespace Cool

/-! ## The place in the heir -/

namespace Context

/-- The same tables, at a place in another class. -/
def inside (Γ : Context) (heir file : String) : Context :=
  { Γ with className := heir, file := file }

/-- The place is in a class of tables without defects, and another class inherits from it. -/
structure HasHeir (Γ : Context) (heir : String) : Prop where
  lawful : Γ.Lawful
  coherent : Γ.world.Coherent
  heir : Γ.world.Heir heir Γ.className

variable {Γ : Context} {heir file : String}

theorem HasHeir.lawful_inside (hΓ : Γ.HasHeir heir) (file : String) :
    (Γ.inside heir file).Lawful :=
  ⟨hΓ.lawful.sound, hΓ.lawful.resolved, hΓ.heir.isClass, hΓ.lawful.world⟩

/-! ## Single nodes -/

open Diagnosed World

variable {σ σ' : Scope} {span span' : Span} {name type method : String} {τ τ' υ υ' : Ty}
  {args args' : List Ty}

theorem require_follows {condition condition' : Bool} {defect defect' : TypingDefect}
    (h : condition = true → condition' = true) :
    Follows (fun _ _ => condition = true) ((Γ.inside heir file).require span' condition' defect')
      (Γ.require span condition defect) := by
  intro u hu
  have hcondition := require_eq_pure_iff.mp hu
  exact ⟨(), require_eq_pure_iff.mpr (h hcondition), hcondition⟩

theorem objectType_follows (hσ : Env.Valid Γ.world σ.lookup?) (h : σ.Within σ') :
    Follows Γ.world.Refines ((Γ.inside heir file).objectType σ' span' name)
      (Γ.objectType σ span name) := by
  intro τ hτ
  have hname := objectType_eq_pure_iff.mp hτ
  exact ⟨τ, objectType_eq_pure_iff.mpr (h name τ hname), .refl (hσ name τ hname)⟩

theorem newType_follows : Follows Γ.world.Refines ((Γ.inside heir file).newType span' type)
    (Γ.newType span type) := by
  intro τ hτ
  have htype := newType_eq_pure_iff.mp hτ
  exact ⟨τ, newType_eq_pure_iff.mpr htype, .refl htype.isType⟩

theorem letType_follows : Follows (fun τ' τ => τ' = τ ∧ Γ.world.IsType τ)
    ((Γ.inside heir file).letType span' name type) (Γ.letType span name type) := by
  intro τ hτ
  have htype := letType_eq_pure_iff.mp hτ
  exact ⟨τ, letType_eq_pure_iff.mpr htype, rfl, htype.isType⟩

theorem branchType_follows : Follows (fun τ' τ => τ' = τ ∧ Γ.world.IsType τ)
    ((Γ.inside heir file).branchType span' name type) (Γ.branchType span name type) := by
  intro τ hτ
  obtain ⟨htype, rfl⟩ := branchType_eq_pure_iff.mp hτ
  exact ⟨_, branchType_eq_pure_iff.mpr ⟨htype, rfl⟩, rfl, htype.isType⟩

section HasHeir

variable (hΓ : Γ.HasHeir heir)
include hΓ

theorem isClass_follows (hname : name ∈ Names.values) (h : Γ.world.Refines τ' τ)
    (hτ : τ.isClass name = true) : τ'.isClass name = true := by
  obtain rfl := isClass_iff.mp hτ
  exact isClass_iff.mpr (h.eq_of_mem_values hΓ.coherent hname)

theorem requireConforms_follows {defect defect' : TypingDefect} (h : Γ.world.Refines τ' τ) :
    Follows (fun _ _ => True) ((Γ.inside heir file).requireConforms span' τ' υ defect')
      (Γ.requireConforms span τ υ defect) := by
  intro u hu
  have hconforms := (requireConforms_eq_pure_iff hΓ.lawful).mp hu
  exact ⟨(), (requireConforms_eq_pure_iff (hΓ.lawful_inside file)).mpr
    (h.conforms hΓ.heir hconforms), trivial⟩

theorem join_follows (hτ : Γ.world.Refines τ' τ) (hυ : Γ.world.Refines υ' υ) :
    Follows Γ.world.Refines ((Γ.inside heir file).join span' τ' υ') (Γ.join span τ υ) := by
  intro ρ hρ
  have hjoin := (join_eq_pure_iff hΓ.lawful).mp hρ
  have hΓ' := hΓ.lawful_inside file
  obtain ⟨ρ', hjoin'⟩ := exists_join hΓ' hτ.isType hυ.isType
  exact ⟨ρ', (join_eq_pure_iff hΓ').mpr hjoin',
    .of_isJoin hΓ.coherent hΓ.heir hτ hυ hjoin hjoin'⟩

theorem joinBranch_follows {joined joined' : Option Ty} (hτ : Γ.world.Refines τ' τ)
    (h : Option.Rel Γ.world.Refines joined' joined) :
    Follows Γ.world.Refines ((Γ.inside heir file).joinBranch span' τ' joined')
      (Γ.joinBranch span τ joined) := by
  cases h with
  | none => exact follows_pure hτ
  | some h => exact join_follows hΓ h hτ

theorem assignType_follows (hσ : σ.Within σ') (h : Γ.world.Refines τ' τ) :
    Follows Γ.world.Refines ((Γ.inside heir file).assignType σ' span' name τ')
      (Γ.assignType σ span name τ) := by
  intro υ hυ
  obtain ⟨hself, rfl, declared, hname, hconforms⟩ := (assignType_eq_pure_iff hΓ.lawful).mp hυ
  have hconforms' := h.conforms hΓ.heir hconforms
  exact ⟨τ', (assignType_eq_pure_iff (hΓ.lawful_inside file)).mpr
    ⟨hself, rfl, declared, hσ name declared hname, hconforms'⟩, h⟩

theorem checkLetInit_follows {init init' : Option Ty}
    (h : Option.Rel Γ.world.Refines init' init) :
    Follows (fun _ _ => True) ((Γ.inside heir file).checkLetInit span' name υ init')
      (Γ.checkLetInit span name υ init) := by
  cases h with
  | none => exact follows_pure trivial
  | some h =>
    intro u hu
    have hdeclared := (checkLetInit_some_eq_pure_iff hΓ.lawful).mp hu
    exact ⟨(), (checkLetInit_some_eq_pure_iff (hΓ.lawful_inside file)).mpr
      (hdeclared.imp_right (h.conforms hΓ.heir)), trivial⟩

theorem callType_follows {start start' : String} (hreceiver : Γ.world.Refines τ' τ)
    (hclass : Γ.world.IsClass start') (hstart : Γ.world.Inherits start' start)
    (hargs : List.Forall₂ Γ.world.Refines args' args) :
    Follows Γ.world.Refines ((Γ.inside heir file).callType span' τ' start' method args')
      (Γ.callType span τ start method args) := by
  intro ρ hρ
  have hΓ' := hΓ.lawful_inside file
  have hcontains := hΓ.lawful.world.isClass_of_inherits hclass hstart
  have hcall := (callType_eq_pure_iff hΓ.lawful hcontains).mp hρ
  obtain ⟨ρ', hcall', hρ'⟩ := hcall.refine hΓ.lawful.world hΓ.coherent hΓ.heir hreceiver hclass
    hstart hargs
  exact ⟨ρ', (callType_eq_pure_iff hΓ' hclass).mpr hcall', hρ'⟩

theorem staticCallType_follows (hreceiver : Γ.world.Refines τ' τ)
    (hargs : List.Forall₂ Γ.world.Refines args' args) :
    Follows Γ.world.Refines ((Γ.inside heir file).staticCallType span' τ' type method args')
      (Γ.staticCallType span τ type method args) := by
  intro ρ hρ
  have hΓ' := hΓ.lawful_inside file
  obtain ⟨htype, hconforms, hcall⟩ := (staticCallType_eq_pure_iff hΓ.lawful).mp hρ
  obtain ⟨ρ', hcall', hρ'⟩ := hcall.refine hΓ.lawful.world hΓ.coherent hΓ.heir hreceiver
    (denotes_named_iff.mp htype).2 .refl hargs
  have hconforms' := hreceiver.conforms hΓ.heir hconforms
  exact ⟨ρ', (staticCallType_eq_pure_iff hΓ').mpr ⟨htype, hconforms', hcall'⟩, hρ'⟩

theorem binaryType_follows {op : BinaryOp} (hτ : Γ.world.Refines τ' τ)
    (hυ : Γ.world.Refines υ' υ) :
    Follows Γ.world.Refines ((Γ.inside heir file).binaryType span' op τ' υ')
      (Γ.binaryType span op τ υ) := by
  have hint : Names.int ∈ Names.values := by decide
  have hbasic : ∀ a ∈ Names.basic, Γ.world.IsClass a := hΓ.lawful.world.basic
  have hInt : Γ.world.Refines .int .int := .refl (hbasic _ (by decide))
  have hBool : Γ.world.Refines .bool .bool := .refl (hbasic _ (by decide))
  intro ρ hρ
  rcases binaryType_eq_pure_iff.mp hρ with ⟨rfl, hvalue, rfl⟩ | ⟨rfl, rfl, hop⟩
  · rw [← hτ.isValue_eq, ← hυ.isValue_eq] at hvalue
    exact ⟨_, binaryType_eq_pure_iff.mpr (Or.inl ⟨rfl, hvalue, rfl⟩), hBool⟩
  · obtain rfl := hτ.eq_of_mem_values hΓ.coherent hint
    obtain rfl := hυ.eq_of_mem_values hΓ.coherent hint
    refine ⟨ρ, binaryType_eq_pure_iff.mpr (Or.inr ⟨rfl, rfl, hop⟩), ?_⟩
    rcases hop with ⟨-, rfl⟩ | ⟨-, rfl⟩
    · exact hInt
    · exact hBool

theorem unaryType_follows {op : UnaryOp} (h : Γ.world.Refines τ' τ) :
    Follows Γ.world.Refines ((Γ.inside heir file).unaryType span' op τ')
      (Γ.unaryType span op τ) := by
  have hbasic : ∀ a ∈ Names.basic, Γ.world.IsClass a := hΓ.lawful.world.basic
  intro ρ hρ
  rcases unaryType_eq_pure_iff.mp hρ with ⟨rfl, rfl, rfl⟩ | ⟨rfl, rfl, rfl⟩
  · obtain rfl := h.eq_of_mem_values hΓ.coherent (by decide)
    exact ⟨_, hρ, .refl (hbasic _ (by decide))⟩
  · obtain rfl := h.eq_of_mem_values hΓ.coherent (by decide)
    exact ⟨_, hρ, .refl (hbasic _ (by decide))⟩

end HasHeir

end Context

/-! ## Expressions -/

section

open Diagnosed Context

/-- Types are noted in two trees, and the first takes the place of the second. -/
def Note.Refines (W : World) (n' n : Note) : Prop :=
  ∃ τ' τ, n'.type? = some τ' ∧ n.type? = some τ ∧ W.Refines τ' τ

/-- So it is with the types of two expressions, and with all that is noted in them. -/
def Expr.Refines (W : World) (x y : Expr × Ty) : Prop :=
  W.Refines x.2 y.2 ∧ List.Forall₂ (Note.Refines W) x.1.notes y.1.notes

variable {Γ : Context} {heir file : String} {τ τ' : Ty}

theorem Note.refines_typed {W : World} (h : W.Refines τ' τ) (note : Note) :
    Note.Refines W (note.typed τ') (note.typed τ) :=
  ⟨τ', τ, rfl, rfl, h⟩

theorem Context.HasHeir.refines_basic (hΓ : Γ.HasHeir heir) {a : String} (ha : a ∈ Names.basic) :
    Γ.world.Refines (.named a) (.named a) := by
  have hclass : Γ.world.IsType (.named a) := hΓ.lawful.world.basic a ha
  exact .refl hclass

theorem refines_getD {W : World} {joined joined' : Option Ty}
    (h : Option.Rel W.Refines joined' joined) (hτ : W.Refines τ' τ) :
    W.Refines (joined'.getD τ') (joined.getD τ) := by
  cases h with
  | none => exact hτ
  | some h => exact h

theorem refines_getLastD {W : World} {types types' : List Ty}
    (h : List.Forall₂ W.Refines types' types) : ∀ {τ τ' : Ty}, W.Refines τ' τ →
      W.Refines (types'.getLastD τ') (types.getLastD τ) := by
  induction h with
  | nil => exact id
  | cons hfirst _ ih =>
    intro _ _ _
    rw [List.getLastD_cons, List.getLastD_cons]
    exact ih hfirst

mutual

/-- What is checked without a report in a class is so in an heir, and the types that are noted
there take the place of those noted in the class. -/
theorem Expr.check_inside (hΓ : Γ.HasHeir heir) (file : String) : ∀ (e : Expr) {σ σ' : Scope},
    Env.Valid Γ.world σ.lookup? → σ.Within σ' →
      Follows (Expr.Refines Γ.world) (e.check (Γ.inside heir file) σ') (e.check Γ σ)
  | .int note _, _, _, _, _ | .string note _, _, _, _, _ | .bool note _, _, _, _, _ => by
    refine follows_pure ⟨?_, .cons (Note.refines_typed ?_ note) .nil⟩
    · exact hΓ.refines_basic (by decide)
    · exact hΓ.refines_basic (by decide)
  | .object note name, _, _, henv, h => by
    refine (objectType_follows henv h).bind fun _ _ hτ => ?_
    exact follows_pure ⟨hτ, .cons (Note.refines_typed hτ note) .nil⟩
  | .assign note name value, _, _, henv, h => by
    refine (Expr.check_inside hΓ file value henv h).bind fun ⟨_, _⟩ ⟨_, _⟩ ⟨hυ, hnotes⟩ => ?_
    refine (assignType_follows hΓ h hυ).bind fun _ _ hτ => ?_
    exact follows_pure ⟨hτ, .cons (Note.refines_typed hτ note) hnotes⟩
  | .selfDispatch note method args, _, _, henv, h => by
    refine (Expr.checkAll_inside hΓ file args henv h).bind fun ⟨_, _⟩ ⟨_, _⟩ ⟨hargs, hnotes⟩ => ?_
    refine (callType_follows hΓ .selfType hΓ.heir.isClass hΓ.heir.inherits hargs).bind
      fun _ _ hτ => ?_
    exact follows_pure ⟨hτ, .cons (Note.refines_typed hτ note) hnotes⟩
  | .dispatch note receiver method args, _, _, henv, h => by
    refine (Expr.check_inside hΓ file receiver henv h).bind fun ⟨_, _⟩ ⟨_, _⟩ ⟨hρ, hnotes⟩ => ?_
    refine (Expr.checkAll_inside hΓ file args henv h).bind fun ⟨_, _⟩ ⟨_, _⟩ ⟨hargs, hmore⟩ => ?_
    refine (callType_follows hΓ hρ (hρ.isClass_resolve hΓ.heir) (hρ.inherits_resolve hΓ.heir)
      hargs).bind fun _ _ hτ => ?_
    exact follows_pure ⟨hτ, .cons (Note.refines_typed hτ note) (List.rel_append hnotes hmore)⟩
  | .staticDispatch note receiver type method args, _, _, henv, h => by
    refine (Expr.check_inside hΓ file receiver henv h).bind fun ⟨_, _⟩ ⟨_, _⟩ ⟨hρ, hnotes⟩ => ?_
    refine (Expr.checkAll_inside hΓ file args henv h).bind fun ⟨_, _⟩ ⟨_, _⟩ ⟨hargs, hmore⟩ => ?_
    refine (staticCallType_follows hΓ hρ hargs).bind fun _ _ hτ => ?_
    exact follows_pure ⟨hτ, .cons (Note.refines_typed hτ note) (List.rel_append hnotes hmore)⟩
  | .new note type, _, _, _, _ => by
    refine newType_follows.bind fun _ _ hτ => ?_
    exact follows_pure ⟨hτ, .cons (Note.refines_typed hτ note) .nil⟩
  | .cond note predicate thenBranch elseBranch, _, _, henv, h => by
    refine (Expr.check_inside hΓ file predicate henv h).bind fun ⟨_, _⟩ ⟨_, _⟩ ⟨hρ, hnotes⟩ => ?_
    refine (require_follows (isClass_follows hΓ (by decide) hρ)).bind fun _ _ _ => ?_
    refine (Expr.check_inside hΓ file thenBranch henv h).bind fun ⟨_, _⟩ ⟨_, _⟩ ⟨hσ, hthen⟩ => ?_
    refine (Expr.check_inside hΓ file elseBranch henv h).bind fun ⟨_, _⟩ ⟨_, _⟩ ⟨hυ, helse⟩ => ?_
    refine (join_follows hΓ hσ hυ).bind fun _ _ hτ => ?_
    have hbranches := List.rel_append hthen helse
    exact follows_pure ⟨hτ, .cons (Note.refines_typed hτ note) (List.rel_append hnotes hbranches)⟩
  | .loop note predicate body, _, _, henv, h => by
    refine (Expr.check_inside hΓ file predicate henv h).bind fun ⟨_, _⟩ ⟨_, _⟩ ⟨hρ, hnotes⟩ => ?_
    refine (require_follows (isClass_follows hΓ (by decide) hρ)).bind fun _ _ _ => ?_
    refine (Expr.check_inside hΓ file body henv h).bind fun ⟨_, _⟩ ⟨_, _⟩ ⟨_, hbody⟩ => ?_
    have hobject := hΓ.refines_basic (show Names.object ∈ Names.basic by decide)
    exact follows_pure
      ⟨hobject, .cons (Note.refines_typed hobject note) (List.rel_append hnotes hbody)⟩
  | .block note body, _, _, henv, h => by
    refine (Expr.checkAll_inside hΓ file body henv h).bind fun ⟨_, _⟩ ⟨_, _⟩ ⟨htypes, hnotes⟩ => ?_
    have hobject := hΓ.refines_basic (show Names.object ∈ Names.basic by decide)
    have hτ := refines_getLastD htypes hobject
    exact follows_pure ⟨hτ, .cons (Note.refines_typed hτ note) hnotes⟩
  | .letIn note name type init body, _, _, henv, h => by
    refine (require_follows id).bind fun _ _ hself => ?_
    refine letType_follows.bind fun declared _ ⟨heq, htype⟩ => ?_
    subst heq
    refine (Expr.checkInit_inside hΓ file init henv h).bind fun ⟨_, _⟩ ⟨_, _⟩ ⟨hι, hnotes⟩ => ?_
    refine (checkLetInit_follows hΓ hι).bind fun _ _ _ => ?_
    have henv' := Scope.valid_push_declare henv (of_decide_eq_true hself) htype
    refine (Expr.check_inside hΓ file body henv' (h.push_declare name declared)).bind
      fun ⟨_, _⟩ ⟨_, _⟩ ⟨hτ, hbody⟩ => ?_
    exact follows_pure ⟨hτ, .cons (Note.refines_typed hτ note) (List.rel_append hnotes hbody)⟩
  | .typeCase note scrutinee branches, _, _, henv, h => by
    refine (Expr.check_inside hΓ file scrutinee henv h).bind fun ⟨_, _⟩ ⟨_, _⟩ ⟨_, hnotes⟩ => ?_
    refine (Branch.checkAll_inside hΓ file branches henv h .none).bind
      fun ⟨_, _⟩ ⟨_, _⟩ ⟨hjoined, hmore⟩ => ?_
    have hobject := hΓ.refines_basic (show Names.object ∈ Names.basic by decide)
    have hτ := refines_getD hjoined hobject
    exact follows_pure ⟨hτ, .cons (Note.refines_typed hτ note) (List.rel_append hnotes hmore)⟩
  | .binary note op left right, _, _, henv, h => by
    refine (Expr.check_inside hΓ file left henv h).bind fun ⟨_, _⟩ ⟨_, _⟩ ⟨hσ, hnotes⟩ => ?_
    refine (Expr.check_inside hΓ file right henv h).bind fun ⟨_, _⟩ ⟨_, _⟩ ⟨hυ, hmore⟩ => ?_
    refine (binaryType_follows hΓ hσ hυ).bind fun _ _ hτ => ?_
    exact follows_pure ⟨hτ, .cons (Note.refines_typed hτ note) (List.rel_append hnotes hmore)⟩
  | .unary note op operand, _, _, henv, h => by
    refine (Expr.check_inside hΓ file operand henv h).bind fun ⟨_, _⟩ ⟨_, _⟩ ⟨hυ, hnotes⟩ => ?_
    refine (unaryType_follows hΓ hυ).bind fun _ _ hτ => ?_
    exact follows_pure ⟨hτ, .cons (Note.refines_typed hτ note) hnotes⟩
  | .isVoid note operand, _, _, henv, h => by
    refine (Expr.check_inside hΓ file operand henv h).bind fun ⟨_, _⟩ ⟨_, _⟩ ⟨_, hnotes⟩ => ?_
    have hbool := hΓ.refines_basic (show Names.bool ∈ Names.basic by decide)
    exact follows_pure ⟨hbool, .cons (Note.refines_typed hbool note) hnotes⟩

theorem Expr.checkAll_inside (hΓ : Γ.HasHeir heir) (file : String) : ∀ (es : List Expr)
    {σ σ' : Scope}, Env.Valid Γ.world σ.lookup? → σ.Within σ' →
      Follows (fun x y => List.Forall₂ Γ.world.Refines x.2 y.2 ∧
          List.Forall₂ (Note.Refines Γ.world) (Expr.notesAll x.1) (Expr.notesAll y.1))
        (Expr.checkAll (Γ.inside heir file) σ' es) (Expr.checkAll Γ σ es)
  | [], _, _, _, _ => follows_pure ⟨.nil, .nil⟩
  | e :: es, _, _, henv, h => by
    refine (Expr.check_inside hΓ file e henv h).bind fun ⟨_, _⟩ ⟨_, _⟩ ⟨hτ, hnotes⟩ => ?_
    refine (Expr.checkAll_inside hΓ file es henv h).bind fun ⟨_, _⟩ ⟨_, _⟩ ⟨htypes, hmore⟩ => ?_
    exact follows_pure ⟨.cons hτ htypes, List.rel_append hnotes hmore⟩

theorem Expr.checkInit_inside (hΓ : Γ.HasHeir heir) (file : String) : ∀ (init : Option Expr)
    {σ σ' : Scope}, Env.Valid Γ.world σ.lookup? → σ.Within σ' →
      Follows (fun x y => Option.Rel Γ.world.Refines x.2 y.2 ∧
          List.Forall₂ (Note.Refines Γ.world) (Expr.notesInit x.1) (Expr.notesInit y.1))
        (Expr.checkInit (Γ.inside heir file) σ' init) (Expr.checkInit Γ σ init)
  | none, _, _, _, _ => follows_pure ⟨.none, .nil⟩
  | some e, _, _, henv, h => by
    refine (Expr.check_inside hΓ file e henv h).bind fun ⟨_, _⟩ ⟨_, _⟩ ⟨hτ, hnotes⟩ => ?_
    exact follows_pure ⟨.some hτ, hnotes⟩

theorem Branch.checkAll_inside (hΓ : Γ.HasHeir heir) (file : String) : ∀ (branches : List Branch)
    {σ σ' : Scope} {span span' : Span} {seen : List String} {joined joined' : Option Ty},
    Env.Valid Γ.world σ.lookup? → σ.Within σ' → Option.Rel Γ.world.Refines joined' joined →
      Follows (fun x y => Option.Rel Γ.world.Refines x.2 y.2 ∧
          List.Forall₂ (Note.Refines Γ.world) (Branch.notesAll x.1) (Branch.notesAll y.1))
        (Branch.checkAll (Γ.inside heir file) σ' span' seen joined' branches)
        (Branch.checkAll Γ σ span seen joined branches)
  | [], _, _, _, _, _, _, _, _, _, hjoined => follows_pure ⟨hjoined, .nil⟩
  | ⟨name, type, body, place⟩ :: branches, _, _, _, _, _, _, _, henv, h, hjoined => by
    refine (require_follows id).bind fun _ _ hself => ?_
    refine branchType_follows.bind fun declared _ ⟨heq, htype⟩ => ?_
    subst heq
    refine (require_follows id).bind fun _ _ _ => ?_
    have henv' := Scope.valid_push_declare henv (of_decide_eq_true hself) htype
    refine (Expr.check_inside hΓ file body henv' (h.push_declare name declared)).bind
      fun ⟨_, _⟩ ⟨_, _⟩ ⟨hτ, hnotes⟩ => ?_
    refine (joinBranch_follows hΓ hτ hjoined).bind fun _ _ hυ => ?_
    refine (Branch.checkAll_inside hΓ file branches henv h (.some hυ)).bind
      fun ⟨_, _⟩ ⟨_, _⟩ ⟨hjoined', hmore⟩ => ?_
    exact follows_pure ⟨hjoined', List.rel_append hnotes hmore⟩

end

end

end Cool
