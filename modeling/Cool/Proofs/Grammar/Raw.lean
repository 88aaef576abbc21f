import Cool.Grammar.Program
import Cool.Proofs.Grammar.Parser
import Cool.Proofs.Tree.Notes

/-!
# Trees as they are read

A tree that is read has no types in its notes, and something in each block and in each `case`.

* `Expr.Raw`, `Feature.Raw`, `Program.Raw` : trees as they are read;
* `Grammar.gives_exprAt` : expressions;
* `Program.raw_of_parse`, `Program.Raw.fresh` : programs.
-/

namespace Cool

/-- No note has a type. -/
def Note.Untyped (notes : List Note) : Prop :=
  ∀ note ∈ notes, note.type? = none

/-- An expression without types, with something in each block and in each `case`. -/
structure Expr.Raw (e : Expr) : Prop where
  untyped : Note.Untyped e.notes
  nonEmpty : e.NonEmpty

def Feature.Raw : Feature → Prop
  | .attr a => ∀ e ∈ a.init, e.Raw
  | .method m => m.body.Raw

def Program.Raw (p : Program) : Prop :=
  ∀ c ∈ p.classes, ∀ f ∈ c.features, f.Raw

/-! ## Nodes and their children -/

namespace Note

variable {span : Span} {notes more : List Note}

theorem Untyped.node (h : Untyped notes) : Untyped (.untyped span :: notes) :=
  List.forall_mem_cons.mpr ⟨rfl, h⟩

theorem Untyped.append (h : Untyped notes) (h' : Untyped more) : Untyped (notes ++ more) :=
  List.forall_mem_append.mpr ⟨h, h'⟩

theorem untyped_leaf : Untyped [.untyped span] :=
  Untyped.node (List.forall_mem_nil _)

end Note

namespace Expr

theorem untyped_notesAll : ∀ {es : List Expr}, (∀ e ∈ es, e.Raw) → Note.Untyped (notesAll es)
  | [], _ => List.forall_mem_nil _
  | _ :: _, h => by
    obtain ⟨he, hes⟩ := List.forall_mem_cons.mp h
    exact he.untyped.append (untyped_notesAll hes)

theorem nonEmptyAll_of_raw : ∀ {es : List Expr}, (∀ e ∈ es, e.Raw) → NonEmptyAll es
  | [], _ => trivial
  | _ :: _, h => by
    obtain ⟨he, hes⟩ := List.forall_mem_cons.mp h
    exact ⟨he.nonEmpty, nonEmptyAll_of_raw hes⟩

theorem untyped_notesInit : ∀ {init : Option Expr}, (∀ e ∈ init, e.Raw) →
    Note.Untyped (notesInit init)
  | none, _ => List.forall_mem_nil _
  | some _, h => (h _ rfl).untyped

theorem nonEmptyInit_of_raw : ∀ {init : Option Expr}, (∀ e ∈ init, e.Raw) → NonEmptyInit init
  | none, _ => trivial
  | some _, h => (h _ rfl).nonEmpty

end Expr

namespace Branch

theorem untyped_notesAll : ∀ {bs : List Branch}, (∀ b ∈ bs, b.body.Raw) →
    Note.Untyped (notesAll bs)
  | [], _ => List.forall_mem_nil _
  | ⟨_, _, _, _⟩ :: _, h => by
    obtain ⟨hb, hbs⟩ := List.forall_mem_cons.mp h
    exact hb.untyped.append (untyped_notesAll hbs)

theorem nonEmptyAll_of_raw : ∀ {bs : List Branch}, (∀ b ∈ bs, b.body.Raw) → NonEmptyAll bs
  | [], _ => trivial
  | ⟨_, _, _, _⟩ :: _, h => by
    obtain ⟨hb, hbs⟩ := List.forall_mem_cons.mp h
    exact ⟨hb.nonEmpty, nonEmptyAll_of_raw hbs⟩

end Branch

/-! ## Expressions -/

namespace Grammar

open Cool.Parser

theorem gives_none : Gives (∀ e ∈ ·, Expr.Raw e) (pure none) :=
  gives_pure fun _ h => nomatch h

theorem gives_some {p : Parser Expr} (hp : Gives Expr.Raw p) :
    Gives (∀ e ∈ ·, e.Raw) (some <$> p) :=
  hp.map fun _ he _ he' => Option.mem_some.mp he' ▸ he

mutual

theorem gives_exprAt : ∀ n level, Gives Expr.Raw (exprAt n level)
  | 0, _ => gives_tooDeep
  | n + 1, level => by
    rw [exprAt]
    exact (gives_unary n).bind fun _ hleft => gives_operators n level hleft

theorem gives_operators : ∀ n level {left : Expr}, left.Raw →
    Gives Expr.Raw (operators n level left)
  | 0, _, _, _ => gives_tooDeep
  | n + 1, level, left, hleft => by
    rw [operators]
    refine gives_after fun token => ?_
    cases binaryOp? token.kind with
    | none => exact gives_pure hleft
    | some op =>
      refine gives_ite (gives_pure hleft) (gives_after fun _ => ?_)
      refine (gives_exprAt n (op.level + 1)).bind fun right hright => ?_
      have hnode : (Expr.binary (.untyped (left.span.through right.span)) op left right).Raw :=
        ⟨(hleft.untyped.append hright.untyped).node, hleft.nonEmpty, hright.nonEmpty⟩
      have hmore := gives_operators n level hnode
      exact gives_ite (gives_after fun _ => hmore) hmore

theorem gives_unary : ∀ n, Gives Expr.Raw (unary n)
  | 0 => gives_tooDeep
  | n + 1 => by
    rw [unary]
    refine gives_after fun start => gives_after fun _ => gives_ite ?_ ?_
    · exact (gives_exprAt n 1).bind fun _ he => gives_pure ⟨he.untyped.node, he.nonEmpty⟩
    refine gives_after fun _ => gives_ite ?_ ?_
    · exact (gives_unary n).bind fun _ he => gives_pure ⟨he.untyped.node, he.nonEmpty⟩
    refine gives_after fun _ => gives_ite ?_ ?_
    · exact (gives_unary n).bind fun _ he => gives_pure ⟨he.untyped.node, he.nonEmpty⟩
    · exact (gives_primary n).bind fun _ he => gives_dispatches n he

theorem gives_dispatches : ∀ n {receiver : Expr}, receiver.Raw →
    Gives Expr.Raw (dispatches n receiver)
  | 0, _, _ => gives_tooDeep
  | n + 1, receiver, hreceiver => by
    have hargs := gives_commaList (gives_exprAt n 0) n
    rw [dispatches]
    refine gives_after fun _ => gives_ite ?_ (gives_after fun _ => gives_ite ?_ ?_)
    · refine gives_after fun type => gives_after fun _ => gives_after fun method => ?_
      refine hargs.bind fun args hargs => gives_after fun last => gives_dispatches n ?_
      exact ⟨(hreceiver.untyped.append (Expr.untyped_notesAll hargs)).node, hreceiver.nonEmpty,
        Expr.nonEmptyAll_of_raw hargs⟩
    · refine gives_after fun method => ?_
      refine hargs.bind fun args hargs => gives_after fun last => gives_dispatches n ?_
      exact ⟨(hreceiver.untyped.append (Expr.untyped_notesAll hargs)).node, hreceiver.nonEmpty,
        Expr.nonEmptyAll_of_raw hargs⟩
    · exact gives_pure hreceiver

theorem gives_primary : ∀ n, Gives Expr.Raw (primary n)
  | 0 => gives_tooDeep
  | n + 1 => by
    have he := gives_exprAt n 0
    rw [primary]
    refine gives_after fun token => ?_
    extract_lets start item branch
    have hitem : Gives Expr.Raw item :=
      he.bind fun _ hitem => gives_after fun _ => gives_pure hitem
    have hbranch : Gives (fun b => b.body.Raw) branch := by
      refine gives_after fun first => gives_after fun name => gives_after fun _ => ?_
      refine gives_after fun type => gives_after fun _ => he.bind fun body hbody => ?_
      exact gives_after fun stop => gives_pure hbody
    -- one case for each token that an expression may start with
    split
    · exact gives_pure ⟨Note.untyped_leaf, trivial⟩
    · exact gives_pure ⟨Note.untyped_leaf, trivial⟩
    · exact gives_pure ⟨Note.untyped_leaf, trivial⟩
    · -- an assignment, a call or a variable
      refine gives_after fun _ => gives_ite ?_ (gives_after fun _ => gives_ite ?_ ?_)
      · exact he.bind fun _ hvalue => gives_pure ⟨hvalue.untyped.node, hvalue.nonEmpty⟩
      · refine (gives_commaList he n).bind fun _ hargs => gives_after fun _ => gives_pure ?_
        exact ⟨(Expr.untyped_notesAll hargs).node, Expr.nonEmptyAll_of_raw hargs⟩
      · exact gives_pure ⟨Note.untyped_leaf, trivial⟩
    · exact gives_after fun _ => gives_after fun _ => gives_pure ⟨Note.untyped_leaf, trivial⟩
    · exact he.bind fun _ hinner => gives_after fun _ => gives_pure hinner
    · refine (gives_someUntil _ hitem n).bind fun _ ⟨hne, hbody⟩ => gives_after fun _ => ?_
      exact gives_pure ⟨(Expr.untyped_notesAll hbody).node, hne, Expr.nonEmptyAll_of_raw hbody⟩
    · refine he.bind fun _ hpredicate => gives_after fun _ => ?_
      refine he.bind fun _ hthen => gives_after fun _ => ?_
      refine he.bind fun _ helse => gives_after fun _ => gives_pure ?_
      exact ⟨(hpredicate.untyped.append (hthen.untyped.append helse.untyped)).node,
        hpredicate.nonEmpty, hthen.nonEmpty, helse.nonEmpty⟩
    · refine he.bind fun _ hpredicate => gives_after fun _ => ?_
      refine he.bind fun _ hbody => gives_after fun _ => gives_pure ?_
      exact ⟨(hpredicate.untyped.append hbody.untyped).node, hpredicate.nonEmpty, hbody.nonEmpty⟩
    · exact gives_bindings n _
    · refine he.bind fun _ hscrutinee => gives_after fun _ => ?_
      refine (gives_someUntil _ hbranch n).bind fun _ ⟨hne, hbranches⟩ => gives_after fun _ => ?_
      exact gives_pure ⟨(hscrutinee.untyped.append (Branch.untyped_notesAll hbranches)).node,
        hscrutinee.nonEmpty, hne, Branch.nonEmptyAll_of_raw hbranches⟩
    · exact gives_fail _ _

theorem gives_bindings : ∀ n start, Gives Expr.Raw (bindings n start)
  | 0, _ => gives_tooDeep
  | n + 1, start => by
    rw [bindings]
    refine gives_after fun name => gives_after fun _ => gives_after fun type => ?_
    refine gives_after fun _ => ?_
    -- what comes behind the initial value, which may be missing
    extract_lets behind
    have hbehind : ∀ init, (∀ e ∈ init, e.Raw) → Gives Expr.Raw (behind init) := by
      intro init hinit
      refine gives_after fun _ => ?_
      extract_lets node
      have hnode : ∀ body, body.Raw → Gives Expr.Raw (node body) := fun body hbody =>
        gives_pure ⟨((Expr.untyped_notesInit hinit).append hbody.untyped).node,
          Expr.nonEmptyInit_of_raw hinit, hbody.nonEmpty⟩
      refine gives_ite (gives_after fun next => ?_) (gives_after fun _ => ?_)
      · exact (gives_bindings n next.span).bind hnode
      · exact (gives_exprAt n 0).bind hnode
    exact gives_ite ((gives_some (gives_exprAt n 0)).bind hbehind) (gives_none.bind hbehind)

end

theorem gives_expr : Gives Expr.Raw expr :=
  gives_withAllowance fun n => gives_exprAt n 0

/-! ## Declarations -/

theorem gives_feature : Gives Feature.Raw feature := by
  unfold feature
  refine gives_after fun first => gives_after fun name => gives_after fun _ => gives_ite ?_ ?_
  · refine gives_after fun formals => gives_after fun _ => gives_after fun type => ?_
    refine gives_after fun _ => gives_expr.bind fun body hbody => gives_after fun stop => ?_
    exact gives_pure hbody
  · refine gives_after fun _ => gives_after fun type => gives_after fun _ => ?_
    extract_lets behind
    have hbehind : ∀ init, (∀ e ∈ init, e.Raw) → Gives Feature.Raw (behind init) :=
      fun _ hinit => gives_after fun _ => gives_pure hinit
    exact gives_ite ((gives_some gives_expr).bind hbehind) (gives_none.bind hbehind)

theorem gives_classDecl (file : String) :
    Gives (fun c => ∀ f ∈ c.features, f.Raw) (classDecl file) := by
  have hitem : Gives Feature.Raw featureItem :=
    gives_feature.bind fun f hf => gives_after fun _ => gives_pure hf
  have hfeatures := gives_withAllowance (gives_manyUntil (.symbol .braceClose) hitem)
  unfold classDecl
  refine gives_after fun first => gives_after fun name => gives_after fun _ => ?_
  extract_lets behind
  have hbehind : ∀ parent, Gives (fun c => ∀ f ∈ c.features, f.Raw) (behind parent) :=
    fun _ => gives_after fun _ => hfeatures.bind fun _ hfs => gives_after fun _ => gives_pure hfs
  exact gives_ite (gives_after hbehind) (gives_after hbehind)

theorem gives_program (file : String) : Gives Program.Raw (program file) := by
  have hitem : Gives (fun c => ∀ f ∈ c.features, f.Raw) (classItem file) :=
    (gives_classDecl file).bind fun c hc => gives_after fun _ => gives_pure hc
  exact (gives_withAllowance (gives_someUntil .endOfFile hitem)).map fun _ h => h.2

end Grammar

/-! ## Sources -/

/-- A parser that is run on a text. -/
theorem Parser.Gives.of_text {α : Type} {P : α → Prop} {p : Parser α} (hp : p.Gives P)
    {text : String} {x : α} (h : (do return (← p.run (Stream.ofText text)).1) = Except.ok x) :
    P x := by
  cases hrun : p.run (Stream.ofText text) with
  | error fault =>
    rw [hrun] at h
    cases h
  | ok r =>
    rw [hrun] at h
    cases h
    exact hp _ _ _ hrun

theorem Program.raw_of_parse {file text : String} {p : Program}
    (h : Program.parse file text = .ok p) : p.Raw :=
  (Grammar.gives_program file).of_text h

theorem Program.Raw.fresh {p : Program} (h : p.Raw) : p.Fresh := by
  intro f hf
  obtain ⟨c, hc, hf⟩ := List.mem_flatMap.mp hf
  have hraw := h c hc f hf
  cases f with
  | attr a => exact Expr.untyped_notesInit hraw
  | method m => exact Expr.Raw.untyped hraw

end Cool
