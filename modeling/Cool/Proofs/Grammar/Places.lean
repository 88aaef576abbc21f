import Cool.Grammar.Program
import Cool.Proofs.Grammar.Parser
import Cool.Proofs.Token.Within
import Cool.Proofs.Tree.Places

/-!
# The places of what is read

Every span of a tree is put together from spans of tokens, and so is the span of the fault that
stops a parser. If a property of spans goes over to the span from the start of one to the end of
another, then it goes over from the tokens to the tree, or to the fault.

* `Parser.Stays` : what a parser makes of a stream with certain places;
* `Stays.bind`, `stays_commaList`, ... : the combinators;
* `Expr.LiesIn`, `Feature.LiesIn`, `ClassDecl.LiesIn` : trees with such places;
* `Grammar.stays_exprAt`, `Grammar.stays_program` : expressions and programs;
* `Program.liesIn_of_parse`, `Program.within_of_parse_error` : sources.
-/

namespace Cool

namespace Parser

variable {α β : Type} {P : Span → Prop} {R : α → Prop} {Q : β → Prop} {p : Parser α}
  {f : α → Parser β} {what : Category}

/-- On a stream with such places the parser reads something of a kind and leaves such a stream, or
its fault has such a place. -/
def Stays (P : Span → Prop) (R : α → Prop) (p : Parser α) : Prop :=
  ∀ s : Stream, s.Places P → match p s with
    | .ok (x, s') => R x ∧ s'.Places P
    | .error fault => P fault.span

theorem stays_pure {x : α} (h : R x) : Stays P R (pure x) :=
  fun _ hs => ⟨h, hs⟩

theorem stays_fail {span : Span} (error : GrammarError) (h : P span) :
    Stays P R (fail error span) :=
  fun _ _ => h

theorem Stays.bind (hp : Stays P R p) (hf : ∀ x, R x → Stays P Q (f x)) : Stays P Q (p >>= f) := by
  intro s hs
  have h := hp s hs
  cases hrun : p s with
  | error fault =>
    rw [hrun] at h
    rw [bind_of_eq_error hrun]
    exact h
  | ok r =>
    rw [hrun] at h
    rw [bind_of_eq_ok hrun]
    exact hf r.1 h.1 r.2 h.2

theorem Stays.map {g : α → β} (hp : Stays P R p) (hg : ∀ x, R x → Q (g x)) :
    Stays P Q (g <$> p) := by
  rw [map_eq_pure_bind]
  exact hp.bind fun x hx => stays_pure (hg x hx)

theorem stays_ite {c : Prop} [Decidable c] {q : Parser α} (hp : Stays P R p) (hq : Stays P R q) :
    Stays P R (if c then p else q) := by
  split
  · exact hp
  · exact hq

/-! ## Single tokens -/

theorem stays_peek : Stays P (fun token => P token.span) peek := by
  rintro ⟨tokens, ending, last⟩ hs
  cases tokens with
  | nil =>
    have hending := hs.ending
    cases ending with
    | error fault => exact hending
    | ok token => exact ⟨hending, hs⟩
  | cons token tokens => exact ⟨(List.forall_mem_cons.mp hs.ahead).1, hs⟩

theorem stays_take : Stays P (fun token => P token.span) take := by
  rintro ⟨tokens, ending, last⟩ hs
  cases tokens with
  | nil =>
    have hending := hs.ending
    cases ending with
    | error fault => exact hending
    | ok token => exact ⟨hending, hs.ahead, hending, hending⟩
  | cons token tokens =>
    obtain ⟨htoken, htokens⟩ := List.forall_mem_cons.mp hs.ahead
    exact ⟨htoken, htokens, hs.ending, htoken⟩

theorem stays_lastSpan : Stays P P lastSpan :=
  fun _ hs => ⟨hs.last, hs⟩

theorem stays_check (what : Category) : Stays P (fun _ => True) (check what) :=
  stays_peek.bind fun _ _ => stays_pure trivial

theorem stays_accept (what : Category) : Stays P (fun _ => True) (accept what) :=
  (stays_check what).bind fun _ _ =>
    stays_ite (stays_take.bind fun _ _ => stays_pure trivial) (stays_pure trivial)

theorem stays_expect (what : Category) : Stays P (fun token => P token.span) (expect what) :=
  stays_take.bind fun _ htoken => stays_ite (stays_pure htoken) (stays_fail _ htoken)

theorem stays_typeId : Stays P (fun _ => True) typeId := by
  refine stays_take.bind fun token htoken => ?_
  split
  · exact stays_pure trivial
  · exact stays_fail _ htoken

theorem stays_objectId : Stays P (fun _ => True) objectId := by
  refine stays_take.bind fun token htoken => ?_
  split
  · exact stays_pure trivial
  · exact stays_fail _ htoken

theorem stays_tooDeep : Stays P R tooDeep :=
  stays_lastSpan.bind fun _ hlast => stays_fail _ hlast

theorem stays_withAllowance {p : Nat → Parser α} (hp : ∀ n, Stays P R (p n)) :
    Stays P R (withAllowance p) :=
  fun s hs => hp _ s hs

/-! ## Repetitions -/

theorem stays_manyUntil (stop : Category) (hp : Stays P R p) (n : Nat) :
    Stays P (∀ x ∈ ·, R x) (manyUntil stop p n) := by
  induction n with
  | zero => exact stays_tooDeep
  | succ n ih =>
    refine (stays_check stop).bind fun _ _ => stays_ite (stays_pure (List.forall_mem_nil _)) ?_
    exact hp.bind fun _ hx => ih.bind fun _ hxs =>
      stays_pure (List.forall_mem_cons.mpr ⟨hx, hxs⟩)

theorem stays_someUntil (stop : Category) (hp : Stays P R p) (n : Nat) :
    Stays P (∀ x ∈ ·, R x) (someUntil stop p n) :=
  hp.bind fun _ hx => (stays_manyUntil stop hp n).bind fun _ hxs =>
    stays_pure (List.forall_mem_cons.mpr ⟨hx, hxs⟩)

theorem stays_commaItems (hp : Stays P R p) (n : Nat) :
    Stays P (∀ x ∈ ·, R x) (commaItems p n) := by
  induction n with
  | zero => exact stays_tooDeep
  | succ n ih =>
    refine (stays_accept _).bind fun _ _ => stays_ite ?_ (stays_pure (List.forall_mem_nil _))
    exact hp.bind fun _ hx => ih.bind fun _ hxs =>
      stays_pure (List.forall_mem_cons.mpr ⟨hx, hxs⟩)

theorem stays_commaList (hp : Stays P R p) (n : Nat) :
    Stays P (∀ x ∈ ·, R x) (commaList p n) := by
  unfold commaList
  refine (stays_expect _).bind fun _ _ => (stays_check _).bind fun _ _ => ?_
  extract_lets close
  have hclose : ∀ xs, (∀ x ∈ xs, R x) → Stays P (∀ x ∈ ·, R x) (close xs) :=
    fun _ hxs => (stays_expect _).bind fun _ _ => stays_pure hxs
  refine stays_ite ((stays_pure (List.forall_mem_nil _)).bind hclose) ?_
  refine hp.bind fun x hx => (stays_commaItems hp n).bind fun xs hxs => ?_
  exact (stays_pure (List.forall_mem_cons.mpr ⟨hx, hxs⟩)).bind hclose

end Parser

/-! ## Trees -/

def Expr.LiesIn (P : Span → Prop) (e : Expr) : Prop :=
  ∀ span ∈ e.places, P span

def Feature.LiesIn (P : Span → Prop) (f : Feature) : Prop :=
  (∀ span ∈ f.declaredPlaces, P span) ∧ ∀ span ∈ f.places, P span

def ClassDecl.LiesIn (P : Span → Prop) (c : ClassDecl) : Prop :=
  (∀ span ∈ c.declaredPlaces, P span) ∧ ∀ span ∈ c.places, P span

/-- The property goes over to the span from the start of one span to the end of another. -/
def Span.Closed (P : Span → Prop) : Prop :=
  ∀ a b, P a → P b → P (a.through b)

theorem Expr.LiesIn.span {P : Span → Prop} {e : Expr} (h : e.LiesIn P) : P e.span :=
  h _ e.span_mem_places

namespace Grammar

open Cool.Parser

variable {P : Span → Prop}

theorem stays_some {p : Parser Expr} (hp : Stays P (Expr.LiesIn P) p) :
    Stays P (fun init => ∀ span ∈ Expr.placesInit init, P span) (some <$> p) :=
  hp.map fun _ he => he

theorem stays_none : Stays P (fun init => ∀ span ∈ Expr.placesInit init, P span) (pure none) :=
  stays_pure (List.forall_mem_nil _)

theorem stays_noComparison : Stays P (fun _ => True) noComparison := by
  refine stays_peek.bind fun token htoken => ?_
  cases binaryOp? token.kind with
  | none => exact stays_pure trivial
  | some op => exact stays_ite (stays_fail _ htoken) (stays_pure trivial)

/-! ## Expressions -/

mutual

theorem stays_exprAt (h : Span.Closed P) : ∀ n level, Stays P (Expr.LiesIn P) (exprAt n level)
  | 0, _ => stays_tooDeep
  | n + 1, level => by
    rw [exprAt]
    exact (stays_unary h n).bind fun _ hleft => stays_operators h n level hleft

theorem stays_operators (h : Span.Closed P) : ∀ n level {left : Expr}, left.LiesIn P →
    Stays P (Expr.LiesIn P) (operators n level left)
  | 0, _, _, _ => stays_tooDeep
  | n + 1, level, left, hleft => by
    rw [operators]
    refine stays_peek.bind fun token _ => ?_
    cases binaryOp? token.kind with
    | none => exact stays_pure hleft
    | some op =>
      refine stays_ite (stays_pure hleft) (stays_take.bind fun _ _ => ?_)
      refine (stays_exprAt h n (op.level + 1)).bind fun right hright => ?_
      have hnode :
          (Expr.binary (.untyped (left.span.through right.span)) op left right).LiesIn P :=
        List.forall_mem_cons.mpr ⟨h _ _ hleft.span hright.span,
          List.forall_mem_append.mpr ⟨hleft, hright⟩⟩
      have hmore := stays_operators h n level hnode
      exact stays_ite (stays_noComparison.bind fun _ _ => hmore) hmore

theorem stays_unary (h : Span.Closed P) : ∀ n, Stays P (Expr.LiesIn P) (unary n)
  | 0 => stays_tooDeep
  | n + 1 => by
    rw [unary]
    refine stays_peek.bind fun start hstart => (stays_accept _).bind fun _ _ => stays_ite ?_ ?_
    · exact (stays_exprAt h n 1).bind fun _ he =>
        stays_pure (List.forall_mem_cons.mpr ⟨h _ _ hstart he.span, he⟩)
    refine (stays_accept _).bind fun _ _ => stays_ite ?_ ?_
    · exact (stays_unary h n).bind fun _ he =>
        stays_pure (List.forall_mem_cons.mpr ⟨h _ _ hstart he.span, he⟩)
    refine (stays_accept _).bind fun _ _ => stays_ite ?_ ?_
    · exact (stays_unary h n).bind fun _ he =>
        stays_pure (List.forall_mem_cons.mpr ⟨h _ _ hstart he.span, he⟩)
    · exact (stays_primary h n).bind fun _ he => stays_dispatches h n he

theorem stays_dispatches (h : Span.Closed P) : ∀ n {receiver : Expr}, receiver.LiesIn P →
    Stays P (Expr.LiesIn P) (dispatches n receiver)
  | 0, _, _ => stays_tooDeep
  | n + 1, receiver, hreceiver => by
    have hargs := stays_commaList (stays_exprAt h n 0) n
    rw [dispatches]
    refine (stays_accept _).bind fun _ _ => stays_ite ?_ ((stays_accept _).bind fun _ _ =>
      stays_ite ?_ ?_)
    · refine stays_typeId.bind fun type _ => (stays_expect _).bind fun _ _ => ?_
      refine stays_objectId.bind fun method _ => hargs.bind fun args hargs => ?_
      refine stays_lastSpan.bind fun last hlast => stays_dispatches h n ?_
      exact List.forall_mem_cons.mpr ⟨h _ _ hreceiver.span hlast,
        List.forall_mem_append.mpr ⟨hreceiver, Expr.forall_mem_placesAll_iff.mpr hargs⟩⟩
    · refine stays_objectId.bind fun method _ => hargs.bind fun args hargs => ?_
      refine stays_lastSpan.bind fun last hlast => stays_dispatches h n ?_
      exact List.forall_mem_cons.mpr ⟨h _ _ hreceiver.span hlast,
        List.forall_mem_append.mpr ⟨hreceiver, Expr.forall_mem_placesAll_iff.mpr hargs⟩⟩
    · exact stays_pure hreceiver

theorem stays_primary (h : Span.Closed P) : ∀ n, Stays P (Expr.LiesIn P) (primary n)
  | 0 => stays_tooDeep
  | n + 1 => by
    have he := stays_exprAt h n 0
    rw [primary]
    refine stays_take.bind fun token htoken => ?_
    extract_lets start item branch
    have hitem : Stays P (Expr.LiesIn P) item :=
      he.bind fun _ hitem => (stays_expect _).bind fun _ _ => stays_pure hitem
    have hbranch : Stays P (fun b : Branch => P b.span ∧ b.body.LiesIn P) branch := by
      refine stays_peek.bind fun first hfirst => stays_objectId.bind fun name _ => ?_
      refine (stays_expect _).bind fun _ _ => stays_typeId.bind fun type _ => ?_
      refine (stays_expect _).bind fun _ _ => he.bind fun body hbody => ?_
      exact (stays_expect _).bind fun stop hstop =>
        stays_pure ⟨h _ _ hfirst hstop, hbody⟩
    have hleaf : ∀ span, P span → ∀ place ∈ [span], P place := fun _ hspan =>
      List.forall_mem_singleton.mpr hspan
    -- one case for each token that an expression may start with
    split
    · exact stays_pure (hleaf _ htoken)
    · exact stays_pure (hleaf _ htoken)
    · exact stays_pure (hleaf _ htoken)
    · -- an assignment, a call or a variable
      refine (stays_accept _).bind fun _ _ => stays_ite ?_ ((stays_check _).bind fun _ _ =>
        stays_ite ?_ ?_)
      · exact he.bind fun _ hvalue =>
          stays_pure (List.forall_mem_cons.mpr ⟨h _ _ htoken hvalue.span, hvalue⟩)
      · refine (stays_commaList he n).bind fun _ hargs => stays_lastSpan.bind fun last hlast => ?_
        exact stays_pure (List.forall_mem_cons.mpr ⟨h _ _ htoken hlast,
          Expr.forall_mem_placesAll_iff.mpr hargs⟩)
      · exact stays_pure (hleaf _ htoken)
    · exact stays_typeId.bind fun _ _ => stays_lastSpan.bind fun _ hlast =>
        stays_pure (hleaf _ (h _ _ htoken hlast))
    · exact he.bind fun _ hinner => (stays_expect _).bind fun _ _ => stays_pure hinner
    · refine (stays_someUntil _ hitem n).bind fun _ hbody => ?_
      exact (stays_expect _).bind fun stop hstop => stays_pure (List.forall_mem_cons.mpr
        ⟨h _ _ htoken hstop, Expr.forall_mem_placesAll_iff.mpr hbody⟩)
    · refine he.bind fun _ hpredicate => (stays_expect _).bind fun _ _ => ?_
      refine he.bind fun _ hthen => (stays_expect _).bind fun _ _ => ?_
      refine he.bind fun _ helse => (stays_expect _).bind fun stop hstop => stays_pure ?_
      exact List.forall_mem_cons.mpr ⟨h _ _ htoken hstop, List.forall_mem_append.mpr
        ⟨hpredicate, List.forall_mem_append.mpr ⟨hthen, helse⟩⟩⟩
    · refine he.bind fun _ hpredicate => (stays_expect _).bind fun _ _ => ?_
      refine he.bind fun _ hbody => (stays_expect _).bind fun stop hstop => stays_pure ?_
      exact List.forall_mem_cons.mpr ⟨h _ _ htoken hstop,
        List.forall_mem_append.mpr ⟨hpredicate, hbody⟩⟩
    · exact stays_bindings h n _ htoken
    · refine he.bind fun _ hscrutinee => (stays_expect _).bind fun _ _ => ?_
      refine (stays_someUntil _ hbranch n).bind fun _ hbranches => ?_
      exact (stays_expect _).bind fun stop hstop => stays_pure (List.forall_mem_cons.mpr
        ⟨h _ _ htoken hstop, List.forall_mem_append.mpr
          ⟨hscrutinee, Branch.forall_mem_placesAll_iff.mpr hbranches⟩⟩)
    · exact stays_fail _ htoken

theorem stays_bindings (h : Span.Closed P) : ∀ n start, P start →
    Stays P (Expr.LiesIn P) (bindings n start)
  | 0, _, _ => stays_tooDeep
  | n + 1, start, hstart => by
    rw [bindings]
    refine stays_objectId.bind fun name _ => (stays_expect _).bind fun _ _ => ?_
    refine stays_typeId.bind fun type _ => (stays_accept _).bind fun _ _ => ?_
    -- what comes behind the initial value, which may be missing
    extract_lets behind
    have hbehind : ∀ init, (∀ span ∈ Expr.placesInit init, P span) →
        Stays P (Expr.LiesIn P) (behind init) := by
      intro init hinit
      refine (stays_accept _).bind fun _ _ => ?_
      extract_lets node
      have hnode : ∀ body, body.LiesIn P → Stays P (Expr.LiesIn P) (node body) :=
        fun body hbody => stays_pure (List.forall_mem_cons.mpr
          ⟨h _ _ hstart hbody.span, List.forall_mem_append.mpr ⟨hinit, hbody⟩⟩)
      refine stays_ite (stays_peek.bind fun next hnext => ?_) ((stays_expect _).bind fun _ _ => ?_)
      · exact (stays_bindings h n next.span hnext).bind hnode
      · exact (stays_exprAt h n 0).bind hnode
    exact stays_ite ((stays_some (stays_exprAt h n 0)).bind hbehind) (stays_none.bind hbehind)

end

theorem stays_expr (h : Span.Closed P) : Stays P (Expr.LiesIn P) expr :=
  stays_withAllowance fun n => stays_exprAt h n 0

/-! ## Declarations -/

theorem stays_formal (h : Span.Closed P) : Stays P (fun f : Formal => P f.span) formal := by
  refine stays_peek.bind fun first hfirst => stays_objectId.bind fun name _ => ?_
  refine (stays_expect _).bind fun _ _ => stays_typeId.bind fun type _ => ?_
  exact stays_lastSpan.bind fun last hlast => stays_pure (h _ _ hfirst hlast)

theorem stays_feature (h : Span.Closed P) : Stays P (Feature.LiesIn P) feature := by
  unfold feature
  refine stays_peek.bind fun first hfirst => stays_objectId.bind fun name _ => ?_
  refine (stays_check _).bind fun _ _ => stays_ite ?_ ?_
  · have hformals := stays_withAllowance (stays_commaList (stays_formal h))
    refine hformals.bind fun formals hformals => (stays_expect _).bind fun _ _ => ?_
    refine stays_typeId.bind fun type _ => (stays_expect _).bind fun _ _ => ?_
    refine (stays_expr h).bind fun body hbody => (stays_expect _).bind fun stop hstop => ?_
    have hspan := h _ _ hfirst hstop
    exact stays_pure ⟨List.forall_mem_cons.mpr ⟨hspan, List.forall_mem_map.mpr hformals⟩,
      List.forall_mem_cons.mpr ⟨hspan, hbody⟩⟩
  · refine (stays_expect _).bind fun _ _ => stays_typeId.bind fun type _ => ?_
    refine (stays_accept _).bind fun _ _ => ?_
    extract_lets behind
    have hbehind : ∀ init, (∀ span ∈ Expr.placesInit init, P span) →
        Stays P (Feature.LiesIn P) (behind init) := by
      refine fun init hinit => stays_lastSpan.bind fun last hlast => ?_
      have hspan := h _ _ hfirst hlast
      exact stays_pure ⟨List.forall_mem_singleton.mpr hspan,
        List.forall_mem_cons.mpr ⟨hspan, hinit⟩⟩
    exact stays_ite ((stays_some (stays_expr h)).bind hbehind) (stays_none.bind hbehind)

theorem stays_classDecl (h : Span.Closed P) (file : String) :
    Stays P (ClassDecl.LiesIn P) (classDecl file) := by
  have hitem : Stays P (Feature.LiesIn P) featureItem :=
    (stays_feature h).bind fun f hf => (stays_expect _).bind fun _ _ => stays_pure hf
  have hfeatures := stays_withAllowance (stays_manyUntil (.symbol .braceClose) hitem)
  unfold classDecl
  refine (stays_expect _).bind fun first hfirst => stays_typeId.bind fun name _ => ?_
  refine (stays_accept _).bind fun _ _ => ?_
  extract_lets behind
  have hbehind : ∀ parent, Stays P (ClassDecl.LiesIn P) (behind parent) := by
    refine fun parent => (stays_expect _).bind fun _ _ => hfeatures.bind fun features hfs => ?_
    refine (stays_expect _).bind fun stop hstop => stays_pure ⟨?_, ?_⟩
    · exact List.forall_mem_cons.mpr ⟨h _ _ hfirst hstop,
        List.forall_mem_flatMap.mpr fun f hf => (hfs f hf).1⟩
    · exact List.forall_mem_flatMap.mpr fun f hf => (hfs f hf).2
  exact stays_ite (stays_typeId.bind fun parent _ => hbehind parent)
    ((stays_pure (R := fun _ => True) trivial).bind fun parent _ => hbehind parent)

theorem stays_program (h : Span.Closed P) (file : String) :
    Stays P (fun p : Program => ∀ c ∈ p.classes, c.LiesIn P) (program file) := by
  have hitem : Stays P (ClassDecl.LiesIn P) (classItem file) :=
    (stays_classDecl h file).bind fun c hc => (stays_expect _).bind fun _ _ => stays_pure hc
  exact (stays_withAllowance (stays_someUntil .endOfFile hitem)).map fun _ hp => hp

/-- The first thing that is done to a stream is that a token is taken. -/
theorem program_withLast (file : String) (s : Stream) (last : Span) :
    program file { s with last } = program file s := by
  obtain ⟨tokens, ending, place⟩ := s
  cases tokens with
  | nil => cases ending <;> rfl
  | cons token tokens => rfl

end Grammar

/-! ## Sources -/

theorem Span.closed_within (text : List Char) : Span.Closed (Span.Within text) :=
  fun _ _ ha hb => ha.through hb

variable {file text : String} {p : Program} {fault : Fault}

/-- The places of a program that is read, and that of the fault if none is, lie in the text. -/
theorem Program.stays_parse (file text : String) :
    match Program.parse file text with
    | .ok p => ∀ c ∈ p.classes, c.LiesIn (Span.Within text.toList)
    | .error fault => fault.span.Within text.toList := by
  have h := Grammar.stays_program (Span.closed_within text.toList) file _
    (Stream.places_ofText text .zero)
  rw [Grammar.program_withLast] at h
  cases hrun : Grammar.program file (Stream.ofText text) with
  | error fault =>
    rw [hrun] at h
    rw [Program.parse, StateT.run, hrun]
    exact h
  | ok r =>
    rw [hrun] at h
    rw [Program.parse, StateT.run, hrun]
    exact h.1

theorem Program.liesIn_of_parse (h : Program.parse file text = .ok p) :
    ∀ c ∈ p.classes, c.LiesIn (Span.Within text.toList) := by
  have hstays := Program.stays_parse file text
  rw [h] at hstays
  exact hstays

theorem Program.within_of_parse_error (h : Program.parse file text = .error fault) :
    fault.span.Within text.toList := by
  have hstays := Program.stays_parse file text
  rw [h] at hstays
  exact hstays

end Cool
