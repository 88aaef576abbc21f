import Cool.Grammar.Program
import Cool.Proofs.Grammar.Reaches
import Cool.Proofs.Grammar.Tokens
import Cool.Proofs.Token.Tiling

/-!
# Spans nest like the tree that is read

Every node is read from the start of one token to the end of another, and what is below it is read
in between, in the order of the source. So the spans of a program nest like its tree.

* `Grammar.reaches_exprAt` : expressions, from wherever they are read;
* `Grammar.reaches_feature`, `Grammar.reaches_classDecl`, `Grammar.reaches_program` : declarations;
* `Stream.ordered_ofText` : the tokens of a text;
* `Program.nests_of_parse` : sources.
-/

namespace Cool

namespace Grammar

open Cool.Parser SpanTree

variable {α : Type} {T : Span → Prop} {last : Span} {next : Option Token} {lo : Nat}

/-- Looking for a comparison takes nothing. -/
theorem reaches_noComparison {R : Span → α → Prop} {p : Parser α} (hp : Reaches T last R p) :
    Reaches T last R (noComparison >>= fun _ => p) := by
  have hlook : Reaches T last (fun mid _ => mid = last) noComparison := by
    have hdone : Reaches T last (fun mid _ => mid = last) (return ()) := reaches_pure rfl
    refine reaches_peek (fun token _ => ?_) fun token hkind => ?_
    · cases binaryOp? token.kind with
      | none => exact hdone _
      | some op => exact reachesAt_ite (reaches_fail _ _ _) (hdone _)
    · rw [hkind]
      exact hdone none
  refine hlook.bind fun mid _ _ hmid => ?_
  rw [hmid]
  exact hp

/-! ## Expressions -/

/-- From a place on, the parser gives an expression. -/
abbrev ReachesExpr (T : Span → Prop) (lo : Nat) (last : Span) (p : Parser Expr) : Prop :=
  Reaches T last (fun mid e => Row (Span.Bounded T) lo mid.stop [e.spanTree]) p

/-- A node that ends where its last part does. -/
theorem row_upTo {ts : List SpanTree} {start : Span} {e : Expr} {hi : Nat}
    (hstart : start.Bounded T) (hlo : lo ≤ start.start)
    (h : Row (Span.Bounded T) start.stop hi (ts ++ [e.spanTree])) :
    Row (Span.Bounded T) lo hi [.node (start.through e.span) (ts ++ [e.spanTree])] := by
  have he : e.spanTree ∈ ts ++ [e.spanTree] := List.mem_append_right ts List.mem_cons_self
  have hstop := (h.inside _ he).2
  have hbounded := (h.nests _ he).span
  rw [← e.span_spanTree]
  exact (Row.node hstart hbounded hlo h.upTo).mono (Nat.le_refl lo) hstop

/-- A token and the operand behind it. -/
theorem row_operand {token : Token} {e : Expr} {hi : Nat} (htoken : token.Behind T last)
    (he : Row (Span.Bounded T) token.span.stop hi [e.spanTree]) :
    Row (Span.Bounded T) last.stop hi [.node (token.span.through e.span) [e.spanTree]] :=
  row_upTo htoken.bounded htoken.behind (show Row _ _ _ ([] ++ [e.spanTree]) from he)

/-- An operation goes from the start of one operand to the end of the other. -/
theorem row_operation {left right : Expr} {mid hi : Nat}
    (hleft : Row (Span.Bounded T) lo mid [left.spanTree])
    (hright : Row (Span.Bounded T) mid hi [right.spanTree]) :
    Row (Span.Bounded T) lo hi
      [.node (left.span.through right.span) [left.spanTree, right.spanTree]] := by
  obtain ⟨-, hnests, -, hstop⟩ := Row.singleton_iff.mp hright
  have htight : Row (Span.Bounded T) mid right.spanTree.stop ([] ++ [right.spanTree]) := hright.upTo
  rw [← left.span_spanTree, ← right.span_spanTree]
  exact (Row.nodeFrom hnests.span hleft htight).mono (Nat.le_refl lo) hstop

/-- A call ends with its arguments. -/
theorem row_call {receiver : Expr} {args : List Expr} {mid stop : Span}
    (hreceiver : Row (Span.Bounded T) lo mid.stop [receiver.spanTree]) (hstop : stop.Bounded T)
    (hargs : Row (Span.Bounded T) mid.stop stop.stop (args.map Expr.spanTree)) :
    Row (Span.Bounded T) lo stop.stop
      [.node (receiver.span.through stop) (receiver.spanTree :: Expr.spanTrees args)] := by
  rw [← receiver.span_spanTree, Expr.spanTrees_eq_map]
  exact Row.nodeFrom hstop hreceiver hargs

/-- There are no bindings behind the end of the text. -/
theorem reachesAt_bindings_none (n : Nat) (start : Span) :
    ReachesAt T none last (fun _ _ => False) (bindings n start) := by
  cases n with
  | zero => exact reaches_tooDeep none
  | succ n =>
    rw [bindings]
    exact reachesAt_objectId fun _ _ h _ => absurd h.symm (Option.some_ne_none _)

mutual

/-- The recursion is on the allowance, which all of these parsers hand down. Those that go on from
an expression find it in a row that starts at `lo`, where its first token may be far behind. -/
theorem reaches_exprAt : ∀ n level, ReachesItem T Expr.spanTree (exprAt n level)
  | 0, _, _ => reaches_tooDeep
  | n + 1, level, last => by
    rw [exprAt]
    exact (reaches_unary n last).bind fun mid left _ hleft => reaches_operators n level hleft

theorem reaches_operators : ∀ n level {left : Expr} {last : Span} {lo : Nat},
    Row (Span.Bounded T) lo last.stop [left.spanTree] →
      ReachesExpr T lo last (operators n level left)
  | 0, _, _, _, _, _ => reaches_tooDeep
  | n + 1, level, left, last, lo, hleft => by
    have hdone : ReachesExpr T lo last (return left) := reaches_pure hleft
    rw [operators]
    refine reaches_peek (fun token _ => ?_) fun token hkind => ?_
    · cases binaryOp? token.kind with
      | none => exact hdone _
      | some op =>
        refine reachesAt_ite (hdone _) (reachesAt_take_some fun htoken => ?_)
        refine (reaches_exprAt n (op.level + 1) token.span).bind fun mid right _ hright => ?_
        have hnode : Row (Span.Bounded T) lo mid.stop
            [(Expr.binary (.untyped (left.span.through right.span)) op left right).spanTree] :=
          row_operation hleft (htoken.row hright)
        have hmore := reaches_operators n level hnode
        exact reaches_ite (reaches_noComparison hmore) hmore
    · rw [hkind]
      exact hdone none

theorem reaches_unary : ∀ n, ReachesItem T Expr.spanTree (unary n)
  | 0, _ => reaches_tooDeep
  | n + 1, last => by
    rw [unary]
    refine reaches_peek_any fun start next hnext => ?_
    refine reachesAt_accept (by decide) (fun token htoken hbehind => ?_)
      (reachesAt_accept (by decide) (fun token htoken hbehind => ?_)
      (reachesAt_accept (by decide) (fun token htoken hbehind => ?_) ?_))
    · obtain rfl := hnext token htoken
      exact (reaches_exprAt n 1 token.span).bind fun mid e _ he =>
        reaches_pure (row_operand hbehind he)
    · obtain rfl := hnext token htoken
      exact (reaches_unary n token.span).bind fun mid e _ he =>
        reaches_pure (row_operand hbehind he)
    · obtain rfl := hnext token htoken
      exact (reaches_unary n token.span).bind fun mid e _ he =>
        reaches_pure (row_operand hbehind he)
    · exact (reaches_primary n last next).bind fun mid e _ he => reaches_dispatches n he

theorem reaches_dispatches : ∀ n {receiver : Expr} {last : Span} {lo : Nat},
    Row (Span.Bounded T) lo last.stop [receiver.spanTree] →
      ReachesExpr T lo last (dispatches n receiver)
  | 0, _, _, _, _ => reaches_tooDeep
  | n + 1, receiver, last, lo, hreceiver => by
    intro next
    rw [dispatches]
    refine reachesAt_accept (by decide) (fun token _ htoken next => ?_)
      (reachesAt_accept (by decide) (fun token _ htoken next => ?_) (reaches_pure hreceiver next))
    · refine reachesAt_typeId fun type _ _ htype next => ?_
      refine reachesAt_expect (by decide) fun dot _ hdot next => ?_
      refine reachesAt_objectId fun name _ _ hname next => ?_
      refine (reaches_commaList (reaches_exprAt n 0) n _ next).bind fun mid args hmid hargs => ?_
      refine reaches_lastSpan (reaches_dispatches n ?_)
      exact row_call hreceiver (hmid.bounded hname.bounded)
        (htoken.row (htype.row (hdot.row (hname.row hargs))))
    · refine reachesAt_objectId fun name _ _ hname next => ?_
      refine (reaches_commaList (reaches_exprAt n 0) n _ next).bind fun mid args hmid hargs => ?_
      refine reaches_lastSpan (reaches_dispatches n ?_)
      exact row_call hreceiver (hmid.bounded hname.bounded) (htoken.row (hname.row hargs))

theorem reaches_primary : ∀ n, ReachesItem T Expr.spanTree (primary n)
  | 0, _ => reaches_tooDeep
  | n + 1, last => by
    intro next
    rw [primary]
    refine reachesAt_take (fun token _ htoken => ?_) fun token s r hkind => ?_
    · extract_lets start item branch
      have he : ReachesItem T Expr.spanTree (exprAt n 0) := reaches_exprAt n 0
      have hitem : ReachesItem T Expr.spanTree item := reaches_item_expect he (by decide)
      have hbranch : ReachesItem T Branch.spanTree branch := by
        intro mid
        refine reaches_peek_objectId fun first name hfirst next => ?_
        refine reachesAt_expect (by decide) fun colon _ hcolon next => ?_
        refine reachesAt_typeId fun type _ _ htype next => ?_
        refine reachesAt_expect (by decide) fun arrow _ harrow => ?_
        refine (he arrow.span).bind fun _ body _ hbody next => ?_
        refine reachesAt_expect (by decide) fun stop _ hstop => reaches_pure ?_
        exact .node hfirst.bounded hstop.bounded hfirst.behind
          (hcolon.row (htype.row (harrow.row (hstop.close hbody))))
      have hleaf : Row (Span.Bounded T) last.stop token.span.stop [.node token.span []] :=
        .leaf htoken.bounded htoken.behind
      -- one case for each token that an expression may start with
      split
      · exact reaches_pure hleaf
      · exact reaches_pure hleaf
      · exact reaches_pure hleaf
      · -- an assignment, a call or a variable
        intro next
        refine reachesAt_accept (by decide) (fun sign _ hsign => ?_) (reachesAt_check fun found =>
          reachesAt_ite ?_ (reaches_pure hleaf next))
        · exact (he sign.span).bind fun _ value _ hvalue =>
            reaches_pure (row_operand htoken (hsign.row hvalue))
        · refine (reaches_commaList he n _ next).bind fun mid args hmid hargs => ?_
          rw [← Expr.spanTrees_eq_map] at hargs
          exact reaches_lastSpan (reaches_pure
            (Row.node htoken.bounded (hmid.bounded htoken.bounded) htoken.behind hargs))
      · intro next
        refine reachesAt_typeId fun type _ _ htype => reaches_lastSpan (reaches_pure ?_)
        exact .node htoken.bounded htype.bounded htoken.behind (.nil htype.le)
      · exact (he token.span).bind fun _ inner _ hinner next => reachesAt_expect (by decide)
          fun stop _ hstop => reaches_pure (hstop.close (htoken.row hinner))
      · refine (reaches_someUntil hitem n _).bind fun _ body _ hbody next => ?_
        rw [← Expr.spanTrees_eq_map] at hbody
        exact reachesAt_expect (by decide) fun stop _ hstop => reaches_pure
          (Row.node htoken.bounded hstop.bounded htoken.behind (hstop.close hbody))
      · refine (he token.span).bind fun _ predicate _ hpredicate next => ?_
        refine reachesAt_expect (by decide) fun thenKw _ hthen => ?_
        refine (he thenKw.span).bind fun _ thenBranch _ hthenBranch next => ?_
        refine reachesAt_expect (by decide) fun elseKw _ helse => ?_
        refine (he elseKw.span).bind fun _ elseBranch _ helseBranch next => ?_
        refine reachesAt_expect (by decide) fun stop _ hstop => reaches_pure ?_
        exact .node htoken.bounded hstop.bounded htoken.behind (hpredicate.append
          (hthen.row (hthenBranch.append (helse.row (hstop.close helseBranch)))))
      · refine (he token.span).bind fun _ predicate _ hpredicate next => ?_
        refine reachesAt_expect (by decide) fun loopKw _ hloop => ?_
        refine (he loopKw.span).bind fun _ body _ hbody next => ?_
        refine reachesAt_expect (by decide) fun stop _ hstop => reaches_pure ?_
        exact .node htoken.bounded hstop.bounded htoken.behind
          (hpredicate.append (hloop.row (hstop.close hbody)))
      · intro next
        exact reaches_bindings n htoken.bounded htoken.behind fun _ _ hname => hname.le
      · refine (he token.span).bind fun _ scrutinee _ hscrutinee next => ?_
        refine reachesAt_expect (by decide) fun ofKw _ hof => ?_
        refine (reaches_someUntil hbranch n _).bind fun _ branches _ hbranches next => ?_
        rw [← Branch.spanTrees_eq_map] at hbranches
        refine reachesAt_expect (by decide) fun stop _ hstop => reaches_pure ?_
        exact .node htoken.bounded hstop.bounded htoken.behind
          (hscrutinee.append (hof.row (hstop.close hbranches)))
      · exact reaches_fail _ _
    · rw [hkind]
      intro h
      cases h

/-- A `let` starts with its keyword, and each further binding with its own name. -/
theorem reaches_bindings : ∀ n {start last : Span} {next : Option Token} {lo : Nat},
    start.Bounded T → lo ≤ start.start →
      (∀ token, next = some token → token.Behind T last → start.stop ≤ token.span.stop) →
        ReachesAt T next last (fun mid e => Row (Span.Bounded T) lo mid.stop [e.spanTree])
          (bindings n start)
  | 0, _, _, _, _, _, _, _ => reaches_tooDeep _
  | n + 1, start, last, next, lo, hstart, hlo, hname => by
    rw [bindings]
    refine reachesAt_objectId fun name first hnext hfirst next => ?_
    have hbehind := hname first hnext hfirst
    refine reachesAt_expect (by decide) fun colon _ hcolon next => ?_
    refine reachesAt_typeId fun type last _ htype next => ?_
    -- what comes behind the initial value, which may be missing
    extract_lets behind
    have hmore : ∀ mid init, Row (Span.Bounded T) start.stop mid.stop (Expr.initSpanTrees init) →
        ReachesExpr T lo mid (behind init) := by
      intro mid init hinit next
      have hnode : ∀ mid' body,
          Row (Span.Bounded T) mid.stop mid'.stop [body.spanTree] → ReachesExpr T lo mid'
            (return .letIn (.untyped (start.through body.span)) name type init body) :=
        fun _ _ hbody => reaches_pure (row_upTo hstart hlo (hinit.append hbody))
      refine reachesAt_accept (by decide) (fun comma _ hcomma => ?_) ?_
      · refine reaches_peek (fun first hfirst => ?_) fun first _ => ?_
        · have hname (token : Token) (htoken : some first = some token)
              (_ : token.Behind T comma.span) : first.span.stop ≤ token.span.stop := by
            rw [Option.some.inj htoken]
          exact (reaches_bindings n hfirst.bounded hfirst.behind hname).bind
            fun mid' body _ hbody => hnode mid' body (hcomma.row hbody)
        · exact (reachesAt_bindings_none n first.span).bind fun _ _ _ h => h.elim
      · refine reachesAt_expect (by decide) fun inKw _ hin => ?_
        refine (reaches_exprAt n 0 inKw.span).bind fun mid' body _ hbody => ?_
        exact hnode mid' body (hin.row hbody)
    have hstop : start.stop ≤ last.span.stop :=
      Nat.le_trans hbehind (Nat.le_trans hcolon.le htype.le)
    refine reachesAt_accept (by decide) (fun sign _ hsign => ?_) ?_
    · rw [map_eq_pure_bind, bind_assoc]
      refine (reaches_exprAt n 0 sign.span).bind fun mid e _ he => ?_
      rw [pure_bind]
      exact hmore mid (some e) ((hsign.row he).mono hstop (Nat.le_refl _))
    · rw [pure_bind]
      exact hmore last.span none (.nil hstop) next

end

theorem reaches_expr : ReachesItem T Expr.spanTree expr := fun last =>
  reaches_withAllowance fun n => reaches_exprAt n 0 last

/-! ## Declarations -/

theorem reaches_formal : ReachesItem T Formal.spanTree formal := by
  intro last
  refine reaches_peek_objectId fun first name hfirst next => ?_
  refine reachesAt_expect (by decide) fun colon _ hcolon next => ?_
  refine reachesAt_typeId fun type stop _ hstop => reaches_lastSpan (reaches_pure ?_)
  exact .node hfirst.bounded hstop.bounded hfirst.behind (hcolon.row (.nil hstop.le))

theorem reaches_feature : ReachesItem T Feature.spanTree feature := by
  intro last
  unfold feature
  refine reaches_peek_objectId fun first name hfirst next => ?_
  refine reachesAt_check fun found => reachesAt_ite ?_ ?_
  · have hformals : ReachesRow T Formal.spanTree first.span (withAllowance (commaList formal)) :=
      reaches_withAllowance fun n => reaches_commaList reaches_formal n first.span
    refine (hformals next).bind fun mid formals _ hformals next => ?_
    refine reachesAt_expect (by decide) fun colon _ hcolon next => ?_
    refine reachesAt_typeId fun type last _ htype next => ?_
    refine reachesAt_expect (by decide) fun brace _ hbrace => ?_
    refine (reaches_expr brace.span).bind fun _ body _ hbody next => ?_
    refine reachesAt_expect (by decide) fun stop _ hstop => reaches_pure ?_
    exact .node hfirst.bounded hstop.bounded hfirst.behind
      (hformals.append (hcolon.row (htype.row (hbrace.row (hstop.close hbody)))))
  · refine reachesAt_expect (by decide) fun colon _ hcolon next => ?_
    refine reachesAt_typeId fun type token _ htype next => ?_
    extract_lets behind
    have hbehind : ∀ mid init, token.span.Advances T mid →
        Row (Span.Bounded T) token.span.stop mid.stop (Expr.initSpanTrees init) →
        Reaches T mid (fun mid' f => Row (Span.Bounded T) last.stop mid'.stop [f.spanTree])
          (behind init) := by
      intro mid init hmid hinit
      refine reaches_lastSpan (reaches_pure ?_)
      exact .node hfirst.bounded (hmid.bounded htype.bounded) hfirst.behind
        (hcolon.row (htype.row hinit))
    refine reachesAt_accept (by decide) (fun sign _ hsign => ?_) ?_
    · rw [map_eq_pure_bind, bind_assoc]
      refine (reaches_expr sign.span).bind fun mid e hmid he => ?_
      rw [pure_bind]
      exact hbehind mid (some e) ((Span.Advances.of_behind hsign).trans hmid) (hsign.row he)
    · rw [pure_bind]
      exact hbehind token.span none .refl (.nil (Nat.le_refl _)) next

theorem reaches_classDecl (file : String) : ReachesItem T ClassDecl.spanTree (classDecl file) := by
  have hitem : ReachesItem T Feature.spanTree featureItem :=
    reaches_item_expect reaches_feature (by decide)
  intro last next
  unfold classDecl
  refine reachesAt_expect (by decide) fun first _ hfirst next => ?_
  refine reachesAt_typeId fun name token _ hname next => ?_
  extract_lets behind
  have hbehind : ∀ mid parent, first.span.stop ≤ mid.stop →
      Reaches T mid (fun mid' c => Row (Span.Bounded T) last.stop mid'.stop [c.spanTree])
        (behind parent) := by
    intro mid parent hmid next
    refine reachesAt_expect (by decide) fun brace _ hbrace => ?_
    refine (reaches_withAllowance fun n => reaches_manyUntil hitem n brace.span).bind
      fun _ features _ hfeatures next => ?_
    refine reachesAt_expect (by decide) fun stop _ hstop => reaches_pure ?_
    exact .node hfirst.bounded hstop.bounded hfirst.behind
      ((hbrace.row (hstop.close hfeatures)).mono hmid (Nat.le_refl _))
  refine reachesAt_accept (by decide) (fun inherits _ hinherits next => ?_) ?_
  · refine reachesAt_typeId fun parent token' _ hparent => hbehind _ parent ?_
    exact Nat.le_trans hname.le (Nat.le_trans hinherits.le hparent.le)
  · rw [pure_bind]
    exact hbehind _ _ hname.le next

/-- The classes of a program lie in a row. -/
theorem reaches_program (file : String) (last : Span) :
    Reaches T last (fun mid p => Row (Span.Bounded T) last.stop mid.stop
      (p.classes.map ClassDecl.spanTree)) (program file) := by
  have hitem : ReachesItem T ClassDecl.spanTree (classItem file) :=
    reaches_item_expect (reaches_classDecl file) (by decide)
  exact (reaches_withAllowance fun n => reaches_someUntil hitem n last).map fun _ _ h => h

end Grammar

/-! ## Sources -/

/-- The tokens of a text without faults lie one behind the other. -/
theorem Stream.ordered_ofText {text : String} {eof : Token}
    (h : (Stream.ofText text).ending = .ok eof) :
    (Stream.ofText text).Ordered fun span => ∃ token ∈ (Stream.ofText text).ahead,
      token.span = span ∧ span.line = (Lines.ofText text.toList).lineOf span.start := by
  have htiling := (Cursor.tiled_results _ _ (Cursor.behind_ofText text.toList)).1.tiling
  have hfound : (results text).1 = (Stream.ofText text).ahead.map .ok := eq_map_of_cut_eq_ok h
  have hmem : ∀ token ∈ (Stream.ofText text).ahead, Except.ok token ∈ (results text).1 :=
    fun token => mem_of_mem_cut
  refine ⟨Stream.kind_ending_ofText text, fun token htoken => ?_, ?_, fun _ _ => Nat.zero_le _⟩
  · have hline := htiling.lines _ (hmem token htoken)
    exact .of_token ⟨token, htoken, rfl, hline⟩ (htiling.nonempty _ (hmem token htoken))
  · have hordered : (results text).1.Pairwise fun r r' => (placeOf r).stop ≤ (placeOf r').start :=
      htiling.ordered
    rw [hfound, List.pairwise_map] at hordered
    exact hordered

variable {file text : String} {p : Program}

/-- The spans of a program that is read nest like its tree. Each of them is not empty, goes from the
start of a token to the end of one, and has the line of its start; it contains the spans of what it
is made of, and these lie one behind the other, as do those of the classes. -/
theorem Program.nests_of_parse (h : Program.parse file text = .ok p) :
    ∃ tokens eof, tokenize text = .ok (tokens ++ [eof]) ∧ eof.kind = .endOfFile ∧
      (p.classes.map ClassDecl.spanTree).Pairwise (fun c d => c.stop ≤ d.start) ∧
      ∀ c ∈ p.classes, c.spanTree.Nests fun span => span.start < span.stop ∧
        (∃ token ∈ tokens, token.span.start = span.start) ∧
        (∃ token ∈ tokens, token.span.stop = span.stop) ∧
        span.line = (Lines.ofText text.toList).lineOf span.start := by
  obtain ⟨eof, hending, heof, -⟩ := Program.written_ahead_of_parse h
  refine ⟨_, eof, tokenize_of_ending hending, heof, ?_⟩
  cases hrun : Grammar.program file (Stream.ofText text) with
  | error fault =>
    rw [Program.parse, StateT.run, hrun] at h
    cases h
  | ok r =>
    rw [Program.parse, StateT.run, hrun] at h
    cases h
    obtain ⟨-, -, hrow⟩ := Grammar.reaches_program file _ _ _ r.1 r.2
      (Stream.ordered_ofText hending) rfl rfl hrun
    refine ⟨hrow.ordered, fun c hc => ?_⟩
    refine (hrow.nests _ (List.mem_map_of_mem hc)).imp fun span hspan => ?_
    obtain ⟨first, ⟨token, htoken, rfl, hline⟩, hstart, hfirst⟩ := hspan.start
    obtain ⟨last, ⟨token', htoken', rfl, -⟩, hstop⟩ := hspan.stop
    refine ⟨hspan.nonempty, ⟨token, htoken, hstart⟩, ⟨token', htoken', hstop⟩, ?_⟩
    rw [← hfirst, ← hstart, hline]

/-- A text with parentheses, calls, and a `let` of two names inside a `case`. -/
def Sample.nested : String :=
  "class A \x7b f(x : Int, y : A) : Int \x7b case (x) of z : Int =>\n" ++
    "let a : Int <- (1), b : Int in (a + b) * y.f(1, (y)); esac \x7d; g : A <- (new A); \x7d;"

theorem Program.nests_of_parse_nested :
    ∃ p, Program.parse "a.cl" Sample.nested = .ok p ∧ ∃ tokens eof,
      tokenize Sample.nested = .ok (tokens ++ [eof]) ∧ eof.kind = .endOfFile ∧
      (p.classes.map ClassDecl.spanTree).Pairwise (fun c d => c.stop ≤ d.start) ∧
      ∀ c ∈ p.classes, c.spanTree.Nests fun span => span.start < span.stop ∧
        (∃ token ∈ tokens, token.span.start = span.start) ∧
        (∃ token ∈ tokens, token.span.stop = span.stop) ∧
        span.line = (Lines.ofText Sample.nested.toList).lineOf span.start := by
  cases h : Program.parse "a.cl" Sample.nested with
  | error fault =>
    have hok : (Program.parse "a.cl" Sample.nested).isOk = true := by decide +kernel
    rw [h] at hok
    cases hok
  | ok p => exact ⟨p, rfl, Program.nests_of_parse h⟩

end Cool
