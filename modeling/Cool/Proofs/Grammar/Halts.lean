import Cool.Proofs.Grammar.Descent
import Cool.Proofs.Grammar.Tokens
import Cool.Proofs.Token.Within

/-!
# Every source is parsed to an end

The allowance that the grammar starts with is never used up, and it is not what bounds the parser:
a loop takes a token in every turn, and so does a routine before it comes back to itself. The calls
of a whole run are a tree that descends, and so no more than a constant times the number of tokens.

* `Traced.descends_exprAt`, `Traced.descends_expr` : expressions;
* `Traced.descends_feature`, `Traced.descends_classDecl`, `Traced.descends_program` : declarations;
* `Stream.lexed_ofText` : the tokens of a text;
* `Traced.Halts`, `Traced.parse_halts` : sources.
-/

namespace Cool

namespace Traced

open Cool.Parser (peek expect typeId objectId)
open Cool.Parser (Consumes consumes_peek consumes_take consumes_check consumes_accept
  consumes_expect consumes_typeId consumes_objectId consumes_lastSpan consumes_fail consumes_pure)
open Cool.Grammar (noComparison binaryOp?)

variable {α : Type} {m d r : Nat}

theorem consumes_noComparison : Consumes 0 noComparison := by
  refine consumes_peek.bind (d := 0) fun token => ?_
  cases binaryOp? token.kind with
  | none => exact consumes_pure ()
  | some op =>
    dsimp only
    split
    · exact consumes_fail (by simp) _
    · exact consumes_pure ()

/-- A branch starts with a name, and its body behind that. -/
theorem descends_branch {body : Traced Expr} (hbody : ∀ k < m, Descends k 1 5 body) :
    Descends m 1 r (do
      let first ← peek
      let name ← objectId
      let _ ← expect (.symbol .colon)
      let type ← typeId
      let _ ← expect (.symbol .arrow)
      let body ← body
      let stop ← expect (.symbol .semicolon)
      return Branch.mk name type body (first.span.through stop.span)) := by
  refine descends_liftM_bind consumes_peek fun first => ?_
  refine descends_liftM_bind_taken consumes_objectId fun name k hk => ?_
  refine descends_expect (by decide) fun _ => descends_liftM_bind consumes_typeId fun type => ?_
  refine descends_expect (by decide) fun _ => (hbody k (by omega)).bind fun body => ?_
  exact descends_expect (by decide) fun stop => descends_pure _

mutual

/-- The recursion is on the allowance, which is enough for three steps from each token to the next
one: down the chain, to the place where it is taken. -/
theorem descends_exprAt : ∀ n level {m r : Nat}, 3 * m + 3 ≤ n → 3 < r →
    Descends m 1 r (exprAt n level)
  | 0, _, _, _, hn, _ => by omega
  | n + 1, level, m, r, hn, hr => by
    rw [exprAt]
    refine descends_enter hr fun k hk => ?_
    refine (descends_unary n (by omega) (Nat.lt_succ_self 2)).bind_taken fun left j hj => ?_
    exact descends_operators n level left (by omega)

theorem descends_operators : ∀ n level left {m : Nat}, 3 * m + 4 ≤ n →
    Descends m 0 5 (operators n level left)
  | 0, _, _, _, hn => by omega
  | n + 1, level, left, m, hn => by
    rw [operators]
    refine descends_liftM_bind consumes_peek fun token => ?_
    cases binaryOp? token.kind with
    | none => exact descends_pure left
    | some op =>
      refine descends_ite (descends_pure left) (Descends.zero ?_)
      refine (descends_turn fun k hk => ?_).bind_taken fun right j hj =>
        descends_operators n level _ (by omega)
      refine descends_liftM_bind consumes_take fun _ => ?_
      refine (descends_exprAt n (op.level + 1) (by omega) (Nat.lt_succ_self 3)).bind_taken
        fun right j hj => ?_
      extract_lets done
      have hdone : ∀ u, Descends j 0 5 (done u) := fun _ => descends_pure right
      exact descends_ite ((descends_liftM consumes_noComparison).bind hdone) (hdone ())

theorem descends_unary : ∀ n {m r : Nat}, 3 * m + 2 ≤ n → 2 < r → Descends m 1 r (unary n)
  | 0, _, _, hn, _ => by omega
  | n + 1, m, r, hn, hr => by
    rw [unary]
    refine descends_enter hr fun k hk => descends_liftM_bind consumes_peek fun start => ?_
    refine descends_accept (by decide) (fun j hj => ?_) ?_
    · exact (descends_exprAt n 1 (by omega) (by decide)).bind fun operand => descends_pure _
    refine descends_accept (by decide) (fun j hj => ?_) ?_
    · exact (descends_unary n (by omega) (by decide)).bind fun operand => descends_pure _
    refine descends_accept (by decide) (fun j hj => ?_) ?_
    · exact (descends_unary n (by omega) (by decide)).bind fun operand => descends_pure _
    refine descends_enter (Nat.lt_succ_self 1) fun j hj => ?_
    refine (descends_primary n (by omega) Nat.zero_lt_one).bind_taken fun receiver i hi => ?_
    exact descends_dispatches n receiver (by omega)

theorem descends_dispatches : ∀ n receiver {m : Nat}, 3 * m + 1 ≤ n →
    Descends m 0 5 (dispatches n receiver)
  | 0, _, _, hn => by omega
  | n + 1, receiver, m, hn => by
    have hargs : ∀ k < m, Descends k 1 5 (commaList .arguments (exprAt n 0) n) := fun k hk =>
      descends_commaList (fun j hj => descends_exprAt n 0 (by omega) (by decide)) (by omega)
    rw [dispatches]
    refine descends_liftM_bind (consumes_check _) fun found => descends_ite ?_ ?_
    · refine Descends.zero ?_
      refine (descends_turn fun k hk => ?_).bind_taken fun next j hj =>
        descends_dispatches n next (by omega)
      refine descends_liftM_bind consumes_take fun _ => ?_
      refine descends_liftM_bind_taken consumes_typeId fun type j hj => ?_
      refine descends_expect (by decide) fun _ => ?_
      refine descends_liftM_bind consumes_objectId fun method => ?_
      refine (hargs j (by omega)).bind fun args => ?_
      exact descends_liftM_bind consumes_lastSpan fun last => descends_pure _
    refine descends_liftM_bind (consumes_check _) fun found => descends_ite ?_ (descends_pure _)
    · refine Descends.zero ?_
      refine (descends_turn fun k hk => ?_).bind_taken fun next j hj =>
        descends_dispatches n next (by omega)
      refine descends_liftM_bind consumes_take fun _ => ?_
      refine descends_liftM_bind_taken consumes_objectId fun method j hj => ?_
      refine (hargs j (by omega)).bind fun args => ?_
      exact descends_liftM_bind consumes_lastSpan fun last => descends_pure _

/-- Behind its first token, anything may follow. -/
theorem descends_primary : ∀ n {m r : Nat}, 3 * m + 1 ≤ n → 0 < r → Descends m 1 r (primary n)
  | 0, _, _, hn, _ => by omega
  | n + 1, m, r, hn, hr => by
    have hexpr {k : Nat} (hk : k < m) (r : Nat) (hr : 3 < r) : Descends k 1 r (exprAt n 0) :=
      descends_exprAt n 0 (by omega) hr
    rw [primary]
    refine descends_enter hr fun k hk => descends_take (fun token j hj => ?_) fun token hkind => ?_
    · dsimp only
      have hargs : Descends j 1 5 (commaList .arguments (exprAt n 0) n) :=
        descends_commaList (fun i hi => hexpr (by omega) 4 (by decide)) (by omega)
      have he : Descends j 1 5 (exprAt n 0) := hexpr (by omega) 5 (by decide)
      split
      · exact descends_pure _
      · exact descends_pure _
      · exact descends_pure _
      · refine descends_liftM_bind (consumes_accept _) fun found => descends_ite ?_ ?_
        · exact he.bind fun value => descends_pure _
        refine descends_liftM_bind (consumes_check _) fun found => descends_ite ?_ ?_
        · exact hargs.bind fun args => descends_liftM_bind consumes_lastSpan fun last =>
            descends_pure _
        · exact descends_pure _
      · exact descends_liftM_bind consumes_typeId fun type =>
          descends_liftM_bind consumes_lastSpan fun last => descends_pure _
      · exact he.bind fun inner => descends_expect (by decide) fun _ =>
          descends_pure inner
      · refine (descends_someUntil (fun i hi => ?_) (by omega)).bind fun body => ?_
        · exact descends_item_expect (hexpr (by omega) 4 (by decide)) (by decide)
        exact descends_expect (by decide) fun stop => descends_pure _
      · refine he.bind fun predicate => descends_expect (by decide) fun _ => ?_
        refine he.bind fun thenBranch => descends_expect (by decide) fun _ => ?_
        exact he.bind fun elseBranch => descends_expect (by decide) fun stop => descends_pure _
      · refine he.bind fun predicate => descends_expect (by decide) fun _ => ?_
        exact he.bind fun body => descends_expect (by decide) fun stop => descends_pure _
      · exact (descends_bindings n token.span (by omega)).zero
      · refine he.bind fun scrutinee => descends_expect (by decide) fun _ => ?_
        refine (descends_someUntil (fun i hi => ?_) (by omega)).bind fun branches => ?_
        · exact descends_branch fun l hl => hexpr (by omega) 5 (by decide)
        exact descends_expect (by decide) fun stop => descends_pure _
      · exact descends_liftM (consumes_fail (by simp) _)
    · rw [hkind]
      exact descends_liftM (consumes_fail (by simp) _)

theorem descends_bindings : ∀ n start {m : Nat}, 3 * m + 1 ≤ n → Descends m 1 5 (bindings n start)
  | 0, _, _, hn => by omega
  | n + 1, start, m, hn => by
    rw [bindings]
    refine descends_enter (Nat.lt_succ_self 4) fun k hk => ?_
    refine descends_liftM_bind_taken consumes_objectId fun name j hj => ?_
    have he : Descends j 1 5 (exprAt n 0) := descends_exprAt n 0 (by omega) (by decide)
    refine descends_expect (by decide) fun _ => ?_
    refine descends_liftM_bind consumes_typeId fun type => ?_
    extract_lets behind
    have hbehind : ∀ init, Descends j 0 5 (behind init) := by
      intro init
      refine descends_liftM_bind (consumes_accept _) fun found => ?_
      extract_lets done
      have hdone : ∀ body, Descends j 0 5 (done body) := fun body => descends_pure _
      refine descends_ite ?_ ?_
      · refine descends_liftM_bind consumes_peek fun next => ?_
        exact (descends_bindings n next.span (by omega)).bind hdone
      · exact descends_expect (by decide) fun _ => he.bind hdone
    refine descends_liftM_bind (consumes_accept _) fun found => descends_ite ?_ ?_
    · exact he.map.bind hbehind
    · exact (descends_pure none).bind hbehind

end

theorem descends_expr (hr : 3 < r) : Descends m 1 r expr :=
  descends_withAllowance fun k _ => descends_exprAt _ 0 (by omega) hr

/-! ## Programs -/

theorem consumes_formal : Consumes 1 Grammar.formal := by
  have hformal : Consumes 3 Grammar.formal :=
    consumes_peek.bind fun first => consumes_objectId.bind fun name =>
      (consumes_expect (by decide)).bind fun _ => consumes_typeId.bind fun type =>
        consumes_lastSpan.bind fun last => consumes_pure _
  exact hformal.mono (by decide)

theorem descends_feature : Descends m 1 4 feature := by
  refine descends_liftM_bind consumes_peek fun first => ?_
  refine descends_liftM_bind_taken consumes_objectId fun name k hk => ?_
  refine descends_liftM_bind (consumes_check _) fun found => descends_ite ?_ ?_
  · have hformals : Descends k 1 5 (withAllowance (commaList .formals Grammar.formal)) :=
      descends_withAllowance fun j _ =>
        descends_commaList (fun i _ => descends_liftM consumes_formal) (by omega)
    refine hformals.bind fun formals => ?_
    refine descends_expect (by decide) fun _ => ?_
    refine descends_liftM_bind consumes_typeId fun returnType => ?_
    refine descends_expect (by decide) fun _ => ?_
    refine (descends_expr (by decide)).bind fun body => ?_
    exact descends_expect (by decide) fun stop => descends_pure _
  · refine descends_expect (by decide) fun _ => ?_
    refine descends_liftM_bind consumes_typeId fun type => ?_
    extract_lets behind
    have hbehind : ∀ init, Descends k 0 5 (behind init) := fun init =>
      descends_liftM_bind consumes_lastSpan fun last => descends_pure _
    refine descends_liftM_bind (consumes_accept _) fun found => descends_ite ?_ ?_
    · exact (descends_expr (by decide)).map.bind hbehind
    · exact (descends_pure none).bind hbehind

theorem descends_classDecl (file : String) : Descends m 1 4 (classDecl file) := by
  have hitem (k : Nat) : Descends k 1 4 featureItem :=
    descends_item_expect descends_feature (by decide)
  unfold classDecl
  refine descends_liftM_bind_taken (consumes_expect (by decide)) fun first k hk => ?_
  refine descends_liftM_bind consumes_typeId fun name => ?_
  extract_lets behind
  have hbehind : ∀ parent, Descends k 0 5 (behind parent) := by
    intro parent
    refine descends_expect (by decide) fun _ => ?_
    have hfeatures : Descends k 0 5
        (withAllowance (manyUntil .features (.symbol .braceClose) featureItem)) :=
      descends_withAllowance fun j _ => descends_manyUntil (fun i _ => hitem i) (by omega)
    refine hfeatures.bind fun features => ?_
    exact descends_expect (by decide) fun stop => descends_pure _
  refine descends_liftM_bind (consumes_accept _) fun found => descends_ite ?_ ?_
  · exact descends_liftM_bind consumes_typeId hbehind
  · exact (descends_pure Names.object).bind hbehind

theorem descends_program (file : String) : Descends m 0 5 (program file) := by
  have hitem (k : Nat) : Descends k 1 4 (classItem file) :=
    descends_item_expect (descends_classDecl file) (by decide)
  exact (descends_withAllowance fun k _ => descends_someUntil (fun j _ => hitem j) (by omega)).map

end Traced

/-! ## Sources -/

/-- The faults of a text are those of its tokens. -/
theorem Cursor.lexical_of_mem_results {cursor : Cursor} {fault : Fault}
    (h : .error fault ∈ cursor.results.1) : ∃ error span, fault = .lexical error span := by
  fun_induction Cursor.results cursor with
  | case1 => cases h
  | case2 cursor c s hrest lexeme hlt more last hmore ih =>
    rw [hmore] at ih
    rcases List.mem_cons.mp h with h | h
    · unfold Cursor.read at h
      cases houtcome : lexeme.outcome with
      | error error =>
        rw [houtcome] at h
        cases h
        exact ⟨_, _, rfl⟩
      | ok kind =>
        rw [houtcome] at h
        cases h
    · exact ih h

theorem Stream.lexed_ofText (text : String) : (Stream.ofText text).Lexed where
  tokens := Stream.kind_ne_endOfFile text
  ended := Stream.kind_ending_ofText text
  fault := by
    rintro fault hfault ⟨span, rfl⟩
    obtain ⟨error, span', h⟩ := Cursor.lexical_of_mem_results (mem_of_cut_eq_error hfault)
    cases h

theorem Program.parse_eq_map (file text : String) :
    Program.parse file text = (Grammar.program file (Stream.ofText text)).map Prod.fst := by
  rw [Program.parse, StateT.run]
  cases Grammar.program file (Stream.ofText text) <;> rfl

theorem Expr.parse_eq_map (text : String) :
    Expr.parse text = (Grammar.expr (Stream.ofText text)).map Prod.fst := by
  rw [Expr.parse, StateT.run]
  cases Grammar.expr (Stream.ofText text) <;> rfl

namespace Traced

/-- A run on a text comes to an outcome, which is a value or a fault of the text. Each turn of a
loop and each call that returns has taken a token; a call that is made inside of another one starts
with fewer tokens left, or further down the chain. There are no more than five turns and calls for
each token and for the end. -/
structure Halts (text : String) (outcome : Except Fault α) (o : Recorded α) : Prop where
  result : o.result.map Prod.fst = outcome
  outcome : (∃ x, outcome = .ok x) ∨ ∃ fault, outcome = .error fault ∧ ¬ fault.Exhausts
  descends : ∀ c ∈ o.calls, c.Descends
  row : CallTree.Row (Stream.ofText text).ahead.length o.calls o.rest
  count : CallTree.countAll o.calls ≤ 5 * ((Stream.ofText text).ahead.length + 1)

theorem Descends.halts {p : Traced α} {text : String}
    (hp : Descends (Stream.ofText text).ahead.length d 5 p) :
    Halts text ((forget p (Stream.ofText text)).map Prod.fst) (p (Stream.ofText text)) := by
  obtain ⟨hcalls, -, hrow, hresult⟩ := hp _ (Stream.lexed_ofText text) (Nat.le_refl _)
  refine ⟨rfl, ?_, hcalls, hrow, CallTree.countAll_le hrow hcalls⟩
  unfold forget
  cases hrun : (p (Stream.ofText text)).result with
  | ok out => exact Or.inl ⟨out.1, rfl⟩
  | error fault =>
    rw [hrun] at hresult
    exact Or.inr ⟨fault, rfl, hresult⟩

/-- Every source is parsed to an end, as a program and as an expression, and to a value or to a
fault of its own. The end of the text is not among the tokens that turns and calls have to take,
although it can be taken any number of times. Nothing is missing from the records: that of a program
has a turn for each class, and that of an expression is its call. -/
theorem parse_halts (file text : String) :
    (∀ token ∈ (Stream.ofText text).ahead, token.kind ≠ .endOfFile) ∧
      (∀ eof last, Parser.take ⟨[], .ok eof, last⟩ = .ok (eof, ⟨[], .ok eof, eof.span⟩)) ∧
      Halts text (Program.parse file text) (program file (Stream.ofText text)) ∧
      (∀ p, Program.parse file text = .ok p →
        (program file (Stream.ofText text)).calls.length = p.classes.length) ∧
      Halts text (Expr.parse text) (expr (Stream.ofText text)) ∧
      ∃ rest inner, (expr (Stream.ofText text)).calls =
        [.node (.call .expression) (Stream.ofText text).ahead.length rest inner] := by
  have hprogram : Halts text (Program.parse file text) (program file (Stream.ofText text)) := by
    rw [Program.parse_eq_map, ← forget_program]
    exact (descends_program file).halts
  have hexpr : Halts text (Expr.parse text) (expr (Stream.ofText text)) := by
    rw [Expr.parse_eq_map, ← forget_expr]
    exact (descends_expr (by decide)).halts
  refine ⟨Stream.kind_ne_endOfFile text, fun _ _ => rfl, hprogram, fun p hp => ?_, hexpr,
    exists_calls_expr _⟩
  have hrun := hprogram.result.trans hp
  cases hresult : (program file (Stream.ofText text)).result with
  | error fault =>
    rw [hresult] at hrun
    cases hrun
  | ok out =>
    rw [hresult] at hrun
    cases hrun
    exact length_calls_program hresult

/-- Four calls at the parenthesis, at the name and at the end, where an operand is missing, and one
turn at the operator. -/
example : CallTree.countAll (expr (Stream.ofText "(x +")).calls = 13 := by decide +kernel

end Traced

end Cool
