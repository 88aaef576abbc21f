import Cool.Proofs.Grammar.Parser
import Cool.Proofs.Grammar.Tokens
import Cool.Proofs.Token.Joined
import Cool.Proofs.Tree.Moved

/-!
# Parsers on tokens at other places

What a parser reads in a stream, it reads in any stream in which the same tokens come at other
places and are followed by further ones: the same tree, at the other places. Because a parser looks
no further than the next token, it is enough that it leaves a token in the first stream.

* `Move`, `Stream.moved` : other places, with further tokens behind;
* `Parser.Moves` : a parser gives the same on streams that are moved;
* `Moves.bind`, `moves_expect`, `moves_commaList`, ... : single tokens, sequences and repetitions;
* `Grammar.moves_exprAt`, `Grammar.moves_classDecl` : expressions and declarations.
-/

namespace Cool

/-- How the tokens of one stream stand in another. -/
structure Move where
  /-- Where a place of the first is in the second. -/
  place : Span → Span
  through : ∀ a b : Span, place (a.through b) = (place a).through (place b)
  /-- The tokens of the second behind those of the first. -/
  more : List Token
  ending : Except Fault Token

/-- The stream in the other one. -/
def Stream.moved (m : Move) (s : Stream) : Stream :=
  ⟨s.ahead.map (Token.mapSpan m.place) ++ m.more, m.ending, m.place s.last⟩

theorem Token.kind_mapSpan (f : Span → Span) (t : Token) : (t.mapSpan f).kind = t.kind := rfl

namespace Parser

variable {α β γ δ : Type} {m : Move} {g : α → β} {h : γ → δ} {p : Parser α} {q : Parser β}
  {f : α → Parser γ} {f' : β → Parser δ}

/-- What the first parser gives and leaves, the second gives and leaves in the other stream, if the
first leaves any token. -/
def Moves (m : Move) (g : α → β) (p : Parser α) (q : Parser β) : Prop :=
  ∀ s x s', p s = .ok (x, s') → s'.ahead <:+ s.ahead ∧ s'.ending = s.ending ∧
    (s'.ahead ≠ [] → q (s.moved m) = .ok (g x, s'.moved m))

/-! ## Sequences -/

theorem moves_pure {x : α} {y : β} (hx : g x = y) : Moves m g (pure x) (pure y) := by
  intro s x' s' hx'
  cases hx'
  exact ⟨List.suffix_rfl, rfl, fun _ => hx ▸ rfl⟩

theorem moves_fail {error : GrammarError} {span : Span} : Moves m g (fail error span) q := by
  intro s x s' hx
  cases hx

theorem moves_fail_bind {error : GrammarError} {span : Span} {q : Parser δ} :
    Moves m h (fail error span >>= f) q := by
  intro s x s' hx
  cases hx

theorem ne_nil_of_suffix {α : Type} {xs ys : List α} (hsuffix : xs <:+ ys) (h : xs ≠ []) :
    ys ≠ [] := by
  rintro rfl
  exact h (List.suffix_nil.mp hsuffix)

theorem Moves.bind (hp : Moves m g p q) (hf : ∀ x, Moves m h (f x) (f' (g x))) :
    Moves m h (p >>= f) (q >>= f') := by
  intro s y s' hy
  obtain ⟨x, s'', hx, hrest⟩ := exists_of_bind hy
  obtain ⟨hahead, hending, hq⟩ := hp s x s'' hx
  obtain ⟨hahead', hending', hf'⟩ := hf x s'' y s' hrest
  refine ⟨hahead'.trans hahead, hending'.trans hending, fun hne => ?_⟩
  rw [bind_of_eq_ok (hq (ne_nil_of_suffix hahead' hne)), hf' hne]

theorem Moves.map {k : α → γ} {k' : β → δ} (hp : Moves m g p q) (hk : ∀ x, h (k x) = k' (g x)) :
    Moves m h (k <$> p) (k' <$> q) := by
  rw [map_eq_pure_bind, map_eq_pure_bind]
  exact hp.bind fun x => moves_pure (hk x)

theorem moves_ite {c : Prop} [Decidable c] {p' : Parser α} {q' : Parser β} (hp : Moves m g p q)
    (hp' : Moves m g p' q') : Moves m g (if c then p else p') (if c then q else q') := by
  split
  · exact hp
  · exact hp'

/-- The allowance only grows. -/
theorem moves_withAllowance {p : Nat → Parser α} {q : Nat → Parser β}
    (hp : ∀ n k, Moves m g (p n) (q (n + k))) : Moves m g (withAllowance p) (withAllowance q) := by
  intro s x s' hx
  have hlength : 8 * ((s.moved m).ahead.length + 1) =
      8 * (s.ahead.length + 1) + 8 * m.more.length := by
    rw [Stream.moved, List.length_append, List.length_map]
    omega
  rw [withAllowance, hlength]
  exact hp _ _ s x s' hx

/-! ## Single tokens -/

theorem moves_lastSpan {f : Span → Parser γ} {f' : Span → Parser δ}
    (hf : ∀ span, Moves m h (f span) (f' (m.place span))) :
    Moves m h (lastSpan >>= f) (lastSpan >>= f') :=
  fun s => hf s.last s

theorem moves_tooDeep : Moves m g tooDeep q := by
  intro s x s' hx
  cases hx

section Tokens

variable {what : Category} {f : Token → Parser γ} {f' : Token → Parser δ} {a b : Parser γ}
  {a' b' : Parser δ}

theorem moves_peek (hf : ∀ token, Moves m h (f token) (f' (token.mapSpan m.place))) :
    Moves m h (peek >>= f) (peek >>= f') := by
  refine Moves.bind (g := Token.mapSpan m.place) (fun s token s' htoken => ?_) hf
  obtain rfl := stream_of_peek htoken
  refine ⟨List.suffix_rfl, rfl, fun hne => ?_⟩
  obtain ⟨first, ahead, hahead⟩ := List.exists_cons_of_ne_nil hne
  rw [peek, hahead] at htoken
  cases htoken
  rw [peek, Stream.moved, hahead]
  rfl

theorem moves_take (hf : ∀ token, Moves m h (f token) (f' (token.mapSpan m.place))) :
    Moves m h (take >>= f) (take >>= f') := by
  refine Moves.bind (g := Token.mapSpan m.place) (fun s token s' htoken => ?_) hf
  rw [take] at htoken
  split at htoken
  · rename_i first ahead hahead
    cases htoken
    rw [take, Stream.moved, hahead]
    exact ⟨List.suffix_cons _ _, rfl, fun _ => rfl⟩
  · rename_i hahead
    cases hending : s.ending with
    | error fault =>
      rw [hending] at htoken
      cases htoken
    | ok eof =>
      rw [hending] at htoken
      cases htoken
      exact ⟨List.suffix_rfl, rfl, fun hne => absurd hahead hne⟩

theorem moves_check {f : Bool → Parser γ} {f' : Bool → Parser δ}
    (hf : ∀ found, Moves m h (f found) (f' found)) :
    Moves m h (check what >>= f) (check what >>= f') := by
  rw [check, bind_assoc, bind_assoc]
  exact moves_peek fun token => hf _

theorem moves_accept (ha : Moves m h a a') (hb : Moves m h b b') :
    Moves m h (accept what >>= fun found => if found = true then a else b)
      (accept what >>= fun found => if found = true then a' else b') := by
  rw [accept_bind, accept_bind]
  exact moves_check fun found => moves_ite (moves_take fun _ => ha) hb

theorem moves_expect (hf : ∀ token, Moves m h (f token) (f' (token.mapSpan m.place))) :
    Moves m h (expect what >>= f) (expect what >>= f') := by
  rw [expect, bind_assoc, bind_assoc]
  refine moves_take fun token => ?_
  rw [Token.kind_mapSpan]
  split
  · exact hf token
  · exact moves_fail_bind

theorem moves_typeId {f : String → Parser γ} {f' : String → Parser δ}
    (hf : ∀ name, Moves m h (f name) (f' name)) :
    Moves m h (typeId >>= f) (typeId >>= f') := by
  rw [typeId, bind_assoc, bind_assoc]
  refine moves_take fun token => ?_
  rw [Token.kind_mapSpan]
  cases hkind : token.kind with
  | typeId name => exact hf name
  | _ => exact moves_fail_bind

theorem moves_objectId {f : String → Parser γ} {f' : String → Parser δ}
    (hf : ∀ name, Moves m h (f name) (f' name)) :
    Moves m h (objectId >>= f) (objectId >>= f') := by
  rw [objectId, bind_assoc, bind_assoc]
  refine moves_take fun token => ?_
  rw [Token.kind_mapSpan]
  cases hkind : token.kind with
  | objectId name => exact hf name
  | _ => exact moves_fail_bind

end Tokens

/-! ## Repetitions -/

section Repetitions

variable {stop : Category}

theorem moves_manyUntil (hp : Moves m g p q) (n k : Nat) :
    Moves m (List.map g) (manyUntil stop p n) (manyUntil stop q (n + k)) := by
  induction n with
  | zero => exact moves_tooDeep
  | succ n ih =>
    rw [Nat.add_right_comm, manyUntil, manyUntil]
    refine moves_check fun found => moves_ite (moves_pure rfl) ?_
    exact hp.bind fun x => ih.bind fun xs => moves_pure rfl

theorem moves_someUntil (hp : Moves m g p q) (n k : Nat) :
    Moves m (List.map g) (someUntil stop p n) (someUntil stop q (n + k)) := by
  rw [someUntil, someUntil]
  exact hp.bind fun x => (moves_manyUntil hp n k).bind fun xs => moves_pure rfl

theorem moves_commaItems (hp : Moves m g p q) (n k : Nat) :
    Moves m (List.map g) (commaItems p n) (commaItems q (n + k)) := by
  induction n with
  | zero => exact moves_tooDeep
  | succ n ih =>
    rw [Nat.add_right_comm, commaItems, commaItems]
    refine moves_accept ?_ (moves_pure rfl)
    exact hp.bind fun x => ih.bind fun xs => moves_pure rfl

theorem moves_commaList (hp : Moves m g p q) (n k : Nat) :
    Moves m (List.map g) (commaList p n) (commaList q (n + k)) := by
  unfold commaList
  refine moves_expect fun _ => moves_check fun found => ?_
  -- both branches go on to the parenthesis that closes
  extract_lets close close'
  have hclose : ∀ xs, Moves m (List.map g) (close xs) (close' (xs.map g)) :=
    fun xs => moves_expect fun _ => moves_pure rfl
  refine moves_ite (hclose []) ?_
  exact hp.bind fun x => (moves_commaItems hp n k).bind fun xs => hclose (x :: xs)

end Repetitions

end Parser

/-! ## Expressions -/

namespace Grammar

open Cool.Parser

variable {m : Move} {α : Type} {f f' : Option Expr → Parser α} {g : α → α}

theorem moves_noComparison {f f' : Unit → Parser α} (hf : ∀ u, Moves m g (f u) (f' u)) :
    Moves m g (noComparison >>= f) (noComparison >>= f') := by
  rw [noComparison, bind_assoc, bind_assoc]
  refine moves_peek fun token => ?_
  rw [Token.kind_mapSpan]
  cases binaryOp? token.kind with
  | none => exact hf ()
  | some op =>
    dsimp only
    split
    · exact moves_fail_bind
    · exact hf ()

/-- An initial value, if there is one. -/
theorem moves_init {p q : Parser Expr} (hp : Moves m (Expr.mapSpans m.place) p q)
    (hf : ∀ init, Moves m g (f init) (f' (Expr.mapSpansInit m.place init))) :
    Moves m g
      (accept (.symbol .assign) >>= fun found =>
        if found = true then (some <$> p) >>= f else pure none >>= f)
      (accept (.symbol .assign) >>= fun found =>
        if found = true then (some <$> q) >>= f' else pure none >>= f') := by
  refine moves_accept ?_ (hf none)
  exact (hp.map (h := Expr.mapSpansInit m.place) fun _ => rfl).bind hf

mutual

theorem moves_exprAt : ∀ n k level,
    Moves m (Expr.mapSpans m.place) (exprAt n level) (exprAt (n + k) level)
  | 0, _, _ => moves_tooDeep
  | n + 1, k, level => by
    rw [Nat.add_right_comm, exprAt, exprAt]
    exact (moves_unary n k).bind fun left => moves_operators n k level left

theorem moves_operators : ∀ n k level left, Moves m (Expr.mapSpans m.place)
    (operators n level left) (operators (n + k) level (left.mapSpans m.place))
  | 0, _, _, _ => moves_tooDeep
  | n + 1, k, level, left => by
    rw [Nat.add_right_comm, operators, operators]
    refine moves_peek fun token => ?_
    rw [Token.kind_mapSpan]
    cases binaryOp? token.kind with
    | none => exact moves_pure rfl
    | some op =>
      refine moves_ite (moves_pure rfl) (moves_take fun _ => ?_)
      refine (moves_exprAt n k (op.level + 1)).bind fun right => ?_
      have hmore := moves_operators n k level
        (.binary (.untyped (left.span.through right.span)) op left right)
      rw [Expr.mapSpans, Note.mapSpan_untyped, m.through] at hmore
      rw [Expr.span_mapSpans, Expr.span_mapSpans]
      exact moves_ite (moves_noComparison fun _ => hmore) hmore

theorem moves_unary : ∀ n k, Moves m (Expr.mapSpans m.place) (unary n) (unary (n + k))
  | 0, _ => moves_tooDeep
  | n + 1, k => by
    rw [Nat.add_right_comm, unary, unary]
    refine moves_peek fun start => ?_
    refine moves_accept ?_ (moves_accept ?_ (moves_accept ?_ ?_))
    · refine (moves_exprAt n k 1).bind fun operand => moves_pure ?_
      simp [Note.mapSpan_untyped, m.through, Token.mapSpan]
    · refine (moves_unary n k).bind fun operand => moves_pure ?_
      simp [Note.mapSpan_untyped, m.through, Token.mapSpan]
    · refine (moves_unary n k).bind fun operand => moves_pure ?_
      simp [Note.mapSpan_untyped, m.through, Token.mapSpan]
    · exact (moves_primary n k).bind fun receiver => moves_dispatches n k receiver

theorem moves_dispatches : ∀ n k receiver, Moves m (Expr.mapSpans m.place)
    (dispatches n receiver) (dispatches (n + k) (receiver.mapSpans m.place))
  | 0, _, _ => moves_tooDeep
  | n + 1, k, receiver => by
    have hargs := moves_commaList (moves_exprAt n k 0) n k
    rw [Nat.add_right_comm, dispatches, dispatches]
    refine moves_accept ?_ (moves_accept ?_ (moves_pure rfl))
    · refine moves_typeId fun type => moves_expect fun _ => moves_objectId fun method => ?_
      refine hargs.bind fun args => moves_lastSpan fun last => ?_
      have hmore := moves_dispatches n k
        (.staticDispatch (.untyped (receiver.span.through last)) receiver type method args)
      rw [Expr.mapSpans, Note.mapSpan_untyped, m.through, Expr.mapSpansAll_eq] at hmore
      rw [Expr.span_mapSpans]
      exact hmore
    · refine moves_objectId fun method => hargs.bind fun args => moves_lastSpan fun last => ?_
      have hmore := moves_dispatches n k
        (.dispatch (.untyped (receiver.span.through last)) receiver method args)
      rw [Expr.mapSpans, Note.mapSpan_untyped, m.through, Expr.mapSpansAll_eq] at hmore
      rw [Expr.span_mapSpans]
      exact hmore

theorem moves_primary : ∀ n k, Moves m (Expr.mapSpans m.place) (primary n) (primary (n + k))
  | 0, _ => moves_tooDeep
  | n + 1, k => by
    have he := @moves_exprAt n k 0
    rw [Nat.add_right_comm, primary, primary]
    refine moves_take fun token => ?_
    rw [Token.kind_mapSpan]
    extract_lets start item branch start' item' branch'
    have hstart : start' = m.place start := rfl
    have hitem : Moves m (Expr.mapSpans m.place) item item' :=
      he.bind fun e => moves_expect fun _ => moves_pure rfl
    have hbranch : Moves m (Branch.mapSpans m.place) branch branch' := by
      refine moves_peek fun first => moves_objectId fun name => moves_expect fun _ => ?_
      refine moves_typeId fun type => moves_expect fun _ => he.bind fun body => ?_
      refine moves_expect fun stop => moves_pure ?_
      simp [Branch.mapSpans, m.through, Token.mapSpan]
    generalize token.kind = kind
    -- one case for each token that an expression may start with
    split
    · exact moves_pure rfl
    · exact moves_pure rfl
    · exact moves_pure rfl
    · -- an assignment, a call or a variable
      refine moves_accept ?_ (moves_check fun found => moves_ite ?_ (moves_pure rfl))
      · refine he.bind fun value => moves_pure ?_
        simp [Note.mapSpan_untyped, m.through, hstart]
      · refine (moves_commaList he n k).bind fun args => moves_lastSpan fun last => moves_pure ?_
        simp [Note.mapSpan_untyped, m.through, hstart, Expr.mapSpansAll_eq]
    · refine moves_typeId fun type => moves_lastSpan fun last => moves_pure ?_
      simp [Note.mapSpan_untyped, m.through, hstart]
    · exact he.bind fun inner => moves_expect fun _ => moves_pure rfl
    · refine (moves_someUntil hitem n k).bind fun body => moves_expect fun stop => moves_pure ?_
      simp [Note.mapSpan_untyped, m.through, hstart, Expr.mapSpansAll_eq, Token.mapSpan]
    · refine he.bind fun predicate => moves_expect fun _ => he.bind fun thenBranch => ?_
      refine moves_expect fun _ => he.bind fun elseBranch => moves_expect fun stop => moves_pure ?_
      simp [Note.mapSpan_untyped, m.through, hstart, Token.mapSpan]
    · refine he.bind fun predicate => moves_expect fun _ => he.bind fun body => ?_
      refine moves_expect fun stop => moves_pure ?_
      simp [Note.mapSpan_untyped, m.through, hstart, Token.mapSpan]
    · exact moves_bindings n k start
    · refine he.bind fun scrutinee => moves_expect fun _ => ?_
      refine (moves_someUntil hbranch n k).bind fun branches => ?_
      refine moves_expect fun stop => moves_pure ?_
      simp [Note.mapSpan_untyped, m.through, hstart, Branch.mapSpansAll_eq, Token.mapSpan]
    · exact moves_fail

theorem moves_bindings : ∀ n k start, Moves m (Expr.mapSpans m.place)
    (bindings n start) (bindings (n + k) (m.place start))
  | 0, _, _ => moves_tooDeep
  | n + 1, k, start => by
    rw [Nat.add_right_comm, bindings, bindings]
    refine moves_objectId fun name => moves_expect fun _ => moves_typeId fun type => ?_
    extract_lets behind behind'
    refine moves_init (moves_exprAt n k 0) fun init => ?_
    refine moves_accept (moves_peek fun next => ?_) (moves_expect fun _ => ?_)
    · refine (moves_bindings n k next.span).bind fun body => moves_pure ?_
      simp [Note.mapSpan_untyped, m.through]
    · refine (moves_exprAt n k 0).bind fun body => moves_pure ?_
      simp [Note.mapSpan_untyped, m.through]

end

theorem moves_expr : Moves m (Expr.mapSpans m.place) expr expr :=
  moves_withAllowance fun n k => moves_exprAt n k 0

/-! ## Declarations -/

theorem moves_formal : Moves m (Formal.mapSpans m.place) formal formal := by
  unfold formal
  refine moves_peek fun first => moves_objectId fun name => moves_expect fun _ => ?_
  refine moves_typeId fun type => moves_lastSpan fun last => moves_pure ?_
  simp [Formal.mapSpans, m.through, Token.mapSpan]

theorem moves_feature : Moves m (Feature.mapSpans m.place) feature feature := by
  unfold feature
  refine moves_peek fun first => moves_objectId fun name => moves_check fun found => ?_
  refine moves_ite ?_ ?_
  · refine (moves_withAllowance (moves_commaList moves_formal)).bind fun formals => ?_
    refine moves_expect fun _ => moves_typeId fun type => moves_expect fun _ => ?_
    refine moves_expr.bind fun body => moves_expect fun stop => moves_pure ?_
    simp [Feature.mapSpans, m.through, Token.mapSpan]
  · refine moves_expect fun _ => moves_typeId fun type => ?_
    extract_lets behind behind'
    refine moves_init moves_expr fun init => moves_lastSpan fun last => moves_pure ?_
    simp [Feature.mapSpans, m.through, Token.mapSpan]

theorem moves_featureItem : Moves m (Feature.mapSpans m.place) featureItem featureItem :=
  moves_feature.bind fun _ => moves_expect fun _ => moves_pure rfl

/-- A declaration may come in another file as well. -/
theorem moves_classDecl (file file' : String) :
    Moves m (fun c => (c.mapSpans m.place).inFile file') (classDecl file) (classDecl file') := by
  unfold classDecl
  refine moves_expect fun first => moves_typeId fun name => ?_
  extract_lets behind behind'
  have hbehind : ∀ parent, Moves m (fun c => (c.mapSpans m.place).inFile file')
      (behind parent) (behind' parent) := by
    intro parent
    refine moves_expect fun _ => ?_
    refine (moves_withAllowance (moves_manyUntil moves_featureItem)).bind fun features => ?_
    refine moves_expect fun stop => moves_pure ?_
    simp [ClassDecl.mapSpans, ClassDecl.inFile, m.through, Token.mapSpan]
  exact moves_accept (moves_typeId hbehind) (hbehind Names.object)

end Grammar

end Cool
