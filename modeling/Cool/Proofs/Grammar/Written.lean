import Cool.Proofs.Grammar.Takes
import Cool.Proofs.Token.Spelled
import Cool.Proofs.Tree.Written

/-!
# The tokens that are read

What is read is written in the tokens that are taken: none is passed over, and none is taken for
another one.

* `Grammar.takes_exprAt` : expressions;
* `Grammar.takes_feature`, `Grammar.takes_classDecl`, `Grammar.takes_program` : declarations.
-/

namespace Cool

namespace Grammar

open Cool.Parser

variable {α : Type} {R : List Kind → α → Prop}

/-- Related to the tokens without their parentheses. -/
def Bare (R : List Kind → α → Prop) (ks : List Kind) (x : α) : Prop :=
  R (Kind.bare ks) x

theorem binaryOp?_eq_some {k : Kind} {op : BinaryOp} (h : binaryOp? k = some op) :
    k = .symbol op.sign := by
  unfold binaryOp? at h
  split at h <;> cases h <;> rfl

theorem bare_sign (op : BinaryOp) (ks : List Kind) :
    Kind.bare (.symbol op.sign :: ks) = .symbol op.sign :: Kind.bare ks := by
  cases op <;> rfl

theorem takes_noComparison : Takes (fun ks _ => ks = []) noComparison := by
  unfold noComparison
  refine takes_peek fun token => Takes.at ?_
  cases binaryOp? token.kind with
  | none => exact takes_pure rfl
  | some op => exact takes_ite (takes_fail _ _) (takes_pure rfl)

theorem takes_args {p : Parser Expr} (hp : Takes (Bare Expr.Written) p) (n : Nat) :
    Takes (Bare fun ks args => ∃ kss, ks = Kind.commas kss ∧ List.Forall₂ Expr.Written kss args)
      (commaList p n) := by
  refine (takes_commaList hp n).imp fun ks args ⟨kss, hks, hargs⟩ => ?_
  exact ⟨kss.map Kind.bare, by rw [hks, Kind.bare_commaList], List.forall₂_map_left_iff.mpr hargs⟩

/-- Items with a semicolon behind each. -/
theorem exists_bare_semicolonList {ks : List Kind} {xs : List α}
    (h : ∃ kss, ks = Kind.semicolonList kss ∧ List.Forall₂ (Bare R) kss xs) :
    ∃ kss, Kind.bare ks = Kind.semicolonList kss ∧ List.Forall₂ R kss xs := by
  obtain ⟨kss, hks, hxs⟩ := h
  exact ⟨kss.map Kind.bare, by rw [hks, Kind.bare_semicolonList], List.forall₂_map_left_iff.mpr hxs⟩

/-- An initial value, if there is one. -/
theorem takes_init {p : Parser Expr} {f : Option Expr → Parser α}
    (hp : Takes (Bare Expr.Written) p)
    (hf : ∀ ks init, Bare Expr.InitWritten ks init → Takes (fun ks' => R (ks ++ ks')) (f init)) :
    Takes R (accept (.symbol .assign) >>= fun found =>
      if found = true then (some <$> p) >>= f else pure none >>= f) := by
  refine takes_accept (Category.marks_symbol .assign) ?_ ?_
  · have hvalue : Takes (fun ks => Bare Expr.InitWritten (.symbol .assign :: ks)) (some <$> p) :=
      hp.map fun ks e he => by simpa [Bare] using Expr.InitWritten.some he
    exact hvalue.bind fun ks init hinit => hf (.symbol .assign :: ks) init hinit
  · rw [pure_bind]
    exact hf [] none .none

mutual

theorem takes_exprAt : ∀ n level, Takes (Bare Expr.Written) (exprAt n level)
  | 0, _ => takes_tooDeep
  | n + 1, level => by
    rw [exprAt]
    exact (takes_unary n).bind fun ks left hleft => takes_operators n level hleft

theorem takes_operators : ∀ n level {ks : List Kind} {left : Expr}, Bare Expr.Written ks left →
    Takes (fun ks' => Bare Expr.Written (ks ++ ks')) (operators n level left)
  | 0, _, _, _, _ => takes_tooDeep
  | n + 1, level, ks, left, hleft => by
    have hdone : Takes (fun ks' => Bare Expr.Written (ks ++ ks')) (pure left) :=
      takes_pure (by rwa [List.append_nil])
    rw [operators]
    refine takes_peek fun token => ?_
    cases hop : binaryOp? token.kind with
    | none => exact hdone.at
    | some op =>
      dsimp only
      split
      · exact hdone.at
      rw [binaryOp?_eq_some hop]
      refine takesAt_take nofun fun _ => ?_
      refine (takes_exprAt n (op.level + 1)).bind fun ks' right hright => ?_
      have hnode : Bare Expr.Written (ks ++ .symbol op.sign :: ks')
          (.binary (.untyped (left.span.through right.span)) op left right) := by
        rw [Bare, Kind.bare_append, bare_sign]
        exact .binary hleft hright
      have hmore := takes_operators n level hnode
      simp only [List.append_assoc, List.cons_append] at hmore
      refine takes_ite (takes_noComparison.bind fun _ _ hks => ?_) hmore
      rw [hks]
      exact hmore

theorem takes_unary : ∀ n, Takes (Bare Expr.Written) (unary n)
  | 0 => takes_tooDeep
  | n + 1 => by
    rw [unary]
    refine takes_peek fun start => Takes.at ?_
    refine takes_accept (Category.marks_keyword .notKw) ?_ ?_
    · refine (takes_exprAt n 1).bind fun ks e he => takes_pure ?_
      simpa [Bare] using Expr.Written.not he
    refine takes_accept (Category.marks_keyword .isvoidKw) ?_ ?_
    · refine (takes_unary n).bind fun ks e he => takes_pure ?_
      simpa [Bare] using Expr.Written.isVoid he
    refine takes_accept (Category.marks_symbol .tilde) ?_ ?_
    · refine (takes_unary n).bind fun ks e he => takes_pure ?_
      simpa [Bare] using Expr.Written.negate he
    exact (takes_primary n).bind fun ks receiver hreceiver => takes_dispatches n hreceiver

theorem takes_dispatches : ∀ n {ks : List Kind} {receiver : Expr}, Bare Expr.Written ks receiver →
    Takes (fun ks' => Bare Expr.Written (ks ++ ks')) (dispatches n receiver)
  | 0, _, _, _ => takes_tooDeep
  | n + 1, ks, receiver, hreceiver => by
    have hargs := takes_args (takes_exprAt n 0) n
    rw [dispatches]
    refine takes_accept (Category.marks_symbol .atSign) ?_ ?_
    · refine takes_typeId fun type => takes_expect (Category.marks_symbol .dot) fun _ => ?_
      refine takes_objectId fun method => hargs.bind fun ks' args ⟨kss, hks', hargs⟩ => ?_
      refine takes_lastSpan fun last => ?_
      have hnode : Bare Expr.Written
          (ks ++ .symbol .atSign :: .typeId type :: .symbol .dot :: .objectId method :: ks')
          (.staticDispatch (.untyped (receiver.span.through last)) receiver type method args) := by
        simpa [Bare, hks'] using Expr.Written.staticDispatch hreceiver hargs
      have hmore := takes_dispatches n hnode
      simpa only [List.append_assoc, List.cons_append] using hmore
    refine takes_accept (Category.marks_symbol .dot) ?_ ?_
    · refine takes_objectId fun method => hargs.bind fun ks' args ⟨kss, hks', hargs⟩ => ?_
      refine takes_lastSpan fun last => ?_
      have hnode : Bare Expr.Written (ks ++ .symbol .dot :: .objectId method :: ks')
          (.dispatch (.untyped (receiver.span.through last)) receiver method args) := by
        simpa [Bare, hks'] using Expr.Written.dispatch hreceiver hargs
      have hmore := takes_dispatches n hnode
      simpa only [List.append_assoc, List.cons_append] using hmore
    exact takes_pure (by rwa [List.append_nil])

theorem takes_primary : ∀ n, Takes (Bare Expr.Written) (primary n)
  | 0 => takes_tooDeep
  | n + 1 => by
    have he := takes_exprAt n 0
    rw [primary]
    refine takes_take (fun token => ?_) fun token htoken => ?_
    · extract_lets start item branch
      have hitem : Takes (fun ks e => ∃ ks', ks = ks' ++ [.symbol .semicolon] ∧
          Bare Expr.Written ks' e) item :=
        he.bind fun ks e he => takes_expect (Category.marks_symbol .semicolon) fun _ =>
          takes_pure ⟨ks, rfl, he⟩
      have hbranch : Takes (fun ks b => ∃ ks', ks = ks' ++ [.symbol .semicolon] ∧
          Bare Branch.Written ks' b) branch := by
        refine takes_peek fun first => Takes.at (takes_objectId fun name => ?_)
        refine takes_expect (Category.marks_symbol .colon) fun _ => takes_typeId fun type => ?_
        refine takes_expect (Category.marks_symbol .arrow) fun _ => he.bind fun ks body hbody => ?_
        refine takes_expect (Category.marks_symbol .semicolon) fun stop => takes_pure ?_
        refine ⟨.objectId name :: .symbol .colon :: .typeId type :: .symbol .arrow :: ks, rfl, ?_⟩
        simpa [Bare] using Branch.Written.intro hbody
      generalize token.kind = k
      -- one case for each token that an expression may start with
      split
      · exact takes_pure .int
      · exact takes_pure .string
      · exact takes_pure .bool
      · -- an assignment, a call or a variable
        rename_i name
        refine takes_accept (Category.marks_symbol .assign) ?_ ?_
        · refine he.bind fun ks value hvalue => takes_pure ?_
          simpa [Bare] using Expr.Written.assign hvalue
        refine takes_check fun found => takes_ite ?_ (takes_pure .object)
        refine (takes_args he n).bind fun ks args ⟨kss, hks, hargs⟩ => ?_
        refine takes_lastSpan fun last => takes_pure ?_
        simpa [Bare, hks] using Expr.Written.selfDispatch hargs
      · exact takes_typeId fun type => takes_lastSpan fun last => takes_pure .new
      · refine he.bind fun ks inner hinner => ?_
        refine takes_expect (Category.marks_symbol .parenClose) fun _ => takes_pure ?_
        simpa [Bare] using hinner
      · refine (takes_someUntil hitem n).bind fun ks body ⟨_, hitems⟩ => ?_
        obtain ⟨kss, hks, hbody⟩ := exists_bare_semicolonList hitems
        refine takes_expect (Category.marks_symbol .braceClose) fun stop => takes_pure ?_
        simpa [Bare, hks] using Expr.Written.block hbody
      · refine he.bind fun ks predicate hpredicate => ?_
        refine takes_expect (Category.marks_keyword .thenKw) fun _ => ?_
        refine he.bind fun ks' thenBranch hthen => ?_
        refine takes_expect (Category.marks_keyword .elseKw) fun _ => ?_
        refine he.bind fun ks'' elseBranch helse => ?_
        refine takes_expect (Category.marks_keyword .fiKw) fun stop => takes_pure ?_
        simpa [Bare] using Expr.Written.cond hpredicate hthen helse
      · refine he.bind fun ks predicate hpredicate => ?_
        refine takes_expect (Category.marks_keyword .loopKw) fun _ => ?_
        refine he.bind fun ks' body hbody => ?_
        refine takes_expect (Category.marks_keyword .poolKw) fun stop => takes_pure ?_
        simpa [Bare] using Expr.Written.loop hpredicate hbody
      · refine (takes_bindings n _).imp fun ks e he => ?_
        simpa [Bare] using Expr.Written.letIn he
      · refine he.bind fun ks scrutinee hscrutinee => ?_
        refine takes_expect (Category.marks_keyword .ofKw) fun _ => ?_
        refine (takes_someUntil hbranch n).bind fun ks' branches ⟨_, hitems⟩ => ?_
        obtain ⟨kss, hks, hbranches⟩ := exists_bare_semicolonList hitems
        refine takes_expect (Category.marks_keyword .esacKw) fun stop => takes_pure ?_
        simpa [Bare, hks] using Expr.Written.typeCase hscrutinee hbranches
      · exact takes_fail _ _
    · rw [htoken]
      exact takes_fail _ _

theorem takes_bindings : ∀ n start, Takes (Bare Expr.Binds) (bindings n start)
  | 0, _ => takes_tooDeep
  | n + 1, start => by
    rw [bindings]
    refine takes_objectId fun name => takes_expect (Category.marks_symbol .colon) fun _ => ?_
    refine takes_typeId fun type => ?_
    -- what comes behind the initial value, which may be missing
    extract_lets behind
    refine takes_init (takes_exprAt n 0) fun ks init hinit => ?_
    refine takes_accept (Category.marks_symbol .comma) ?_ ?_
    · refine takes_peek fun next => Takes.at ?_
      refine (takes_bindings n next.span).bind fun ks' body hbody => takes_pure ?_
      simpa [Bare] using Expr.Binds.inList hinit hbody
    · refine takes_expect (Category.marks_keyword .inKw) fun _ => ?_
      refine (takes_exprAt n 0).bind fun ks' body hbody => takes_pure ?_
      simpa [Bare] using Expr.Binds.inBody hinit hbody

end

theorem takes_expr : Takes (Bare Expr.Written) expr :=
  takes_withAllowance fun n => takes_exprAt n 0

/-! ## Declarations -/

theorem takes_formals :
    Takes (fun ks formals => Kind.bare ks = Kind.commas (formals.map Formal.kinds))
      (withAllowance (commaList formal)) := by
  have hformal : Takes (fun ks f => Kind.bare ks = f.kinds) formal := by
    unfold formal
    refine takes_peek fun first => Takes.at (takes_objectId fun name => ?_)
    refine takes_expect (Category.marks_symbol .colon) fun _ => takes_typeId fun type => ?_
    exact takes_lastSpan fun last => takes_pure rfl
  refine takes_withAllowance fun n => (takes_commaList hformal n).imp fun ks formals h => ?_
  obtain ⟨kss, hks, hformals⟩ := h
  have hkinds : List.Forall₂ (· = ·) (kss.map Kind.bare) (formals.map Formal.kinds) :=
    List.forall₂_map_left_iff.mpr (List.forall₂_map_right_iff.mpr hformals)
  rw [List.forall₂_eq_eq_eq] at hkinds
  rw [hks, Kind.bare_commaList, hkinds]

theorem takes_feature : Takes (Bare Feature.Written) feature := by
  unfold feature
  refine takes_peek fun first => Takes.at (takes_objectId fun name => ?_)
  refine takes_check fun found => takes_ite ?_ ?_
  · refine takes_formals.bind fun ks formals hks => ?_
    refine takes_expect (Category.marks_symbol .colon) fun _ => takes_typeId fun type => ?_
    refine takes_expect (Category.marks_symbol .braceOpen) fun _ => ?_
    refine takes_expr.bind fun ks' body hbody => ?_
    refine takes_expect (Category.marks_symbol .braceClose) fun stop => takes_pure ?_
    have hwritten := Feature.Written.method
      (m := ⟨name, formals, type, body, first.span.through stop.span⟩) hbody
    simpa [Bare, hks] using hwritten
  · refine takes_expect (Category.marks_symbol .colon) fun _ => takes_typeId fun type => ?_
    extract_lets behind
    refine takes_init takes_expr fun ks init hinit => takes_lastSpan fun last => takes_pure ?_
    simpa [Bare] using Feature.Written.attr (a := ⟨name, type, init, _⟩) hinit

theorem takes_classDecl (file : String) :
    Takes (fun ks c => Bare ClassDecl.Written ks c ∧ c.file = file) (classDecl file) := by
  have hitem : Takes (fun ks f => ∃ ks', ks = ks' ++ [.symbol .semicolon] ∧
      Bare Feature.Written ks' f) featureItem :=
    takes_feature.bind fun ks f hf => takes_expect (Category.marks_symbol .semicolon) fun _ =>
      takes_pure ⟨ks, rfl, hf⟩
  unfold classDecl
  refine takes_expect (Category.marks_keyword .classKw) fun first => takes_typeId fun name => ?_
  extract_lets behind
  have hbehind : ∀ parent, Takes (fun ks c => c.name = name ∧ c.parent = parent ∧ c.file = file ∧
      ∃ kss, Kind.bare ks = .symbol .braceOpen :: (Kind.semicolonList kss ++
        [.symbol .braceClose]) ∧ List.Forall₂ Feature.Written kss c.features) (behind parent) := by
    intro parent
    refine takes_expect (Category.marks_symbol .braceOpen) fun _ => ?_
    refine (takes_withAllowance (takes_manyUntil hitem)).bind fun ks features hitems => ?_
    obtain ⟨kss, hks, hfeatures⟩ := exists_bare_semicolonList hitems
    refine takes_expect (Category.marks_symbol .braceClose) fun stop => takes_pure ?_
    exact ⟨rfl, rfl, rfl, kss, by simp [hks], hfeatures⟩
  refine takes_accept (Category.marks_keyword .inheritsKw) (takes_typeId fun parent => ?_) ?_
  · refine (hbehind parent).imp fun ks c ⟨hname, hparent, hfile, kss, hks, hfeatures⟩ => ?_
    have hwritten := ClassDecl.Written.inherits hfeatures
    rw [hname, hparent] at hwritten
    exact ⟨by simpa [Bare, hks] using hwritten, hfile⟩
  · rw [pure_bind]
    refine (hbehind Names.object).imp fun ks c ⟨hname, hparent, hfile, kss, hks, hfeatures⟩ => ?_
    have hwritten := ClassDecl.Written.object hparent hfeatures
    rw [hname] at hwritten
    exact ⟨by simpa [Bare, hks] using hwritten, hfile⟩

theorem takes_program (file : String) :
    Takes (fun ks p => Bare Program.Written ks p ∧ p.classes ≠ [] ∧ ∀ c ∈ p.classes, c.file = file)
      (program file) := by
  have hitem : Takes (fun ks c => ∃ ks', ks = ks' ++ [.symbol .semicolon] ∧
      Bare (fun ks c => ClassDecl.Written ks c ∧ c.file = file) ks' c) (classItem file) :=
    (takes_classDecl file).bind fun ks c hc =>
      takes_expect (Category.marks_symbol .semicolon) fun _ => takes_pure ⟨ks, rfl, hc⟩
  refine (takes_withAllowance (takes_someUntil hitem)).map fun ks classes ⟨hne, hitems⟩ => ?_
  obtain ⟨kss, hks, hclasses⟩ := exists_bare_semicolonList hitems
  refine ⟨?_, hne, forall_of_forall₂ (P := fun _ => True) hclasses (fun _ _ h _ => h.2)
    fun _ _ => trivial⟩
  rw [Bare, hks]
  exact .intro (hclasses.imp fun _ _ h => h.1)

end Grammar

/-! ## Sources -/

/-- A parser that is run on a text. -/
theorem Parser.Takes.of_text {α : Type} {R : List Kind → α → Prop} {p : Parser α} (hp : p.Takes R)
    {text : String} {x : α} (h : (do return (← p.run (Stream.ofText text)).1) = Except.ok x) :
    ∃ taken more, (Stream.ofText text).ahead = taken ++ more ∧ R (taken.map Token.kind) x := by
  cases hrun : p.run (Stream.ofText text) with
  | error fault =>
    rw [hrun] at h
    cases h
  | ok r =>
    rw [hrun] at h
    cases h
    obtain ⟨taken, hahead, -, hR⟩ := hp _ r.1 r.2 (Stream.kind_ending_ofText text) hrun
    exact ⟨taken, r.2.ahead, hahead, hR⟩

/-- A program that is read is written in tokens of the text, in this file. -/
theorem Program.written_of_parse {file text : String} {p : Program}
    (h : Program.parse file text = .ok p) :
    (∃ ks, p.Written ks ∧ ∀ k ∈ ks, k.Spelled) ∧ p.classes ≠ [] ∧
      ∀ c ∈ p.classes, c.file = file := by
  obtain ⟨taken, more, hahead, hwritten, hne, hfile⟩ := (Grammar.takes_program file).of_text h
  refine ⟨⟨_, hwritten, fun k hk => ?_⟩, hne, hfile⟩
  obtain ⟨token, htoken, rfl⟩ := List.mem_map.mp (Kind.mem_of_mem_bare hk)
  exact Stream.spelled_ofText text token (hahead ▸ List.mem_append_left more htoken)

end Cool
