import Cool.Grammar.Program
import Cool.Proofs.Grammar.Calls
import Cool.Proofs.Grammar.Parser
import Cool.Proofs.Grammar.Reads

/-!
# The grammar with its calls

The parsers once more, with a record of the turns and the calls that they make. The record is kept
where a parser fails, so it shows what has been done until then. Without the record, each of them is
the parser of the same name.

* `Traced` : a parser with a record of its calls;
* `Traced.turn`, `Traced.call` : what is entered into the record;
* `Traced.exprAt`, `Traced.program`, ... : the grammar;
* `Traced.forget` : the parser without the record;
* `Traced.forget_exprAt`, `Traced.forget_program`, ... : it is the one of the grammar;
* `Traced.length_calls_manyUntil`, ... : the record has a turn for each item.
-/

namespace Cool

/-- What a run comes to: the calls that it has made, and a value with the stream behind it, or a
fault. -/
structure Recorded (α : Type) where
  calls : List CallTree
  result : Except Fault (α × Stream)

namespace Recorded

variable {α : Type}

/-- The tokens that are left, if there is a value. -/
def rest (r : Recorded α) : Option Nat :=
  match r.result with
  | .ok (_, s) => some s.ahead.length
  | .error _ => none

end Recorded

/-- A parser with a record of its calls. -/
def Traced (α : Type) : Type :=
  Stream → Recorded α

namespace Traced

open Cool.Parser (peek take check accept expect typeId objectId lastSpan fail tooDeep)
open Cool.Grammar (noComparison binaryOp?)

variable {α β : Type}

instance : Monad Traced where
  pure x := fun s => ⟨[], .ok (x, s)⟩
  bind p f := fun s =>
    match (p s).result with
    | .ok (x, s') => ⟨(p s).calls ++ (f x s').calls, (f x s').result⟩
    | .error fault => ⟨(p s).calls, .error fault⟩

instance : MonadLift Parser Traced where
  monadLift p := fun s => ⟨[], p s⟩

theorem run_bind (p : Traced α) (f : α → Traced β) (s : Stream) :
    (p >>= f) s = match (p s).result with
      | .ok (x, s') => ⟨(p s).calls ++ (f x s').calls, (f x s').result⟩
      | .error fault => ⟨(p s).calls, .error fault⟩ :=
  rfl

/-- Enters all that a parser does into the record, as one call. -/
def enter (step : Step) (p : Traced α) : Traced α := fun s =>
  ⟨[.node step s.ahead.length (p s).rest (p s).calls], (p s).result⟩

def turn (loop : Loop) (p : Traced α) : Traced α :=
  enter (.turn loop) p

def call (routine : Routine) (p : Traced α) : Traced α :=
  enter (.call routine) p

/-! ## Repetitions -/

def withAllowance (p : Nat → Traced α) : Traced α := fun s =>
  p (8 * (s.ahead.length + 1)) s

def manyUntil (loop : Loop) (stop : Category) (item : Traced α) : Nat → Traced (List α)
  | 0 => tooDeep
  | n + 1 => do
    if ← check stop then
      return []
    else
      let first ← turn loop item
      let more ← manyUntil loop stop item n
      return first :: more

def someUntil (loop : Loop) (stop : Category) (item : Traced α) (n : Nat) : Traced (List α) := do
  let first ← turn loop item
  let more ← manyUntil loop stop item n
  return first :: more

def commaItems (loop : Loop) (item : Traced α) : Nat → Traced (List α)
  | 0 => tooDeep
  | n + 1 => do
    if ← check (.symbol .comma) then
      let first ← turn loop do
        let _ ← take
        item
      let more ← commaItems loop item n
      return first :: more
    else
      return []

def commaList (loop : Loop) (item : Traced α) (n : Nat) : Traced (List α) := do
  let _ ← expect (.symbol .parenOpen)
  let items ←
    if ← check (.symbol .parenClose) then
      pure []
    else do
      let first ← item
      let more ← commaItems loop item n
      pure (first :: more)
  let _ ← expect (.symbol .parenClose)
  return items

/-! ## Expressions -/

mutual

def exprAt : Nat → Nat → Traced Expr
  | 0, _ => tooDeep
  | n + 1, level => call .expression do
    let left ← unary n
    operators n level left

def operators : Nat → Nat → Expr → Traced Expr
  | 0, _, _ => tooDeep
  | n + 1, level, left => do
    let token ← peek
    match binaryOp? token.kind with
    | none => return left
    | some op =>
      if op.level < level then
        return left
      else
        let right ← turn .operators do
          let _ ← take
          let right ← exprAt n (op.level + 1)
          if op.isComparison then noComparison
          return right
        operators n level
          (.binary (.untyped (left.span.through right.span)) op left right)

def unary : Nat → Traced Expr
  | 0 => tooDeep
  | n + 1 => call .unary do
    let start ← peek
    if ← accept (.keyword .notKw) then
      let operand ← exprAt n 1
      return .unary (.untyped (start.span.through operand.span)) .not operand
    else if ← accept (.keyword .isvoidKw) then
      let operand ← unary n
      return .isVoid (.untyped (start.span.through operand.span)) operand
    else if ← accept (.symbol .tilde) then
      let operand ← unary n
      return .unary (.untyped (start.span.through operand.span)) .negate operand
    else
      call .postfixed do
        let receiver ← primary n
        dispatches n receiver

def dispatches : Nat → Expr → Traced Expr
  | 0, _ => tooDeep
  | n + 1, receiver => do
    if ← check (.symbol .atSign) then
      let next ← turn .dispatches do
        let _ ← take
        let type ← typeId
        let _ ← expect (.symbol .dot)
        let method ← objectId
        let args ← commaList .arguments (exprAt n 0) n
        let span := receiver.span.through (← lastSpan)
        return .staticDispatch (.untyped span) receiver type method args
      dispatches n next
    else if ← check (.symbol .dot) then
      let next ← turn .dispatches do
        let _ ← take
        let method ← objectId
        let args ← commaList .arguments (exprAt n 0) n
        let span := receiver.span.through (← lastSpan)
        return .dispatch (.untyped span) receiver method args
      dispatches n next
    else
      return receiver

def primary : Nat → Traced Expr
  | 0 => tooDeep
  | n + 1 => call .primary do
    let token ← take
    let start := token.span
    match token.kind with
    | .int value => return .int (.untyped start) value
    | .string value => return .string (.untyped start) value
    | .bool value => return .bool (.untyped start) value
    | .objectId name =>
      if ← accept (.symbol .assign) then
        let value ← exprAt n 0
        return .assign (.untyped (start.through value.span)) name value
      else if ← check (.symbol .parenOpen) then
        let args ← commaList .arguments (exprAt n 0) n
        return .selfDispatch (.untyped (start.through (← lastSpan))) name args
      else
        return .object (.untyped start) name
    | .keyword .newKw =>
      let type ← typeId
      return .new (.untyped (start.through (← lastSpan))) type
    | .symbol .parenOpen =>
      let inner ← exprAt n 0
      let _ ← expect (.symbol .parenClose)
      return inner
    | .symbol .braceOpen =>
      let item := do
        let item ← exprAt n 0
        let _ ← expect (.symbol .semicolon)
        return item
      let body ← someUntil .items (.symbol .braceClose) item n
      let stop ← expect (.symbol .braceClose)
      return .block (.untyped (start.through stop.span)) body
    | .keyword .ifKw =>
      let predicate ← exprAt n 0
      let _ ← expect (.keyword .thenKw)
      let thenBranch ← exprAt n 0
      let _ ← expect (.keyword .elseKw)
      let elseBranch ← exprAt n 0
      let stop ← expect (.keyword .fiKw)
      return .cond (.untyped (start.through stop.span)) predicate thenBranch elseBranch
    | .keyword .whileKw =>
      let predicate ← exprAt n 0
      let _ ← expect (.keyword .loopKw)
      let body ← exprAt n 0
      let stop ← expect (.keyword .poolKw)
      return .loop (.untyped (start.through stop.span)) predicate body
    | .keyword .letKw => bindings n start
    | .keyword .caseKw =>
      let scrutinee ← exprAt n 0
      let _ ← expect (.keyword .ofKw)
      let branch := do
        let first ← peek
        let name ← objectId
        let _ ← expect (.symbol .colon)
        let type ← typeId
        let _ ← expect (.symbol .arrow)
        let body ← exprAt n 0
        let stop ← expect (.symbol .semicolon)
        return Branch.mk name type body (first.span.through stop.span)
      let branches ← someUntil .branches (.keyword .esacKw) branch n
      let stop ← expect (.keyword .esacKw)
      return .typeCase (.untyped (start.through stop.span)) scrutinee branches
    | found => fail (.expectedExpr found) start

def bindings : Nat → Span → Traced Expr
  | 0, _ => tooDeep
  | n + 1, start => call .bindings do
    let name ← objectId
    let _ ← expect (.symbol .colon)
    let type ← typeId
    let init ←
      if ← accept (.symbol .assign) then some <$> exprAt n 0 else pure none
    let body ←
      if ← accept (.symbol .comma) then do
        let next ← peek
        bindings n next.span
      else do
        let _ ← expect (.keyword .inKw)
        exprAt n 0
    return .letIn (.untyped (start.through body.span)) name type init body

end

def expr : Traced Expr :=
  withAllowance fun n => exprAt n 0

/-! ## Programs -/

def feature : Traced Feature := do
  let first ← peek
  let name ← objectId
  if ← check (.symbol .parenOpen) then
    let formals ← withAllowance (commaList .formals Grammar.formal)
    let _ ← expect (.symbol .colon)
    let returnType ← typeId
    let _ ← expect (.symbol .braceOpen)
    let body ← expr
    let stop ← expect (.symbol .braceClose)
    return .method ⟨name, formals, returnType, body, first.span.through stop.span⟩
  else
    let _ ← expect (.symbol .colon)
    let type ← typeId
    let init ← if ← accept (.symbol .assign) then some <$> expr else pure none
    return .attr ⟨name, type, init, first.span.through (← lastSpan)⟩

def featureItem : Traced Feature := do
  let item ← feature
  let _ ← expect (.symbol .semicolon)
  return item

def classDecl (file : String) : Traced ClassDecl := do
  let first ← expect (.keyword .classKw)
  let name ← typeId
  let parent ←
    if ← accept (.keyword .inheritsKw) then typeId else pure Names.object
  let _ ← expect (.symbol .braceOpen)
  let features ← withAllowance (manyUntil .features (.symbol .braceClose) featureItem)
  let stop ← expect (.symbol .braceClose)
  return ⟨name, parent, features, file, first.span.through stop.span⟩

def classItem (file : String) : Traced ClassDecl := do
  let item ← classDecl file
  let _ ← expect (.symbol .semicolon)
  return item

def program (file : String) : Traced Program :=
  Program.mk <$> withAllowance (someUntil .classes .endOfFile (classItem file))

/-! ## The parsers without the record -/

/-- The parser without its record. -/
def forget (p : Traced α) : Parser α := fun s => (p s).result

@[simp]
theorem forget_pure (x : α) : forget (pure x) = pure x :=
  rfl

@[simp]
theorem forget_liftM (p : Parser α) : forget (liftM p) = p :=
  rfl

@[simp]
theorem forget_enter (step : Step) (p : Traced α) : forget (enter step p) = forget p :=
  rfl

@[simp]
theorem forget_bind (p : Traced α) (f : α → Traced β) :
    forget (p >>= f) = forget p >>= fun x => forget (f x) := by
  funext s
  rw [forget, run_bind]
  cases hp : (p s).result with
  | error fault => exact (Parser.bind_of_eq_error (p := forget p) hp).symm
  | ok r =>
    obtain ⟨x, s'⟩ := r
    exact (Parser.bind_of_eq_ok (p := forget p) (f := fun x => forget (f x)) hp).symm

@[simp]
theorem forget_map (g : α → β) (p : Traced α) : forget (g <$> p) = g <$> forget p := by
  rw [map_eq_pure_bind (f := g) (x := forget p)]
  exact forget_bind p fun x => pure (g x)

@[simp]
theorem forget_ite (b : Prop) [Decidable b] (p q : Traced α) :
    forget (if b then p else q) = if b then forget p else forget q := by
  split <;> rfl

section Repetitions

variable {stop : Category} {item : Traced α}

theorem forget_withAllowance (p : Nat → Traced α) :
    forget (withAllowance p) = Parser.withAllowance fun n => forget (p n) :=
  rfl

theorem forget_manyUntil (loop : Loop) (n : Nat) :
    forget (manyUntil loop stop item n) = Parser.manyUntil stop (forget item) n := by
  induction n with
  | zero => rfl
  | succ n ih => simp [manyUntil, Parser.manyUntil, turn, ih]

theorem forget_someUntil (loop : Loop) (n : Nat) :
    forget (someUntil loop stop item n) = Parser.someUntil stop (forget item) n := by
  simp [someUntil, Parser.someUntil, turn, forget_manyUntil]

theorem forget_commaItems (loop : Loop) (n : Nat) :
    forget (commaItems loop item n) = Parser.commaItems (forget item) n := by
  induction n with
  | zero => rfl
  | succ n ih => simp [commaItems, Parser.commaItems, turn, ih, Parser.accept_bind]

theorem forget_commaList (loop : Loop) (n : Nat) :
    forget (commaList loop item n) = Parser.commaList (forget item) n := by
  simp [commaList, Parser.commaList, forget_commaItems]

end Repetitions

mutual

theorem forget_exprAt : ∀ n level, forget (exprAt n level) = Grammar.exprAt n level
  | 0, _ => rfl
  | n + 1, level => by
    simp [exprAt, Grammar.exprAt, call, forget_unary n, forget_operators n]

theorem forget_operators :
    ∀ n level left, forget (operators n level left) = Grammar.operators n level left
  | 0, _, _ => rfl
  | n + 1, level, left => by
    rw [operators, Grammar.operators, forget_bind]
    refine congrArg _ (funext fun token => ?_)
    cases binaryOp? token.kind with
    | none => rfl
    | some op =>
      dsimp only
      split
      · rfl
      · cases op.isComparison <;> simp [turn, forget_exprAt n, forget_operators n]

theorem forget_unary : ∀ n, forget (unary n) = Grammar.unary n
  | 0 => rfl
  | n + 1 => by
    simp [unary, Grammar.unary, call, forget_exprAt n, forget_unary n, forget_primary n,
      forget_dispatches n]

theorem forget_dispatches :
    ∀ n receiver, forget (dispatches n receiver) = Grammar.dispatches n receiver
  | 0, _ => rfl
  | n + 1, receiver => by
    simp [dispatches, Grammar.dispatches, turn, forget_exprAt n, forget_dispatches n,
      forget_commaList, Parser.accept_bind]

theorem forget_primary : ∀ n, forget (primary n) = Grammar.primary n
  | 0 => rfl
  | n + 1 => by
    rw [primary, Grammar.primary, call, forget_enter, forget_bind]
    refine congrArg _ (funext fun token => ?_)
    dsimp only
    split <;>
      simp [*, forget_exprAt n, forget_commaList, forget_someUntil, forget_bindings n]

theorem forget_bindings : ∀ n start, forget (bindings n start) = Grammar.bindings n start
  | 0, _ => rfl
  | n + 1, start => by
    simp [bindings, Grammar.bindings, call, forget_exprAt n, forget_bindings n]

end

theorem forget_expr : forget expr = Grammar.expr := by
  simp [expr, Grammar.expr, forget_withAllowance, forget_exprAt]

theorem forget_feature : forget feature = Grammar.feature := by
  simp [feature, Grammar.feature, forget_withAllowance, forget_commaList, forget_expr]

theorem forget_program (file : String) : forget (program file) = Grammar.program file := by
  simp [program, Grammar.program, classItem, Grammar.classItem, classDecl, Grammar.classDecl,
    featureItem, Grammar.featureItem, forget_withAllowance, forget_someUntil, forget_manyUntil,
    forget_feature]

/-! ## What is in the record -/

/-- Where a sequence gives a value, its record is that of its parts. -/
theorem exists_of_bind {p : Traced α} {f : α → Traced β} {s s' : Stream} {y : β}
    (h : ((p >>= f) s).result = .ok (y, s')) : ∃ x s'', (p s).result = .ok (x, s'') ∧
      (f x s'').result = .ok (y, s') ∧ ((p >>= f) s).calls = (p s).calls ++ (f x s'').calls := by
  cases hp : (p s).result with
  | error fault =>
    rw [run_bind, hp] at h
    cases h
  | ok out =>
    obtain ⟨x, s''⟩ := out
    rw [run_bind, hp] at h ⊢
    exact ⟨x, s'', rfl, h, rfl⟩

section Records

variable {loop : Loop} {stop : Category} {item : Traced α} {s s' : Stream} {xs : List α}

/-- The record of a repetition has a turn for each item. -/
theorem length_calls_cons {rest : Traced (List α)}
    (hrest : ∀ {s s' xs}, (rest s).result = .ok (xs, s') → (rest s).calls.length = xs.length)
    (h : ((do
      let first ← turn loop item
      let more ← rest
      return first :: more : Traced (List α)) s).result = .ok (xs, s')) :
    ((do
      let first ← turn loop item
      let more ← rest
      return first :: more : Traced (List α)) s).calls.length = xs.length := by
  obtain ⟨first, s₁, -, hmore, hfirst⟩ := exists_of_bind h
  obtain ⟨more, s₂, hmore, hdone, hcalls⟩ := exists_of_bind hmore
  cases hdone
  rw [hfirst, hcalls, List.length_append, List.length_append, hrest hmore]
  exact Nat.add_comm 1 more.length

theorem length_calls_manyUntil {n : Nat}
    (h : (manyUntil loop stop item n s).result = .ok (xs, s')) :
    (manyUntil loop stop item n s).calls.length = xs.length := by
  induction n generalizing s s' xs with
  | zero => cases h
  | succ n ih =>
    rw [manyUntil] at h ⊢
    obtain ⟨found, s₁, -, hrest, hcalls⟩ := exists_of_bind h
    rw [hcalls]
    split at hrest
    · rename_i hfound
      cases hrest
      rw [if_pos hfound]
      rfl
    · rename_i hfound
      rw [if_neg hfound]
      exact length_calls_cons ih hrest

theorem length_calls_someUntil {n : Nat}
    (h : (someUntil loop stop item n s).result = .ok (xs, s')) :
    (someUntil loop stop item n s).calls.length = xs.length :=
  length_calls_cons length_calls_manyUntil h

/-- The record of a program has a turn for each class. -/
theorem length_calls_program {file : String} {p : Program}
    (h : (program file s).result = .ok (p, s')) :
    (program file s).calls.length = p.classes.length := by
  obtain ⟨classes, s₁, hclasses, hdone, hcalls⟩ :=
    exists_of_bind (f := fun classes => pure (Program.mk classes)) h
  cases hdone
  have hlength : (withAllowance (someUntil .classes .endOfFile (classItem file)) s).calls.length =
      classes.length := length_calls_someUntil hclasses
  rw [show (program file s).calls = _ from hcalls, List.length_append, hlength]
  rfl

/-- The record of an expression is one call. -/
theorem exists_calls_expr (s : Stream) : ∃ rest inner,
    (expr s).calls = [.node (.call .expression) s.ahead.length rest inner] := by
  obtain ⟨n, hn⟩ : ∃ n, 8 * (s.ahead.length + 1) = n + 1 := ⟨_, rfl⟩
  show ∃ rest inner, (exprAt (8 * (s.ahead.length + 1)) 0 s).calls = _
  rw [hn, exprAt]
  exact ⟨_, _, rfl⟩

end Records

end Traced

end Cool
