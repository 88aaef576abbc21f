import Cool.Grammar.Parser
import Cool.Tree.Expr

/-!
# The grammar of expressions

Binary operators are read by level: `operators` extends an expression to the right as long as the
next operator binds at least as tightly as asked for, and reads each right operand one level up,
so that operators of one level group to the left. Comparisons are all of one level and must not
follow each other. An assignment, a `let` and the operand of `not` reach as far to the right as
they can; `not` binds looser than the comparisons, `isvoid` and `~` tighter than all operators but
the calls of methods.

* `Grammar.binaryOp?` : the operator of a token;
* `Grammar.exprAt` : an expression whose operators bind at least so tightly, with the functions
  it is made of;
* `Grammar.expr`, `Expr.parse` : an expression, from tokens and from text.
-/

namespace Cool

/-- The binary operator that a token stands for, if it does. -/
def Grammar.binaryOp? : Kind → Option BinaryOp
  | .symbol .plus => some .add
  | .symbol .minus => some .sub
  | .symbol .star => some .mul
  | .symbol .slash => some .div
  | .symbol .lt => some .lt
  | .symbol .le => some .le
  | .symbol .eq => some .eq
  | _ => none

namespace Grammar

open Cool.Parser

/-- Refuses a comparison that comes next, as it does behind a comparison. -/
def noComparison : Parser Unit := do
  let token ← peek
  match binaryOp? token.kind with
  | some op =>
    if op.isComparison then fail (.comparisonChain token.kind) token.span else return ()
  | none => return ()

mutual

/-- An expression with binary operators of at least a level. -/
def exprAt : Nat → Nat → Parser Expr
  | 0, _ => tooDeep
  | n + 1, level => do
    let left ← unary n
    operators n level left

/-- The operators, of at least a level, and the operands behind `left`. -/
def operators : Nat → Nat → Expr → Parser Expr
  | 0, _, _ => tooDeep
  | n + 1, level, left => do
    let token ← peek
    match binaryOp? token.kind with
    | none => return left
    | some op =>
      if op.level < level then
        return left
      else
        let _ ← take
        let right ← exprAt n (op.level + 1)
        if op.isComparison then noComparison
        operators n level
          (.binary (.untyped (left.span.through right.span)) op left right)

/-- An expression without binary operators outside of `not`. -/
def unary : Nat → Parser Expr
  | 0 => tooDeep
  | n + 1 => do
    let start ← peek
    if ← accept (.keyword .notKw) then
      let operand ← exprAt n 1
      return .unary (.untyped (start.span.through operand.span)) .not operand
    else if ← accept (.keyword .isvoidKw) then
      let operand ← unary n
      return .isVoid (.untyped (start.span.through operand.span)) operand
    else if ← accept (.symbol .tilde) then
      let operand ← unary n
      return .unary (.untyped (start.span.through operand.span)) .negate operand
    else
      let receiver ← primary n
      dispatches n receiver

/-- The calls of methods behind `receiver`. -/
def dispatches : Nat → Expr → Parser Expr
  | 0, _ => tooDeep
  | n + 1, receiver => do
    if ← accept (.symbol .atSign) then
      let type ← typeId
      let _ ← expect (.symbol .dot)
      let method ← objectId
      let args ← commaList (exprAt n 0) n
      let span := receiver.span.through (← lastSpan)
      dispatches n (.staticDispatch (.untyped span) receiver type method args)
    else if ← accept (.symbol .dot) then
      let method ← objectId
      let args ← commaList (exprAt n 0) n
      let span := receiver.span.through (← lastSpan)
      dispatches n (.dispatch (.untyped span) receiver method args)
    else
      return receiver

/-- An expression that starts with the token that tells what it is. -/
def primary : Nat → Parser Expr
  | 0 => tooDeep
  | n + 1 => do
    let token ← take
    let start := token.span
    match token.kind with
    | .int value => return .int (.untyped start) value
    | .string value => return .string (.untyped start) value
    | .bool value => return .bool (.untyped start) value
    | .objectId name =>
      if ← accept (.symbol .assign) then
        let value ← exprAt n 0
        return .assign (.untyped (start.through value.span)) name value
      else if ← check (.symbol .parenOpen) then
        let args ← commaList (exprAt n 0) n
        return .selfDispatch (.untyped (start.through (← lastSpan))) name args
      else
        return .object (.untyped start) name
    | .keyword .newKw =>
      let type ← typeId
      return .new (.untyped (start.through (← lastSpan))) type
    | .symbol .parenOpen =>
      let inner ← exprAt n 0
      let _ ← expect (.symbol .parenClose)
      return inner
    | .symbol .braceOpen =>
      let item := do
        let item ← exprAt n 0
        let _ ← expect (.symbol .semicolon)
        return item
      let body ← someUntil (.symbol .braceClose) item n
      let stop ← expect (.symbol .braceClose)
      return .block (.untyped (start.through stop.span)) body
    | .keyword .ifKw =>
      let predicate ← exprAt n 0
      let _ ← expect (.keyword .thenKw)
      let thenBranch ← exprAt n 0
      let _ ← expect (.keyword .elseKw)
      let elseBranch ← exprAt n 0
      let stop ← expect (.keyword .fiKw)
      return .cond (.untyped (start.through stop.span)) predicate thenBranch elseBranch
    | .keyword .whileKw =>
      let predicate ← exprAt n 0
      let _ ← expect (.keyword .loopKw)
      let body ← exprAt n 0
      let stop ← expect (.keyword .poolKw)
      return .loop (.untyped (start.through stop.span)) predicate body
    | .keyword .letKw => bindings n start
    | .keyword .caseKw =>
      let scrutinee ← exprAt n 0
      let _ ← expect (.keyword .ofKw)
      let branch := do
        let first ← peek
        let name ← objectId
        let _ ← expect (.symbol .colon)
        let type ← typeId
        let _ ← expect (.symbol .arrow)
        let body ← exprAt n 0
        let stop ← expect (.symbol .semicolon)
        return Branch.mk name type body (first.span.through stop.span)
      let branches ← someUntil (.keyword .esacKw) branch n
      let stop ← expect (.keyword .esacKw)
      return .typeCase (.untyped (start.through stop.span)) scrutinee branches
    | found => fail (.expectedExpr found) start

/-- The bindings of a `let` and its body. The node of each binding starts where the binding does,
but the first one at the word `let`. -/
def bindings : Nat → Span → Parser Expr
  | 0, _ => tooDeep
  | n + 1, start => do
    let name ← objectId
    let _ ← expect (.symbol .colon)
    let type ← typeId
    let init ←
      if ← accept (.symbol .assign) then some <$> exprAt n 0 else pure none
    let body ←
      if ← accept (.symbol .comma) then do
        let next ← peek
        bindings n next.span
      else do
        let _ ← expect (.keyword .inKw)
        exprAt n 0
    return .letIn (.untyped (start.through body.span)) name type init body

end

def expr : Parser Expr :=
  withAllowance fun n => exprAt n 0

end Grammar

/-- The expression at the front of a text. What follows it is not looked at. -/
def Expr.parse (text : String) : Except Fault Expr := do
  let (e, _) ← Grammar.expr.run (Stream.ofText text)
  return e

end Cool
