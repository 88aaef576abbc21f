import Cool.Token.Cursor

/-!
# Parsers

A parser takes tokens from the front of a `Stream` and returns what it has read, or the fault that
stops it. It never looks further than the next token. A stream holds the tokens up to the first
fault of the lexer, or up to the end of the text; what ends it can be looked at any number of
times.

Loops and recursion spend an allowance of steps, one per turn or level. `withAllowance` hands out
an allowance that grows with the number of tokens left, so that it outlasts every source.

* `Stream`, `Stream.ofText` : tokens and what ends them;
* `Parser.peek`, `Parser.take`, `Parser.check`, `Parser.accept`, `Parser.expect` : single tokens;
* `Parser.typeId`, `Parser.objectId` : identifiers;
* `Parser.manyUntil`, `Parser.someUntil`, `Parser.commaList` : repetitions.
-/

namespace Cool

structure Stream where
  ahead : List Token
  /-- The end token, or the fault of the text behind the last token. -/
  ending : Except Fault Token
  /-- The span of the token taken last. -/
  last : Span

/-- The tokens before the first fault, and that fault; or all tokens, and the end token. -/
def Stream.cut (eof : Token) : List (Except Fault Token) → List Token × Except Fault Token
  | [] => ([], .ok eof)
  | .error fault :: _ => ([], .error fault)
  | .ok token :: more =>
    let (tokens, ending) := Stream.cut eof more
    (token :: tokens, ending)

def Stream.ofText (text : String) : Stream :=
  let (found, eof) := results text
  let (ahead, ending) := Stream.cut eof found
  ⟨ahead, ending, ⟨0, 0, 0⟩⟩

abbrev Parser := StateT Stream (Except Fault)

namespace Parser

variable {α : Type}

/-- The next token. -/
def peek : Parser Token := fun s =>
  match s.ahead with
  | token :: _ => .ok (token, s)
  | [] => s.ending.map fun token => (token, s)

/-- Takes the next token. -/
def take : Parser Token := fun s =>
  match s.ahead with
  | token :: ahead => .ok (token, { s with ahead, last := token.span })
  | [] => s.ending.map fun token => (token, { s with last := token.span })

/-- The span of the token taken last. -/
def lastSpan : Parser Span := fun s =>
  .ok (s.last, s)

def fail (error : GrammarError) (span : Span) : Parser α :=
  throw (.grammatical error span)

/-- Whether the next token is of a category. -/
def check (what : Category) : Parser Bool := do
  let token ← peek
  return token.kind.category == what

/-- Takes the next token if it is of a category, and tells whether it was. -/
def accept (what : Category) : Parser Bool := do
  if ← check what then
    let _ ← take
    return true
  else
    return false

/-- Takes the next token, which has to be of a category. -/
def expect (what : Category) : Parser Token := do
  let token ← take
  if token.kind.category = what then
    return token
  else
    fail (.expected what token.kind) token.span

def typeId : Parser String := do
  let token ← take
  match token.kind with
  | .typeId name => return name
  | found => fail (.expectedTypeId found) token.span

def objectId : Parser String := do
  let token ← take
  match token.kind with
  | .objectId name => return name
  | found => fail (.expectedObjectId found) token.span

/-! ## Repetitions -/

/-- The end of an allowance. -/
def tooDeep : Parser α := do
  fail .nestedTooDeeply (← lastSpan)

/-- Runs a parser with an allowance for all the tokens that are left. -/
def withAllowance (p : Nat → Parser α) : Parser α := fun s =>
  p (8 * (s.ahead.length + 1)) s

/-- Items until a token of a category comes next. -/
def manyUntil (stop : Category) (item : Parser α) : Nat → Parser (List α)
  | 0 => tooDeep
  | n + 1 => do
    if ← check stop then
      return []
    else
      let first ← item
      let more ← manyUntil stop item n
      return first :: more

/-- At least one item, until a token of a category comes next. -/
def someUntil (stop : Category) (item : Parser α) (n : Nat) : Parser (List α) := do
  let first ← item
  let more ← manyUntil stop item n
  return first :: more

/-- An item behind each comma that comes next. -/
def commaItems (item : Parser α) : Nat → Parser (List α)
  | 0 => tooDeep
  | n + 1 => do
    if ← accept (.symbol .comma) then
      let first ← item
      let more ← commaItems item n
      return first :: more
    else
      return []

/-- Items with commas between them, in parentheses. -/
def commaList (item : Parser α) (n : Nat) : Parser (List α) := do
  let _ ← expect (.symbol .parenOpen)
  let items ←
    if ← check (.symbol .parenClose) then
      pure []
    else do
      let first ← item
      let more ← commaItems item n
      pure (first :: more)
  let _ ← expect (.symbol .parenClose)
  return items

end Parser

end Cool
