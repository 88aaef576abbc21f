import Cool.Token.Kind

/-!
# What stops the reading of a source

A source is refused at its first fault. A fault has a cause and the span that the cause is about;
the wording is in `LexicalError.message` and `GrammarError.message`, nowhere else.

* `LexicalError` : text that is no token;
* `GrammarError` : a token where another one has to stand;
* `Fault`, `Fault.message` : a cause with its place, and the line that reports it.
-/

namespace Cool

inductive LexicalError where
  | integerTooLarge (digits : String)
  | unexpected (c : Char)
  | commentUnclosed
  | commentUnopened
  | stringUnclosed
  | stringHasNull
  | stringHasEscapedNull
  | stringTooLong
  deriving DecidableEq

def LexicalError.message : LexicalError → String
  | .integerTooLarge digits => "integer constant " ++ digits ++ " is too large"
  | .unexpected c => "unexpected character '" ++ String.singleton c ++ "'"
  | .commentUnclosed => "EOF in comment"
  | .commentUnopened => "unmatched '*)'"
  | .stringUnclosed => "unterminated string constant"
  | .stringHasNull => "string contains null character"
  | .stringHasEscapedNull => "string contains escaped null character"
  | .stringTooLong => "string constant too long"

inductive GrammarError where
  | expected (what : Category) (found : Kind)
  | expectedTypeId (found : Kind)
  | expectedObjectId (found : Kind)
  | expectedExpr (found : Kind)
  | comparisonChain (found : Kind)
  /-- The reader's allowance of nested steps is used up. The allowance grows with the number of
  tokens, so that no source uses it up. -/
  | nestedTooDeeply
  deriving DecidableEq

def GrammarError.message : GrammarError → String
  | .expected what found => "expected " ++ what.describe ++ ", found " ++ found.describe
  | .expectedTypeId found => "expected type identifier, found " ++ found.describe
  | .expectedObjectId found => "expected identifier, found " ++ found.describe
  | .expectedExpr found => "expected expression, found " ++ found.describe
  | .comparisonChain found =>
    "comparison operators do not associate, found " ++ found.describe
  | .nestedTooDeeply => "nested too deeply"

inductive Fault where
  | lexical (error : LexicalError) (span : Span)
  | grammatical (error : GrammarError) (span : Span)
  deriving DecidableEq

def Fault.span : Fault → Span
  | .lexical _ span => span
  | .grammatical _ span => span

/-- What is wrong, without its place. -/
def Fault.detail : Fault → String
  | .lexical error _ => error.message
  | .grammatical error _ => error.message

/-- What is wrong, and on which line. -/
def Fault.message (f : Fault) : String :=
  let stage := match f with
    | .lexical _ _ => "Lexer"
    | .grammatical _ _ => "Parser"
  stage ++ " error at line " ++ toString f.span.line ++ ": " ++ f.detail

end Cool
