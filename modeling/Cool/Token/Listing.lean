import Cool.Token.Cursor

/-!
# Listings of tokens

The tokens of a text, one on each line with the number of its source line.
-/

namespace Cool

def Token.line (token : Token) : String :=
  "#" ++ toString token.span.line ++ " " ++ token.kind.describe ++ "\n"

/-- The listing of a text, the end token last, or the first fault. -/
def listTokens (text : String) : Except Fault String := do
  let tokens ← tokenize text
  return String.join (tokens.map Token.line)

end Cool
