import Cool.Token.Lexeme
import Cool.Token.Trivia

/-!
# Reading tokens from a text

A `Cursor` is a place in a source text with the text that is left there. `Cursor.next` skips
trivia and reads one lexeme. A lexeme that is no token gives a fault, and the cursor stands behind
it all the same: a caller may go on and collect further faults. At the end of the text the end
token is read again and again.

* `Cursor.ofText`, `Cursor.past` : the start of a text, and a place further on;
* `Cursor.next` : the next token or fault, and the place behind it;
* `Cursor.results` : everything before the end of the text, and the end token;
* `results`, `tokenize` : the same for a whole text; the second stops at the first fault.
-/

namespace Cool

structure Cursor where
  offset : Nat
  line : Nat
  rest : List Char

def Cursor.ofText (text : List Char) : Cursor :=
  ⟨0, 1, text⟩

/-- The place behind `text`, where `rest` is left. -/
def Cursor.past (c : Cursor) (text rest : List Char) : Cursor :=
  ⟨c.offset + Text.bytes text, c.line + Text.newlines text, rest⟩

/-- The span of a text that starts here. -/
def Cursor.spanOf (c : Cursor) (text : List Char) : Span :=
  ⟨c.offset, c.offset + Text.bytes text, c.line⟩

def Cursor.skipTrivia (c : Cursor) : Cursor :=
  c.past (Trivia.skip c.rest).1 (Trivia.skip c.rest).2

theorem Cursor.length_rest_skipTrivia (c : Cursor) :
    c.skipTrivia.rest.length ≤ c.rest.length := by
  have h := congrArg List.length (Trivia.skip_append c.rest)
  simp only [List.length_append] at h
  simp only [Cursor.skipTrivia, Cursor.past]
  omega

/-- The token of the end of the text, or the fault or token of a lexeme. -/
def Cursor.read (c : Cursor) (lexeme : Lexeme) : Except Fault Token :=
  match lexeme.outcome with
  | .ok kind => .ok ⟨kind, c.spanOf lexeme.text⟩
  | .error error => .error (.lexical error (c.spanOf lexeme.text))

def Cursor.endToken (c : Cursor) : Token :=
  ⟨.endOfFile, c.spanOf []⟩

/-- The next token or fault, and the place behind it. -/
def Cursor.next (c : Cursor) : Except Fault Token × Cursor :=
  let c := c.skipTrivia
  match c.rest with
  | [] => (.ok c.endToken, c)
  | ch :: s =>
    let lexeme := Lexeme.first ch s
    (c.read lexeme, c.past lexeme.text lexeme.rest)

/-- The tokens and faults of the text that is left, and the end token behind them. -/
def Cursor.results (c : Cursor) : List (Except Fault Token) × Token :=
  match h : c.skipTrivia.rest with
  | [] => ([], c.skipTrivia.endToken)
  | ch :: s =>
    let lexeme := Lexeme.first ch s
    have : lexeme.rest.length < c.rest.length := by
      have h1 := Lexeme.length_rest_first ch s
      have h2 := c.length_rest_skipTrivia
      simp only [h, List.length_cons] at h2
      have : lexeme.rest.length = (Lexeme.first ch s).rest.length := rfl
      omega
    let (more, last) := (c.skipTrivia.past lexeme.text lexeme.rest).results
    (c.skipTrivia.read lexeme :: more, last)
termination_by c.rest.length

/-- The tokens and faults of a text, and its end token. -/
def results (text : String) : List (Except Fault Token) × Token :=
  (Cursor.ofText text.toList).results

/-- The tokens of a text, the end token last, or the first fault. -/
def tokenize (text : String) : Except Fault (List Token) := do
  let (found, last) := results text
  let tokens ← found.mapM id
  return tokens ++ [last]

end Cool
