import Cool.Token.Cursor

/-!
# Looking ahead

A reader of tokens that can look at tokens before it takes them. Tokens that were looked at wait in
a queue, and taking one empties the queue before anything new is read; so looking never changes
what is taken later. A fault is reported by the call that meets it, and not kept.

* `Lookahead.take`, `Lookahead.peek`, `Lookahead.peekAt` : the next token, or a later one;
* `Lookahead.check`, `Lookahead.checkSecond`, `Lookahead.accept`, `Lookahead.expect` : tests for a
  category, the last two taking the token.
-/

namespace Cool

structure Lookahead where
  waiting : List Token
  cursor : Cursor

namespace Lookahead

def ofText (text : String) : Lookahead :=
  ⟨[], Cursor.ofText text.toList⟩

/-- Takes the next token. -/
def take (l : Lookahead) : Except Fault Token × Lookahead :=
  match l.waiting with
  | token :: waiting => (.ok token, { l with waiting })
  | [] =>
    let (result, cursor) := l.cursor.next
    (result, { l with cursor })

/-- Reads tokens from the text until `missing` more wait. -/
def fill (l : Lookahead) : Nat → Except Fault Unit × Lookahead
  | 0 => (.ok (), l)
  | missing + 1 =>
    match l.cursor.next with
    | (.ok token, cursor) => fill ⟨l.waiting ++ [token], cursor⟩ missing
    | (.error fault, cursor) => (.error fault, { l with cursor })

/-- The token that `n` others come before. -/
def peekAt (l : Lookahead) (n : Nat) : Except Fault Token × Lookahead :=
  match l.fill (n + 1 - l.waiting.length) with
  | (.error fault, l) => (.error fault, l)
  | (.ok (), l) => (.ok (l.waiting.getD n l.cursor.endToken), l)

/-- The next token. -/
def peek (l : Lookahead) : Except Fault Token × Lookahead :=
  l.peekAt 0

/-- Whether the token that `n` others come before is of a category. -/
def checkAt (l : Lookahead) (n : Nat) (what : Category) : Except Fault Bool × Lookahead :=
  let (result, l) := l.peekAt n
  (result.map (fun token => token.kind.category == what), l)

/-- Whether the next token is of a category. -/
def check (l : Lookahead) (what : Category) : Except Fault Bool × Lookahead :=
  l.checkAt 0 what

/-- Whether the token behind the next one is of a category. -/
def checkSecond (l : Lookahead) (what : Category) : Except Fault Bool × Lookahead :=
  l.checkAt 1 what

/-- Takes the next token if it is of a category, and tells whether it was. -/
def accept (l : Lookahead) (what : Category) : Except Fault Bool × Lookahead :=
  match l.check what with
  | (.ok true, l) =>
    let (result, l) := l.take
    (result.map (fun _ => true), l)
  | (result, l) => (result, l)

/-- Takes the next token, which has to be of a category. It is taken also if it is not. -/
def expect (l : Lookahead) (what : Category) : Except Fault Token × Lookahead :=
  match l.take with
  | (.ok token, l) =>
    if token.kind.category = what then (.ok token, l)
    else (.error (.grammatical (.expected what token.kind) token.span), l)
  | (.error fault, l) => (.error fault, l)

end Lookahead

end Cool
