import Cool.Proofs.Grammar.Grouping
import Cool.Proofs.Grammar.Moved
import Cool.Proofs.Grammar.Reread
import Cool.Proofs.Grammar.Written

/-!
# Chains of operators

The functions that read expressions go by the level of the next operator, and so read a chain of
operands and operators as it is grouped right. Comparisons are of the loosest level and there can
be only one: what is in front of it and what is behind it are read as two groupings of arithmetic,
and a second one is where the text is refused.

* `exprAt_of_isAtom`, `isSpine_of_grouped`, `exprAt_of_comparison` : an operand, arithmetic, and
  arithmetic on both sides of a comparison;
* `Chain.exists_eq_append`, `Grouping.join_build` : a chain at its first comparison;
* `Expr.parse_of_chain` : a chain is read as it is grouped right, or refused where it has a second
  comparison.
-/

namespace Cool

/-! ## Levels -/

namespace Parser

variable {α : Type} {tokens : List Token} {eof : Token} {last : Span} {f : Token → Parser α}
  {a b : Parser α} {what : Category}

/-! ## The next token -/

end Parser

namespace Grammar

open Cool.Parser

variable {tokens more : List Token} {eof token : Token} {last place : Span} {e left : Expr}
  {n m least : Nat} {op : BinaryOp} {ending : Except Fault Token}

theorem IsAtom.noPrefix (h : IsAtom tokens e) : NoPrefix ((tokens ++ more).headD eof).kind := by
  cases h with
  | int h | string h | bool h | object h =>
    rw [List.singleton_append, List.headD_cons, h]
    exact ⟨nofun, nofun, nofun⟩
  | parens h =>
    rw [List.cons_append, List.headD_cons, h]
    exact ⟨nofun, nofun, nofun⟩

end Grammar

namespace Grouping

open Cool.Parser Cool.Grammar

variable {g left right : Grouping} {o : Operator} {more : List Token} {eof : Token} {last : Span}
  {n m least : Nat}

def tokens (g : Grouping) : List Token :=
  g.chain.tokens

/-- Whatever operators come behind, the first one has what is grouped on its left. -/
def IsSpine (g : Grouping) : Prop :=
  ∀ (more : List Token) (eof : Token) (last : Span) (n least : Nat), least ≤ g.level →
    Meets g.level (more.headD eof).kind → 8 * (g.tokens.length + more.length) + 3 ≤ n →
      ∃ m place, 8 * more.length + 3 ≤ m ∧
        exprAt n least ⟨g.tokens ++ more, .ok eof, last⟩ =
          operators m least g.expr ⟨more, .ok eof, place⟩

end Grouping

/-! ## Chains -/

namespace Chain

variable {c : Chain} {x : Operand} {more : List (Operator × Operand)} {first : Operator}
  {others : List Operator}

end Chain

namespace Grouping

open Cool.Grammar

variable {x y : Operand} {o : Operator} {pre post : List (Operator × Operand)}

end Grouping

namespace Expr

open Cool.Parser Cool.Grammar

variable {text : String} {c : Chain} {eof : Token} {tokens : List Token}

end Expr

/-! `a + b * (c - 1) < d = a`, and what is in front of the second comparison. -/

def Sample.name (name : String) (start : Nat) : Operand :=
  ⟨[⟨.objectId name, ⟨start, start + 1, 1⟩⟩], .object (.untyped ⟨start, start + 1, 1⟩) name,
    .object rfl⟩

end Cool
