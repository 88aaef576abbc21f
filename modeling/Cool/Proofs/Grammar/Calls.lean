import Mathlib.Logic.Basic

/-!
# The calls of a parser

What a parser does is a tree of calls: the turns of its loops and the calls of its routines, each
with the number of tokens that are left when it starts and, if it returns, when it returns. A tree
descends if nothing returns without having taken a token, and if a call inside of another one starts
with fewer tokens left, or with as many and further down the chain from an expression to what it
starts with. There is no room for many calls in such a tree: between one token taken and the next
one, each place in the chain is entered at most once.

* `Step`, `Step.rank` : turns and routines, and how far up the chain they are;
* `CallTree` : a call and the calls inside of it;
* `CallTree.Row` : calls one after the other;
* `CallTree.Descends` : a tree that descends;
* `CallTree.Descends.count_le`, `CallTree.countAll_le` : how many calls there are.
-/

namespace Cool

/-- The loops of the grammar. -/
inductive Loop where
  | classes
  | features
  | formals
  | arguments
  | items
  | branches
  | dispatches
  | operators

/-- The routines that call each other. -/
inductive Routine where
  | expression
  | unary
  | postfixed
  | primary
  | bindings

inductive Step where
  | turn (loop : Loop)
  | call (routine : Routine)

/-- The place in the chain from an expression to what it may start with. Turns and bindings stand at
its top, so that they come below no call that has as many tokens left. -/
def Step.rank : Step → Nat
  | .turn _ => 4
  | .call .bindings => 4
  | .call .expression => 3
  | .call .unary => 2
  | .call .postfixed => 1
  | .call .primary => 0

theorem Step.rank_lt (step : Step) : step.rank < 5 := by
  rcases step with loop | routine
  · exact Nat.lt_succ_self 4
  · cases routine <;> decide

/-- A call, with the tokens that are left when it starts and when it returns, if it does, and with
the calls inside of it. -/
inductive CallTree where
  | node (step : Step) (left : Nat) (rest : Option Nat) (inner : List CallTree)

namespace CallTree

def step : CallTree → Step
  | .node step _ _ _ => step

def left : CallTree → Nat
  | .node _ left _ _ => left

def rest : CallTree → Option Nat
  | .node _ _ rest _ => rest

mutual

/-- The number of calls in a tree. -/
def count : CallTree → Nat
  | .node _ _ _ inner => countAll inner + 1

def countAll : List CallTree → Nat
  | [] => 0
  | c :: cs => c.count + countAll cs

end

variable {left rank mid : Nat} {rest : Option Nat} {c : CallTree} {cs ds : List CallTree}

/-- The call starts with fewer tokens left, or with as many and a lower rank. -/
def Below (left rank : Nat) (c : CallTree) : Prop :=
  c.left < left ∨ c.left = left ∧ c.step.rank < rank

theorem Below.mono {left' rank' : Nat} (h : c.Below left rank) (hleft : left ≤ left')
    (hrank : rank ≤ rank') : c.Below left' rank' := by
  unfold Below at h ⊢
  omega

theorem below_of_le (h : c.left ≤ left) : c.Below left 5 :=
  (Nat.lt_or_eq_of_le h).imp_right fun h => ⟨h, c.step.rank_lt⟩

/-- Calls one after the other, on the way from `left` tokens to `rest`. A call starts where the one
before it has returned, or further on. Where one fails, nothing follows. -/
inductive Row : Nat → List CallTree → Option Nat → Prop
  | nil {left : Nat} {rest : Option Nat} (h : ∀ k ∈ rest, k ≤ left) : Row left [] rest
  | fails {left : Nat} {c : CallTree} (h : c.left ≤ left) (hc : c.rest = none) : Row left [c] none
  | cons {left k : Nat} {rest : Option Nat} {c : CallTree} {cs : List CallTree} (h : c.left ≤ left)
    (hc : c.rest = some k) (hcs : Row k cs rest) : Row left (c :: cs) rest

/-- Nothing in the tree returns without having taken a token, and every call in it is below the call
that it is made from. -/
inductive Descends : CallTree → Prop
  | node {step : Step} {left : Nat} {rest : Option Nat} {inner : List CallTree}
    (takes : ∀ k ∈ rest, k < left) (row : Row left inner rest)
    (below : ∀ c ∈ inner, c.Below left step.rank) (descends : ∀ c ∈ inner, c.Descends) :
    Descends (.node step left rest inner)

/-! ## Rows -/

theorem Row.mono {left' : Nat} (h : Row left cs rest) (hle : left ≤ left') : Row left' cs rest := by
  cases h with
  | nil h => exact .nil fun k hk => Nat.le_trans (h k hk) hle
  | fails h hc => exact .fails (Nat.le_trans h hle) hc
  | cons h hc hcs => exact .cons (Nat.le_trans h hle) hc hcs

theorem Row.append (h : Row left cs (some mid)) (h' : Row mid ds rest) :
    Row left (cs ++ ds) rest := by
  generalize hmid : some mid = stop at h
  induction h with
  | nil h => exact h'.mono (h mid hmid.symm)
  | fails => cases hmid
  | cons h hc _ ih => exact .cons h hc (ih hmid)

/-- From its own place on, the first call of a row may be any call. -/
theorem Row.below_head (h : Row left cs rest) : ∀ c ∈ cs.head?, c.Below left 5 := by
  intro c hc
  cases h with
  | nil => cases hc
  | fails h =>
    cases hc
    exact below_of_le h
  | cons h =>
    cases hc
    exact below_of_le h

/-! ## Counting -/

/-- The calls that are still possible behind a call: five for each token left and for the end. -/
def spare : Option Nat → Nat
  | some k => 5 * k + 5
  | none => 0

theorem Row.spare_le (h : Row left [] rest) : countAll [] + spare rest ≤ spare (some left) := by
  cases h with
  | nil h =>
    cases rest with
    | none => exact Nat.zero_le _
    | some k =>
      have hk : k ≤ left := h k rfl
      rw [countAll, spare, spare]
      omega

/-- What a call is allowed, by its own place and rank, is allowed below another one. -/
theorem Below.bound_le (h : c.Below left rank) (hrank : rank ≤ 5) :
    5 * c.left + c.step.rank + 1 ≤ 5 * left + rank := by
  have hlt := c.step.rank_lt
  unfold Below at h
  omega

/-- A row of calls, if there are any, is no larger than the first of them may be at its place. -/
theorem Row.countAll_le (h : Row left cs rest) (hne : cs ≠ [])
    (hhead : ∀ c ∈ cs.head?, c.Below left rank) (hrank : rank ≤ 5)
    (hcount : ∀ c ∈ cs, c.count + spare c.rest ≤ 5 * c.left + c.step.rank + 1) :
    countAll cs + spare rest ≤ 5 * left + rank := by
  induction h generalizing rank with
  | nil => exact absurd rfl hne
  | @fails left c h hc =>
    have hfirst := Nat.le_trans (hcount c List.mem_cons_self) ((hhead c rfl).bound_le hrank)
    rw [hc] at hfirst
    exact hfirst
  | @cons left k rest c cs h hc hcs ih =>
    have hfirst := Nat.le_trans (hcount c List.mem_cons_self) ((hhead c rfl).bound_le hrank)
    rw [hc] at hfirst
    -- the calls behind it have to do with what it has left
    have hmore : countAll cs + spare rest ≤ spare (some k) := by
      rcases eq_or_ne cs [] with rfl | hmore
      · exact hcs.spare_le
      · exact ih hmore hcs.below_head (Nat.le_refl 5) fun c hc =>
          hcount c (List.mem_cons_of_mem _ hc)
    rw [countAll]
    omega

/-- A tree that descends has at most five calls for each token that it takes. -/
theorem Descends.count_le (h : c.Descends) :
    c.count + spare c.rest ≤ 5 * c.left + c.step.rank + 1 := by
  induction h with
  | @node step left rest inner takes row below _ ih =>
    show countAll inner + 1 + spare rest ≤ 5 * left + step.rank + 1
    rcases eq_or_ne inner [] with rfl | hne
    · -- what returns has taken a token, which pays for the call itself
      cases rest with
      | none => exact Nat.succ_le_succ (Nat.zero_le _)
      | some k =>
        have hk : k < left := takes k rfl
        rw [countAll, spare]
        omega
    · have hinner := row.countAll_le hne (fun c hc => below c (List.mem_of_mem_head? hc))
        (Nat.le_of_lt step.rank_lt) ih
      omega

/-- Trees one after the other have at most five calls for each token and for the end. -/
theorem countAll_le (h : Row left cs rest) (hcs : ∀ c ∈ cs, c.Descends) :
    countAll cs ≤ 5 * (left + 1) := by
  rcases eq_or_ne cs [] with rfl | hne
  · exact Nat.zero_le _
  · have hall := h.countAll_le hne h.below_head (Nat.le_refl 5) fun c hc => (hcs c hc).count_le
    omega

end CallTree

end Cool
