import Cool.Grammar.Parser

/-!
# What parsers give

A property of all that a parser may give, whatever it is run on. It is handed through the
combinators, so that a parser gives what its parts are put together to.

* `Parser.Gives` : all results of a parser have a property;
* `Gives.bind`, `gives_commaList`, ... : the combinators.
-/

namespace Cool

namespace Parser

variable {α β : Type} {P : α → Prop} {Q : β → Prop} {p : Parser α} {f : α → Parser β}

theorem bind_of_eq_ok {s s' : Stream} {x : α} (hp : p s = .ok (x, s')) :
    (p >>= f) s = f x s' := by
  show (p s >>= fun r => f r.1 r.2) = _
  rw [hp]
  rfl

theorem bind_of_eq_error {s : Stream} {fault : Fault} (hp : p s = .error fault) :
    (p >>= f) s = .error fault := by
  show (p s >>= fun r => f r.1 r.2) = _
  rw [hp]
  rfl

/-- All results of a parser have a property. -/
def Gives (P : α → Prop) (p : Parser α) : Prop :=
  ∀ s x s', p s = .ok (x, s') → P x

theorem gives_pure {x : α} (h : P x) : Gives P (pure x) := by
  intro s y s' hy
  cases hy
  exact h

theorem gives_fail (error : GrammarError) (span : Span) : Gives P (fail error span) := by
  intro s x s' hx
  cases hx

theorem Gives.bind (hp : Gives P p) (hf : ∀ x, P x → Gives Q (f x)) : Gives Q (p >>= f) := by
  intro s y s' hy
  cases hrun : p s with
  | error fault =>
    rw [bind_of_eq_error hrun] at hy
    cases hy
  | ok r =>
    rw [bind_of_eq_ok hrun] at hy
    exact hf r.1 (hp s r.1 r.2 hrun) r.2 y s' hy

/-- A parser that goes on in any case. -/
theorem gives_after (hf : ∀ x, Gives Q (f x)) : Gives Q (p >>= f) :=
  Gives.bind (P := fun _ => True) (fun _ _ _ _ => trivial) fun x _ => hf x

theorem Gives.map {g : α → β} (hp : Gives P p) (hg : ∀ x, P x → Q (g x)) : Gives Q (g <$> p) := by
  rw [map_eq_pure_bind]
  exact hp.bind fun x hx => gives_pure (hg x hx)

theorem gives_ite {c : Prop} [Decidable c] {p q : Parser α} (hp : Gives P p) (hq : Gives P q) :
    Gives P (if c then p else q) := by
  split
  · exact hp
  · exact hq

theorem gives_tooDeep : Gives P tooDeep :=
  gives_after fun _ => gives_fail _ _

theorem gives_withAllowance {p : Nat → Parser α} (hp : ∀ n, Gives P (p n)) :
    Gives P (withAllowance p) :=
  fun s => hp _ s

/-! ## Repetitions -/

theorem gives_manyUntil (stop : Category) (hp : Gives P p) :
    ∀ n, Gives (∀ x ∈ ·, P x) (manyUntil stop p n)
  | 0 => gives_tooDeep
  | n + 1 => gives_after fun _ =>
    gives_ite (gives_pure (List.forall_mem_nil _)) <|
      hp.bind fun _ hx => (gives_manyUntil stop hp n).bind fun _ hxs =>
        gives_pure (List.forall_mem_cons.mpr ⟨hx, hxs⟩)

theorem gives_someUntil (stop : Category) (hp : Gives P p) (n : Nat) :
    Gives (fun xs => xs ≠ [] ∧ ∀ x ∈ xs, P x) (someUntil stop p n) :=
  hp.bind fun x hx => (gives_manyUntil stop hp n).bind fun xs hxs =>
    gives_pure ⟨List.cons_ne_nil x xs, List.forall_mem_cons.mpr ⟨hx, hxs⟩⟩

theorem gives_commaItems (hp : Gives P p) : ∀ n, Gives (∀ x ∈ ·, P x) (commaItems p n)
  | 0 => gives_tooDeep
  | n + 1 => gives_after fun _ =>
    gives_ite
      (hp.bind fun _ hx => (gives_commaItems hp n).bind fun _ hxs =>
        gives_pure (List.forall_mem_cons.mpr ⟨hx, hxs⟩))
      (gives_pure (List.forall_mem_nil _))

theorem gives_commaList (hp : Gives P p) (n : Nat) : Gives (∀ x ∈ ·, P x) (commaList p n) := by
  unfold commaList
  refine gives_after fun _ => gives_after fun _ => ?_
  -- both branches go on to the parenthesis that closes
  extract_lets close
  have hclose : ∀ xs, (∀ x ∈ xs, P x) → Gives (∀ x ∈ ·, P x) (close xs) :=
    fun _ hxs => gives_after fun _ => gives_pure hxs
  refine gives_ite ((gives_pure (List.forall_mem_nil _)).bind hclose) ?_
  refine hp.bind fun x hx => (gives_commaItems hp n).bind fun xs hxs => ?_
  exact (gives_pure (List.forall_mem_cons.mpr ⟨hx, hxs⟩)).bind hclose

end Parser

end Cool
