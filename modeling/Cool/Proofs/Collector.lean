import Cool.Diagnostic.Collector

/-!
# What a collector keeps

A collector drops what comes once it is halted, so it holds the first of all the diagnostics that it
was offered, as many as its limit allows and one more. That it drops nothing else is what makes a
limited analysis tell the truth about the unlimited one.

* `Collector.keep`, `Collector.offered` : what is kept of a list, and the collector that was offered
  it;
* `extend_offered` : offering more;
* `halted_offered_iff` : when it is halted.
-/

namespace Cool

namespace Collector

variable {limit : Option Nat} {all ds : List Diagnostic} {c : Collector}

/-- What is kept of diagnostics under a limit. -/
def keep (limit : Option Nat) (all : List Diagnostic) : List Diagnostic :=
  match limit with
  | none => all
  | some k => all.take (k + 1)

theorem mem_of_mem_keep {limit : Option Nat} {all : List Diagnostic} {d : Diagnostic}
    (hd : d ∈ keep limit all) : d ∈ all := by
  cases limit with
  | none => exact hd
  | some k => exact List.mem_of_mem_take hd

/-- The collector that was offered these diagnostics and no others. -/
def offered (limit : Option Nat) (all : List Diagnostic) : Collector :=
  ⟨limit, keep limit all⟩

theorem empty_eq_offered (limit : Option Nat) : empty limit = offered limit [] := by
  cases limit <;> rfl

/-- Without a limit nothing is dropped. -/
theorem eq_offered (h : c.limit = none) : c = offered none c.entries := by
  cases c
  cases h
  rfl

theorem halted_offered_iff :
    (offered limit all).halted = true ↔ ∃ k, limit = some k ∧ k < all.length := by
  unfold halted offered keep
  cases limit with
  | none => simp
  | some k =>
    simp only [Option.any_some, decide_eq_true_eq, List.length_take, Option.some.injEq,
      exists_eq_left']
    omega

theorem push_offered (limit : Option Nat) (all : List Diagnostic) (d : Diagnostic) :
    (offered limit all).push d = offered limit (all ++ [d]) := by
  unfold push
  by_cases hhalted : (offered limit all).halted = true
  · rw [if_pos hhalted]
    obtain ⟨k, rfl, hk⟩ := halted_offered_iff.mp hhalted
    unfold offered keep
    dsimp only
    rw [List.take_append_of_le_length (by omega)]
  · rw [if_neg hhalted]
    unfold offered keep
    cases limit with
    | none => rfl
    | some k =>
      have hk : all.length ≤ k :=
        Nat.le_of_not_lt fun hlt => hhalted (halted_offered_iff.mpr ⟨k, rfl, hlt⟩)
      dsimp only
      rw [List.take_of_length_le (by omega), List.take_of_length_le (by simp; omega)]

theorem extend_offered (limit : Option Nat) :
    ∀ ds all : List Diagnostic, (offered limit all).extend ds = offered limit (all ++ ds)
  | [], all => by rw [List.append_nil, extend, List.foldl_nil]
  | d :: ds, all => by
    show ((offered limit all).push d).extend ds = _
    rw [push_offered, extend_offered limit ds, List.append_assoc]
    rfl

/-- A halted collector stays as it is. -/
theorem offered_append_of_halted (h : (offered limit all).halted = true) (ds : List Diagnostic) :
    offered limit (all ++ ds) = offered limit all := by
  obtain ⟨k, rfl, hk⟩ := halted_offered_iff.mp h
  unfold offered keep
  dsimp only
  rw [List.take_append_of_le_length (by omega)]

theorem entries_extend (h : c.limit = none) : (c.extend ds).entries = c.entries ++ ds := by
  rw [eq_offered h, extend_offered]
  rfl

end Collector

end Cool
