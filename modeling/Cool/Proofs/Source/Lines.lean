import Cool.Source.Lines

/-!
# Places on lines

The line of a place is one more than the number of line ends in front of it. Reading counts line
ends as it passes them, and a table of line starts is asked for any place, so that the two agree.

* `Lines.lineOf_bytes` : the line of the place behind a text.
-/

namespace Cool

/-- Every line but the first starts behind the place where the counting starts. -/
theorem Lines.lt_of_mem_startsFrom {x : Nat} : ∀ {offset : Nat} {s : List Char},
    x ∈ Lines.startsFrom offset s → offset < x
  | offset, c :: s, h => by
    have hc := c.utf8Size_pos
    rw [startsFrom] at h
    split at h
    · rcases List.mem_cons.mp h with rfl | h
      · exact Nat.lt_succ_self offset
      · exact Nat.lt_of_succ_lt (lt_of_mem_startsFrom h)
    · exact Nat.lt_of_le_of_lt (Nat.le_add_right _ _) (lt_of_mem_startsFrom h)

/-- Of the lines that start in `before ++ rest`, one for each line end of `before` has started where
`before` ends. -/
theorem Lines.length_filter_startsFrom (rest : List Char) : ∀ (offset : Nat) (before : List Char),
    ((Lines.startsFrom offset (before ++ rest)).filter (· ≤ offset + Text.bytes before)).length =
      Text.newlines before
  | offset, [] => by
    refine List.length_eq_zero_iff.mpr (List.filter_eq_nil_iff.mpr fun x hx => ?_)
    rw [decide_eq_true_eq]
    exact Nat.not_le.mpr (lt_of_mem_startsFrom hx)
  | offset, c :: before => by
    rw [List.cons_append, startsFrom, Text.bytes_cons, Text.newlines, List.count_cons]
    by_cases hc : c = '\n'
    · subst hc
      have hsize : '\n'.utf8Size = 1 := rfl
      have ih := length_filter_startsFrom rest (offset + 1) before
      rw [if_pos rfl, hsize, ← Nat.add_assoc, List.filter_cons_of_pos (by simp), List.length_cons,
        ih]
      rfl
    · have ih := length_filter_startsFrom rest (offset + c.utf8Size) before
      rw [if_neg hc, ← Nat.add_assoc, ih]
      simp [hc, Text.newlines]

/-- A place lies behind as many line ends as its line says. -/
theorem Lines.lineOf_bytes (before rest : List Char) :
    (Lines.ofText (before ++ rest)).lineOf (Text.bytes before) = 1 + Text.newlines before := by
  have h := length_filter_startsFrom rest 0 before
  rw [Nat.zero_add] at h
  rw [lineOf, ofText, List.filter_cons_of_pos (by simp), List.length_cons, h, Nat.add_comm]

end Cool
