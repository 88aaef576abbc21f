import Cool.Source.Span

/-!
# Blanks and comments

The text between tokens. A comment runs from two hyphens to the end of the line, or from `(*` to
the `*)` that closes it; the second sort nests. Inside, opening and closing signs are taken from
left to right and share no character, so that `(*)` opens and does not close.

* `blockComment` : the body of a comment whose opening sign has been read, through its last sign;
* `Trivia.piece?` : one blank or comment at the front of a text;
* `Trivia.skip` : all of them, and the rest, which starts with a token, with text that is none, or
  with a comment that is never closed.
-/

namespace Cool

/-- The blanks: space, tab, line end, carriage return, vertical tab, form feed. -/
def isBlank (c : Char) : Bool :=
  c = ' ' || c = '\t' || c = '\n' || c = '\r' || c = '\x0b' || c = '\x0c'

/-- The rest of a comment inside of `depth` further ones, through its closing sign, and what
follows it; nothing if the text ends before. -/
def blockComment : Nat → List Char → Option (List Char × List Char)
  | _, [] => none
  | depth, '(' :: '*' :: s =>
    (blockComment (depth + 1) s).map fun (body, rest) => ('(' :: '*' :: body, rest)
  | 0, '*' :: ')' :: s => some (['*', ')'], s)
  | depth + 1, '*' :: ')' :: s =>
    (blockComment depth s).map fun (body, rest) => ('*' :: ')' :: body, rest)
  | depth, c :: s =>
    (blockComment depth s).map fun (body, rest) => (c :: body, rest)

/-- One blank or comment at the front of a text, and what follows it. -/
def Trivia.piece? : List Char → Option (List Char × List Char)
  | '-' :: '-' :: s => some ('-' :: '-' :: s.takeWhile (· ≠ '\n'), s.dropWhile (· ≠ '\n'))
  | '(' :: '*' :: s => (blockComment 0 s).map fun (body, rest) => ('(' :: '*' :: body, rest)
  | c :: s => if isBlank c then some ([c], s) else none
  | [] => none

theorem blockComment_append {depth : Nat} {s body rest : List Char}
    (h : blockComment depth s = some (body, rest)) : body ++ rest = s := by
  fun_induction blockComment depth s generalizing body rest with
  | case1 => simp at h
  | case2 depth s ih =>
    obtain ⟨⟨b, r⟩, hb, he⟩ := Option.map_eq_some_iff.1 h
    obtain ⟨rfl, rfl⟩ := Prod.mk.inj he
    simp [ih hb]
  | case3 s =>
    obtain ⟨rfl, rfl⟩ := Prod.mk.inj (Option.some.inj h)
    rfl
  | case4 depth s ih =>
    obtain ⟨⟨b, r⟩, hb, he⟩ := Option.map_eq_some_iff.1 h
    obtain ⟨rfl, rfl⟩ := Prod.mk.inj he
    simp [ih hb]
  | case5 depth c s _ _ _ ih =>
    obtain ⟨⟨b, r⟩, hb, he⟩ := Option.map_eq_some_iff.1 h
    obtain ⟨rfl, rfl⟩ := Prod.mk.inj he
    simp [ih hb]

/-- A piece of trivia is not empty, and with the rest it makes up the text. -/
theorem Trivia.piece?_append {s piece rest : List Char}
    (h : Trivia.piece? s = some (piece, rest)) : piece ≠ [] ∧ piece ++ rest = s := by
  fun_cases Trivia.piece? s with
  | case1 s =>
    obtain ⟨rfl, rfl⟩ := Prod.mk.inj (Option.some.inj h)
    exact ⟨by simp, by simp [List.takeWhile_append_dropWhile]⟩
  | case2 s =>
    obtain ⟨⟨b, r⟩, hb, he⟩ := Option.map_eq_some_iff.1 h
    obtain ⟨rfl, rfl⟩ := Prod.mk.inj he
    exact ⟨by simp, by simp [blockComment_append hb]⟩
  | case3 c s _ _ hc =>
    simp only [Trivia.piece?, hc] at h
    obtain ⟨rfl, rfl⟩ := Prod.mk.inj (Option.some.inj h)
    exact ⟨by simp, rfl⟩
  | case4 c s _ _ hc => simp_all [Trivia.piece?]
  | case5 => simp [Trivia.piece?] at h

theorem Trivia.length_of_piece? {s piece rest : List Char}
    (h : Trivia.piece? s = some (piece, rest)) : rest.length < s.length := by
  obtain ⟨hne, rfl⟩ := Trivia.piece?_append h
  have := List.length_pos_iff.2 hne
  simp only [List.length_append]
  omega

/-- The blanks and comments at the front of a text, and what follows them. -/
def Trivia.skip (s : List Char) : List Char × List Char :=
  match h : Trivia.piece? s with
  | none => ([], s)
  | some (piece, rest) =>
    have := Trivia.length_of_piece? h
    let (more, after) := Trivia.skip rest
    (piece ++ more, after)
termination_by s.length

theorem Trivia.skip_append (s : List Char) : (Trivia.skip s).1 ++ (Trivia.skip s).2 = s := by
  fun_induction Trivia.skip s with
  | case1 s h => rfl
  | case2 s piece rest h hlt more after hm ih =>
    rw [hm] at ih
    rw [List.append_assoc, ih]
    exact (Trivia.piece?_append h).2

end Cool
