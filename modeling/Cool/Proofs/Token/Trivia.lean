import Cool.Token.Trivia
import Mathlib.Data.List.TakeWhile

/-!
# What is skipped

Blanks and comments as texts, without the reader that skips them.

* `CommentTail` : the rest of a comment, through the sign that closes it;
* `IsTrivia` : a row of blanks and comments, with what stands behind it;
* `Trivia.isTrivia_skip` : only blanks and comments are skipped.
-/

namespace Cool

/-- The rest of a comment inside of `depth` further ones, through its closing sign. The signs are
found from left to right, and each closes or opens one comment. -/
inductive CommentTail : Nat → List Char → Prop
  | close : CommentTail 0 ['*', ')']
  | inner {depth : Nat} {s : List Char} (h : CommentTail (depth + 1) s) :
    CommentTail depth ('(' :: '*' :: s)
  | outer {depth : Nat} {s : List Char} (h : CommentTail depth s) :
    CommentTail (depth + 1) ('*' :: ')' :: s)
  | char {depth : Nat} {c : Char} {s : List Char} (hopen : ¬ ['(', '*'] <+: c :: s)
    (hclose : ¬ ['*', ')'] <+: c :: s) (h : CommentTail depth s) : CommentTail depth (c :: s)

/-- A row of blanks and comments in front of `rest`. A line comment ends with its line, which is
where a line ends or the text does. -/
inductive IsTrivia (rest : List Char) : List Char → Prop
  | nil : IsTrivia rest []
  | blank {c : Char} {s : List Char} (hc : c ∈ [' ', '\t', '\n', '\r', '\x0b', '\x0c'])
    (h : IsTrivia rest s) : IsTrivia rest (c :: s)
  | line {body s : List Char} (hbody : '\n' ∉ body) (hend : ∀ c ∈ (s ++ rest).head?, c = '\n')
    (h : IsTrivia rest s) : IsTrivia rest ('-' :: '-' :: (body ++ s))
  | comment {body s : List Char} (hbody : CommentTail 0 body) (h : IsTrivia rest s) :
    IsTrivia rest ('(' :: '*' :: (body ++ s))

/-- What `blockComment` reads is a comment. -/
theorem commentTail_of_blockComment {depth : Nat} {s body rest : List Char}
    (h : blockComment depth s = some (body, rest)) : CommentTail depth body := by
  fun_induction blockComment depth s generalizing body rest with
  | case1 => cases h
  | case2 depth s ih =>
    obtain ⟨⟨b, r⟩, hb, he⟩ := Option.map_eq_some_iff.mp h
    cases he
    exact .inner (ih hb)
  | case3 s =>
    cases h
    exact .close
  | case4 depth s ih =>
    obtain ⟨⟨b, r⟩, hb, he⟩ := Option.map_eq_some_iff.mp h
    cases he
    exact .outer (ih hb)
  | case5 depth c s hopen hclose hclose' ih =>
    obtain ⟨⟨b, r⟩, hb, he⟩ := Option.map_eq_some_iff.mp h
    cases he
    have hs := blockComment_append hb
    refine .char ?_ ?_ (ih hb)
    · rintro ⟨t, ht⟩
      cases ht
      exact hopen _ rfl hs.symm
    · rintro ⟨t, ht⟩
      cases ht
      cases depth with
      | zero => exact hclose _ rfl rfl hs.symm
      | succ depth => exact hclose' _ _ rfl rfl hs.symm

/-- A piece that is skipped is one blank or comment. -/
theorem Trivia.isTrivia_of_piece? {s piece rest more : List Char}
    (h : Trivia.piece? s = some (piece, more ++ rest)) (hmore : IsTrivia rest more) :
    IsTrivia rest (piece ++ more) := by
  unfold piece? at h
  split at h
  · rename_i s
    obtain ⟨rfl, hs⟩ := Prod.mk.inj (Option.some.inj h)
    refine .line ?_ ?_ hmore
    · exact fun hmem => by simpa using List.mem_takeWhile_imp hmem
    · intro c hc
      rw [← hs, ← List.find?_not_eq_head?_dropWhile] at hc
      simpa using List.find?_some hc
  · rename_i s
    obtain ⟨⟨body, after⟩, hbody, he⟩ := Option.map_eq_some_iff.mp h
    cases he
    exact .comment (commentTail_of_blockComment hbody) hmore
  · rename_i c s _ _
    split at h
    · rename_i hblank
      cases h
      exact .blank (by simpa [isBlank, or_assoc] using hblank) hmore
    · cases h
  · cases h

theorem Trivia.isTrivia_skip (s : List Char) : IsTrivia (skip s).2 (skip s).1 := by
  fun_induction skip s with
  | case1 => exact .nil
  | case2 s piece rest h _ more after hmore ih =>
    rw [hmore] at ih
    have hrest := skip_append rest
    rw [hmore] at hrest
    exact isTrivia_of_piece? (hrest.symm ▸ h) ih

end Cool
