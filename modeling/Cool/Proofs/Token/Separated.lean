import Cool.Proofs.Token.Spaced
import Cool.Proofs.Token.Spelled
import Cool.Proofs.Token.Trivia

/-!
# Texts with any spacing

Spellings are read back whatever blanks and comments stand between them, if a blank stands behind
each of them.

* `Filler`, `IsSeparator` : rows of blanks and comments, and those that start with a blank;
* `blockComment_of_commentTail`, `Filler.skip_append` : all of such a row is skipped;
* `Renders` : a text of spellings with separators between them;
* `tokenize_of_renders` : it is read as the tokens that are spelled, and nothing else.
-/

namespace Cool

/-- A row of blanks and comments, in which each line comment ends with its line. -/
inductive Filler : List Char → Prop
  | nil : Filler []
  | blank {c : Char} {s : List Char} (hc : isBlank c = true) (h : Filler s) : Filler (c :: s)
  | line {body s : List Char} (hbody : '\n' ∉ body) (h : Filler s) :
    Filler ('-' :: '-' :: (body ++ '\n' :: s))
  | comment {body s : List Char} (hbody : CommentTail 0 body) (h : Filler s) :
    Filler ('(' :: '*' :: (body ++ s))

/-- A row of blanks and comments that starts with a blank. -/
def IsSeparator (s : List Char) : Prop :=
  s.head?.any isBlank = true ∧ Filler s

/-- A text of tokens: a spelling of each, with a separator behind it. There may be none behind the
last. -/
inductive Renders : List Kind → List Char → Prop
  | nil : Renders [] []
  | cons {word gap text : List Char} {k : Kind} {ks : List Kind} (hspells : Spells word k)
    (hgap : IsSeparator gap ∨ gap = [] ∧ ks = []) (hmore : Renders ks text) :
    Renders (k :: ks) (word ++ (gap ++ text))

/-! ## Comments -/

theorem CommentTail.ne_nil {depth : Nat} {s : List Char} (h : CommentTail depth s) : s ≠ [] := by
  cases h <;> exact List.cons_ne_nil _ _

/-- A comment is read to the sign that closes it, whatever stands behind. -/
theorem blockComment_of_commentTail {depth : Nat} {body : List Char} (h : CommentTail depth body)
    (rest : List Char) : blockComment depth (body ++ rest) = some (body, rest) := by
  induction h with
  | close => rfl
  | inner _ ih =>
    rw [List.cons_append, List.cons_append, blockComment, ih]
    rfl
  | outer _ ih =>
    rw [List.cons_append, List.cons_append, blockComment, ih]
    rfl
  | @char depth c s hopen hclose h ih =>
    -- what follows the character is in the body, so that no sign reaches over its end
    obtain ⟨d, s, rfl⟩ := List.exists_cons_of_ne_nil h.ne_nil
    have hnotOpen : ∀ t, c = '(' → d :: s ++ rest = '*' :: t → False := by
      rintro t rfl heq
      exact hopen ⟨s, by rw [(List.cons.inj heq).1]; rfl⟩
    have hnotClose : ∀ t, c = '*' → d :: s ++ rest = ')' :: t → False := by
      rintro t rfl heq
      exact hclose ⟨s, by rw [(List.cons.inj heq).1]; rfl⟩
    rw [List.cons_append, blockComment, ih]
    · rfl
    · exact hnotOpen
    · exact fun t _ => hnotClose t
    · exact fun _ t _ => hnotClose t

/-! ## Skipping -/

namespace Trivia

variable {s piece rest : List Char}

theorem skip_of_piece? (h : piece? s = some (piece, rest)) :
    skip s = (piece ++ (skip rest).1, (skip rest).2) := by
  rw [skip]
  split
  · rename_i hnone
    rw [h] at hnone
    cases hnone
  · rename_i hsome
    rw [h] at hsome
    cases hsome
    rfl

theorem piece?_of_isBlank {c : Char} (hc : isBlank c = true) (s : List Char) :
    piece? (c :: s) = some ([c], s) := by
  rcases cases_isBlank hc with rfl | rfl | rfl | rfl | rfl | rfl <;> rfl

theorem piece?_line {body : List Char} (hbody : '\n' ∉ body) (s : List Char) :
    piece? ('-' :: '-' :: (body ++ '\n' :: s)) = some ('-' :: '-' :: body, '\n' :: s) := by
  have hinside : ∀ c ∈ body, decide (c ≠ '\n') = true := by
    intro c hc
    rw [decide_eq_true_eq]
    rintro rfl
    exact hbody hc
  rw [piece?, List.takeWhile_append_of_pos hinside, List.dropWhile_append_of_pos hinside,
    List.takeWhile_cons_of_neg (by decide), List.dropWhile_cons_of_neg (by decide),
    List.append_nil]

theorem piece?_comment {body : List Char} (hbody : CommentTail 0 body) (s : List Char) :
    piece? ('(' :: '*' :: (body ++ s)) = some ('(' :: '*' :: body, s) := by
  rw [piece?, blockComment_of_commentTail hbody]
  rfl

end Trivia

/-- A row of blanks and comments is skipped, and what stands behind it as if it were not there. -/
theorem Filler.skip_append {s : List Char} (h : Filler s) (rest : List Char) :
    (Trivia.skip (s ++ rest)).2 = (Trivia.skip rest).2 := by
  induction h with
  | nil => rfl
  | blank hc _ ih =>
    rw [List.cons_append, Trivia.skip_of_piece? (Trivia.piece?_of_isBlank hc _)]
    exact ih
  | @line body s hbody _ ih =>
    rw [List.cons_append, List.cons_append, List.append_assoc, List.cons_append,
      Trivia.skip_of_piece? (Trivia.piece?_line hbody _),
      Trivia.skip_of_piece? (Trivia.piece?_of_isBlank rfl _)]
    exact ih
  | @comment body s hbody _ ih =>
    rw [List.cons_append, List.cons_append, List.append_assoc,
      Trivia.skip_of_piece? (Trivia.piece?_comment hbody _)]
    exact ih

/-! ## Texts -/

theorem IsSeparator.detached {gap : List Char} (h : IsSeparator gap) (rest : List Char) :
    Detached (gap ++ rest) := by
  obtain ⟨hblank, -⟩ := h
  cases gap with
  | nil => cases hblank
  | cons c gap =>
    rintro d ⟨⟩
    exact hblank

namespace Renders

variable {word gap text : List Char} {k : Kind} {ks : List Kind}

/-- Behind a spelling there is a blank, or the text ends. -/
theorem detached (hgap : IsSeparator gap ∨ gap = [] ∧ ks = []) (hmore : Renders ks text) :
    Detached (gap ++ text) := by
  rcases hgap with hgap | ⟨rfl, rfl⟩
  · exact hgap.detached text
  · cases hmore
    exact nofun

/-- Nothing is skipped in front of the first spelling. -/
theorem skip_eq (h : Renders ks text) : Trivia.skip text = ([], text) := by
  cases h with
  | nil => exact skip_of_piece?_eq_none rfl
  | cons hspells hgap hmore => exact hspells.skip_eq (detached hgap hmore)

theorem skip_gap (hgap : IsSeparator gap ∨ gap = [] ∧ ks = []) (hmore : Renders ks text) :
    (Trivia.skip (gap ++ text)).2 = text := by
  have htext := congrArg Prod.snd hmore.skip_eq
  rcases hgap with ⟨-, hfiller⟩ | ⟨rfl, -⟩
  · exact (hfiller.skip_append text).trans htext
  · exact htext

/-- Reading on from any place where a text of tokens is next. -/
theorem exists_results (h : Renders ks text) : ∀ {cursor : Cursor},
    (Trivia.skip cursor.rest).2 = text → ∃ (tokens : List Token) (eof : Token),
      cursor.results = (tokens.map .ok, eof) ∧ tokens.map Token.kind = ks ∧
        eof.kind = .endOfFile := by
  induction h with
  | nil =>
    intro cursor hcursor
    exact ⟨[], _, Cursor.results_of_end hcursor, rfl, rfl⟩
  | cons hspells hgap hmore ih =>
    intro cursor hcursor
    obtain ⟨token, behind, hk, hbehind, hresults⟩ :=
      Cursor.exists_results_of_spells hspells hcursor (detached hgap hmore)
    obtain ⟨tokens, eof, hmore', hks, heof⟩ := ih (hbehind ▸ skip_gap hgap hmore)
    refine ⟨token :: tokens, eof, ?_, congrArg₂ _ hk hks, heof⟩
    rw [hresults, hmore']
    rfl

end Renders

/-- A text of tokens is read as these tokens and the end of the text, whatever blanks and comments
stand between them. -/
theorem tokenize_of_renders {ks : List Kind} {text : List Char} (h : Renders ks text) :
    ∃ (tokens : List Token) (eof : Token),
      tokenize (String.ofList text) = .ok (tokens ++ [eof]) ∧ tokens.map Token.kind = ks ∧
        eof.kind = .endOfFile := by
  have hskip : (Trivia.skip (Cursor.ofText text).rest).2 = text := congrArg Prod.snd h.skip_eq
  obtain ⟨tokens, eof, hresults, hks, heof⟩ := h.exists_results hskip
  refine ⟨tokens, eof, ?_, hks, heof⟩
  rw [tokenize, results, String.toList_ofList, hresults]
  dsimp only
  rw [mapM_id_map_ok]
  rfl

/-- Between the signs there are a comment that holds a comment, hyphens and a quote, and then a line
whose comment holds the sign that opens one. -/
theorem tokenize_comments_between :
    let comment := [' ', '(', '*', '(', '*', '-', '-', '*', ')', '"', '*', ')']
    let line := ['\n', '-', '-', '(', '*', '\n']
    let text := ['<'] ++ (comment ++ (['<', '-'] ++ (line ++ ['t', 'R', 'U', 'E'])))
    let ks := [.symbol .lt, .symbol .assign, .bool true]
    Renders ks text ∧ ∃ (tokens : List Token) (eof : Token),
      tokenize (String.ofList text) = .ok (tokens ++ [eof]) ∧ tokens.map Token.kind = ks ∧
        eof.kind = .endOfFile := by
  intro comment line text ks
  have hbody : CommentTail 0 ['(', '*', '-', '-', '*', ')', '"', '*', ')'] := by
    refine .inner (.char (by decide) (by decide) (.char (by decide) (by decide) (.outer ?_)))
    exact .char (by decide) (by decide) .close
  have hcomment : IsSeparator comment := ⟨rfl, .blank rfl (.comment hbody .nil)⟩
  have hnewline : '\n' ∉ ['(', '*'] := by decide
  have hline : IsSeparator line := ⟨rfl, .blank rfl (.line hnewline .nil)⟩
  have htrue : Spells ['t', 'R', 'U', 'E'] (.bool true) := .bool rfl (by decide)
  have htext : Renders ks text := .cons (.symbol .lt) (.inl hcomment)
    (.cons (.symbol .assign) (.inl hline) (.cons htrue (.inr ⟨rfl, rfl⟩) .nil))
  exact ⟨htext, tokenize_of_renders htext⟩

end Cool
