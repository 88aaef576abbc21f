import Cool.Proofs.Source.Lines
import Cool.Proofs.Token.Spaced
import Cool.Proofs.Token.Spelled
import Cool.Proofs.Token.Trivia
import Cool.Token.Lookahead

/-!
# Where the tokens of a text lie

The tokens and faults of a text lie side by side in it, in their order, with blanks and comments
between them, whatever the text is.

* `Tiled` : results of reading what is left of a text, one behind the other;
* `Cursor.tiled_results` : reading gives such results, wherever it starts;
* `Tiling` : what this says of a whole text, in terms of the spans;
* `Lookahead.taken_ofText`, `Lookahead.tiling_ofText` : the calls that take the tokens of a text one
  by one.
-/

namespace Cool

/-- The span of a token or a fault. -/
def placeOf : Except Fault Token → Span
  | .ok token => token.span
  | .error fault => fault.span

/-- A character starts at the offset, or the text ends there. -/
def Text.IsBoundary (text : List Char) (offset : Nat) : Prop :=
  ∃ before behind, text = before ++ behind ∧ offset = Text.bytes before

/-- The part of a text from one offset to another. -/
def Text.Between (text : List Char) (start stop : Nat) (part : List Char) : Prop :=
  ∃ before behind, text = before ++ part ++ behind ∧ start = Text.bytes before ∧
    stop = Text.bytes (before ++ part)

/-- From one offset to another there are only blanks and comments. -/
def Text.TriviaBetween (text : List Char) (start stop : Nat) : Prop :=
  ∃ before gap behind, text = before ++ gap ++ behind ∧ start = Text.bytes before ∧
    stop = Text.bytes (before ++ gap) ∧ IsTrivia behind gap

/-! ## Side by side -/

/-- The results of reading `text` from behind `before` up to its end. -/
inductive Tiled (text : List Char) : List Char → List (Except Fault Token) → Prop
  | last {before gap : List Char} (htext : text = before ++ gap) (hgap : IsTrivia [] gap) :
    Tiled text before []
  | next {before gap word rest : List Char} {result : Except Fault Token}
    {found : List (Except Fault Token)} (htext : text = before ++ gap ++ word ++ rest)
    (hgap : IsTrivia (word ++ rest) gap) (hword : word ≠ [])
    (hplace : placeOf result = ⟨Text.bytes (before ++ gap), Text.bytes (before ++ gap ++ word),
      1 + Text.newlines (before ++ gap)⟩)
    (hspells : ∀ token, result = .ok token → Spells word token.kind)
    (hmore : Tiled text (before ++ gap ++ word) found) : Tiled text before (result :: found)

variable {text before : List Char} {found : List (Except Fault Token)} {result : Except Fault Token}

theorem Text.bytes_pos {s : List Char} (h : s ≠ []) : 0 < Text.bytes s := by
  cases s with
  | nil => exact absurd rfl h
  | cons c s => exact Nat.lt_of_lt_of_le c.utf8Size_pos (Nat.le_add_right _ _)

namespace Tiled

/-- Each result has a text of its own, behind the place where reading started. -/
theorem exists_word (h : Tiled text before found) (hresult : result ∈ found) :
    ∃ front word rest, text = front ++ word ++ rest ∧ word ≠ [] ∧
      Text.bytes before ≤ Text.bytes front ∧
      placeOf result = ⟨Text.bytes front, Text.bytes (front ++ word), 1 + Text.newlines front⟩ ∧
      ∀ token, result = .ok token → Spells word token.kind := by
  induction h with
  | last => cases hresult
  | @next before gap word rest _ _ htext _ hword hplace hspells _ ih =>
    rcases List.mem_cons.mp hresult with rfl | hresult
    · refine ⟨before ++ gap, word, rest, htext, hword, ?_, hplace, hspells⟩
      rw [Text.bytes_append]
      exact Nat.le_add_right _ _
    · obtain ⟨front, word', rest', htext', hword', hfront, hplace'⟩ := ih hresult
      refine ⟨front, word', rest', htext', hword', Nat.le_trans ?_ hfront, hplace'⟩
      rw [Text.bytes_append, Text.bytes_append, Nat.add_assoc]
      exact Nat.le_add_right _ _

theorem ordered (h : Tiled text before found) :
    found.Pairwise fun r r' => (placeOf r).stop ≤ (placeOf r').start := by
  induction h with
  | last => exact .nil
  | next _ _ _ hplace _ hmore ih =>
    refine .cons (fun r hr => ?_) ih
    obtain ⟨front, word, -, -, -, hfront, hr, -⟩ := hmore.exists_word hr
    rw [hplace, hr]
    exact hfront

theorem gaps (h : Tiled text before found) : List.Forall₂ (Text.TriviaBetween text)
    (Text.bytes before :: found.map fun r => (placeOf r).stop)
    ((found.map fun r => (placeOf r).start) ++ [Text.bytes text]) := by
  induction h with
  | @last before gap htext hgap =>
    refine .cons ⟨before, gap, [], ?_, rfl, by rw [htext], hgap⟩ .nil
    rw [htext, List.append_nil]
  | @next before gap word rest _ _ htext hgap _ hplace _ _ ih =>
    rw [List.map_cons, List.map_cons, hplace]
    refine .cons ⟨before, gap, word ++ rest, ?_, rfl, rfl, hgap⟩ ih
    rw [htext, List.append_assoc]

end Tiled

/-! ## Reading -/

/-- The cursor stands behind `before` in `text`. -/
structure Cursor.Behind (text before : List Char) (cursor : Cursor) : Prop where
  text : text = before ++ cursor.rest
  offset : cursor.offset = Text.bytes before
  line : cursor.line = 1 + Text.newlines before

namespace Cursor

theorem behind_ofText (text : List Char) : Behind text [] (ofText text) :=
  ⟨rfl, rfl, rfl⟩

theorem Behind.past {cursor : Cursor} (h : Behind text before cursor) {part rest : List Char}
    (hpart : part ++ rest = cursor.rest) :
    Behind text (before ++ part) (cursor.past part rest) where
  text := by rw [h.text, ← hpart, List.append_assoc]; rfl
  offset := by rw [Text.bytes_append, ← h.offset]; rfl
  line := by rw [Text.newlines_append, ← Nat.add_assoc, ← h.line]; rfl

theorem Behind.skipTrivia {cursor : Cursor} (h : Behind text before cursor) :
    Behind text (before ++ (Trivia.skip cursor.rest).1) cursor.skipTrivia :=
  h.past (Trivia.skip_append cursor.rest)

theorem Behind.spanOf {cursor : Cursor} (h : Behind text before cursor) (part : List Char) :
    cursor.spanOf part = ⟨Text.bytes before, Text.bytes (before ++ part),
      1 + Text.newlines before⟩ := by
  rw [Cursor.spanOf, h.offset, h.line, Text.bytes_append]

theorem placeOf_read (cursor : Cursor) (lexeme : Lexeme) :
    placeOf (cursor.read lexeme) = cursor.spanOf lexeme.text := by
  unfold read
  split <;> rfl

theorem outcome_of_read {cursor : Cursor} {lexeme : Lexeme} {token : Token}
    (h : cursor.read lexeme = .ok token) : lexeme.outcome = .ok token.kind := by
  unfold read at h
  split at h
  · rename_i houtcome
    cases h
    exact houtcome
  · cases h

/-- Reading from any place of a text gives what is left of it, side by side. -/
theorem tiled_results (cursor : Cursor) : ∀ before, Behind text before cursor →
    Tiled text before cursor.results.1 ∧ cursor.results.2 =
      ⟨.endOfFile, Text.bytes text, Text.bytes text, 1 + Text.newlines text⟩ := by
  fun_induction results cursor with
  | case1 cursor hend =>
    intro before h
    have hskip := h.skipTrivia
    have htext := hskip.text
    rw [hend, List.append_nil] at htext
    have hgap := Trivia.isTrivia_skip cursor.rest
    rw [show (Trivia.skip cursor.rest).2 = [] from hend] at hgap
    refine ⟨.last htext hgap, ?_⟩
    rw [endToken, hskip.spanOf, List.append_nil, ← htext]
  | case2 cursor c s hrest lexeme _ more last hmore ih =>
    intro before h
    have hskip := h.skipTrivia
    have hlexeme : lexeme.text ++ lexeme.rest = c :: s := Lexeme.first_append c s
    have hgap := Trivia.isTrivia_skip cursor.rest
    rw [show (Trivia.skip cursor.rest).2 = c :: s from hrest, ← hlexeme] at hgap
    obtain ⟨htiled, hlast⟩ := ih _ (hskip.past (hlexeme.trans hrest.symm))
    rw [hmore] at htiled hlast
    have htext : text =
        before ++ (Trivia.skip cursor.rest).1 ++ lexeme.text ++ lexeme.rest := by
      rw [hskip.text, hrest, ← hlexeme, List.append_assoc _ lexeme.text]
    refine ⟨.next htext hgap (Lexeme.first_text_ne_nil c s) ?_ ?_ htiled, hlast⟩
    · rw [placeOf_read, hskip.spanOf]
    · exact fun token htoken => Lexeme.spells_first (outcome_of_read htoken)

theorem length_results_le (cursor : Cursor) :
    cursor.results.1.length ≤ cursor.rest.length := by
  fun_induction results cursor with
  | case1 => exact Nat.zero_le _
  | case2 cursor c s hrest lexeme hlt more last hmore ih =>
    rw [hmore] at ih
    exact Nat.lt_of_le_of_lt ih hlt

end Cursor

theorem Text.length_le_bytes : ∀ s : List Char, s.length ≤ Text.bytes s
  | [] => Nat.le_refl 0
  | c :: s => by
    have hc := c.utf8Size_pos
    have hs := length_le_bytes s
    rw [List.length_cons, Text.bytes_cons]
    omega

/-- A text that spells a token is read as this token and nothing else. -/
theorem Spells.tokenize {word : List Char} {k : Kind} (h : Spells word k) :
    ∃ token eof, tokenize (String.ofList word) = .ok [token, eof] ∧ token.kind = k ∧
      eof.kind = .endOfFile := by
  have hword : List.Forall₂ Spells [word] [k] := .cons h .nil
  obtain ⟨tokens, eof, last, htext, hk, heof⟩ := exists_ofText_spaced hword
  rw [show Text.spaced [word] = word from List.append_nil word] at htext
  obtain ⟨token, rfl, rfl⟩ := List.map_eq_singleton_iff.mp hk
  refine ⟨token, eof, ?_, rfl, heof⟩
  have hending : (Stream.ofText (String.ofList word)).ending = .ok eof := by rw [htext]
  rw [tokenize_of_ending hending, htext]
  rfl

/-! ## Texts -/

/-- How the tokens and faults of a text lie in it. -/
structure Tiling (text : List Char) (found : List (Except Fault Token)) : Prop where
  nonempty : ∀ r ∈ found, (placeOf r).start < (placeOf r).stop
  ordered : found.Pairwise fun r r' => (placeOf r).stop ≤ (placeOf r').start
  inside : ∀ r ∈ found, (placeOf r).stop ≤ Text.bytes text
  boundaries : ∀ r ∈ found, Text.IsBoundary text (placeOf r).start ∧
    Text.IsBoundary text (placeOf r).stop
  lines : ∀ r ∈ found, (placeOf r).line = (Lines.ofText text).lineOf (placeOf r).start
  /-- From the start to the first result, from each to the next, and from the last to the end. -/
  gaps : List.Forall₂ (Text.TriviaBetween text) (0 :: found.map fun r => (placeOf r).stop)
    ((found.map fun r => (placeOf r).start) ++ [Text.bytes text])
  /-- The text of a token gives this token if there is nothing else. -/
  alone : ∀ token, .ok token ∈ found → ∃ word,
    Text.Between text token.span.start token.span.stop word ∧
      ∃ first eof, tokenize (String.ofList word) = .ok [first, eof] ∧ first.kind = token.kind ∧
        eof.kind = .endOfFile

theorem Tiled.tiling (h : Tiled text [] found) : Tiling text found where
  nonempty r hr := by
    obtain ⟨front, word, rest, -, hword, -, hplace, -⟩ := h.exists_word hr
    rw [hplace, Text.bytes_append]
    exact Nat.lt_add_of_pos_right (Text.bytes_pos hword)
  ordered := h.ordered
  inside r hr := by
    obtain ⟨front, word, rest, htext, -, -, hplace, -⟩ := h.exists_word hr
    rw [hplace, htext, Text.bytes_append _ rest]
    exact Nat.le_add_right _ _
  boundaries r hr := by
    obtain ⟨front, word, rest, htext, -, -, hplace, -⟩ := h.exists_word hr
    rw [hplace]
    exact ⟨⟨front, word ++ rest, htext.trans (List.append_assoc ..), rfl⟩,
      ⟨front ++ word, rest, htext, rfl⟩⟩
  lines r hr := by
    obtain ⟨front, word, rest, htext, -, -, hplace, -⟩ := h.exists_word hr
    rw [hplace, htext, List.append_assoc]
    exact (Lines.lineOf_bytes front (word ++ rest)).symm
  gaps := h.gaps
  alone token htoken := by
    obtain ⟨front, word, rest, htext, -, -, hplace, hspells⟩ := h.exists_word htoken
    refine ⟨word, ⟨front, rest, htext, ?_, ?_⟩, (hspells token rfl).tokenize⟩
    · exact congrArg Span.start hplace
    · exact congrArg Span.stop hplace

namespace Lookahead

/-- What the call of `take` gives that `n` others come before. -/
def taken (l : Lookahead) : Nat → Except Fault Token
  | 0 => l.take.1
  | n + 1 => l.take.2.taken n

theorem take_of_end {cursor : Cursor} (h : cursor.skipTrivia.rest = []) :
    take ⟨[], cursor⟩ = (.ok cursor.skipTrivia.endToken, ⟨[], cursor.skipTrivia⟩) := by
  rw [take, Cursor.next]
  dsimp only
  rw [h]

/-- At the end of a text the end token is taken again and again. -/
theorem taken_of_end {cursor : Cursor} (h : cursor.skipTrivia.rest = []) (n : Nat) :
    taken ⟨[], cursor⟩ n = .ok cursor.skipTrivia.endToken := by
  induction n generalizing cursor with
  | zero => rw [taken, take_of_end h]
  | succ n ih =>
    have hskip : cursor.skipTrivia.skipTrivia = cursor.skipTrivia := by
      have hend := skip_of_piece?_eq_none (s := []) rfl
      rw [Cursor.skipTrivia, h, hend]
      exact congrArg (Cursor.mk _ _) h.symm
    rw [taken, take_of_end h, ih (hskip.symm ▸ h), hskip]

/-- The calls that take tokens give the results of the text that is left, and then the end token
whenever they are made. -/
theorem taken_eq (cursor : Cursor) (n : Nat) :
    taken ⟨[], cursor⟩ n = cursor.results.1[n]?.getD (.ok cursor.results.2) := by
  fun_induction Cursor.results cursor generalizing n with
  | case1 cursor hend => exact taken_of_end hend n
  | case2 cursor c s hrest lexeme _ more last hmore ih =>
    have hnext : take ⟨[], cursor⟩ = (cursor.skipTrivia.read lexeme,
        ⟨[], cursor.skipTrivia.past lexeme.text lexeme.rest⟩) := by
      rw [take, Cursor.next]
      dsimp only
      rw [hrest]
    cases n with
    | zero => rw [taken, hnext]; rfl
    | succ n =>
      rw [taken, hnext, ih n, hmore]
      rfl

/-- The tokens and faults of any text, taken one by one, lie in it one behind the other, and only
blanks and comments are passed over. There are no more of them than the text has bytes; then the
end token comes, and goes on coming. -/
theorem tiling_ofText (text : String) :
    let (found, eof) := results text
    (∀ n, (ofText text).taken n = found[n]?.getD (.ok eof)) ∧
      found.length ≤ Text.bytes text.toList ∧
      (∀ token, .ok token ∈ found → token.kind ≠ .endOfFile) ∧
      eof = ⟨.endOfFile, Text.bytes text.toList, Text.bytes text.toList,
        (Lines.ofText text.toList).lineOf (Text.bytes text.toList)⟩ ∧
      Tiling text.toList found := by
  obtain ⟨htiled, heof⟩ := Cursor.tiled_results _ _ (Cursor.behind_ofText text.toList)
  refine ⟨taken_eq _, ?_, fun token htoken hkind => ?_, ?_, htiled.tiling⟩
  · exact Nat.le_trans (Cursor.length_results_le _) (Text.length_le_bytes _)
  · have hspelled := (Cursor.spelled_results _).1 token htoken
    rw [hkind] at hspelled
    exact hspelled
  · have hline := Lines.lineOf_bytes text.toList []
    rw [List.append_nil] at hline
    rw [hline]
    exact heof

end Lookahead

end Cool
