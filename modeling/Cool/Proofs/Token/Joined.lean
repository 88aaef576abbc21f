import Cool.Proofs.Token.Separated

/-!
# Texts one behind the other

A text that is all tokens, a line end and another such text are read as the tokens of both. A line
end behind a text is never part of the last lexeme of the text, and it ends a comment that runs to
the end of its line; so nothing of the first text is read differently, and the second is read as by
itself, at places further on.

* `Span.shift`, `Token.mapSpan` : places further on, and tokens there;
* `Lexeme.first_newline`, `Trivia.piece?_newline` : what is read in front of a line end;
* `Cursor.Lexes` : the tokens of a text without a fault;
* `Cursor.Lexes.shift`, `Cursor.Lexes.joined`, `Stream.ofText_joined` : the tokens of joined texts.
-/

namespace Cool

/-! ## Places further on -/

/-- A span so many bytes and lines further on. -/
def Span.shift (bytes lines : Nat) (s : Span) : Span :=
  ⟨s.start + bytes, s.stop + bytes, s.line + lines⟩

theorem Span.shift_through (bytes lines : Nat) (a b : Span) :
    (a.through b).shift bytes lines = (a.shift bytes lines).through (b.shift bytes lines) := by
  rw [through, through, shift, shift, shift]
  dsimp only
  rw [Nat.add_max_add_right]

/-- A token at another place. -/
def Token.mapSpan (f : Span → Span) (t : Token) : Token :=
  { t with span := f t.span }

/-! ## In front of a line end -/

section Newline

variable {c : Char} {s piece rest b : List Char} {k : Kind}

/-- A run of characters without line ends stops at a line end. -/
theorem span_newline {p : Char → Bool} (hp : p '\n' = false) (s b : List Char) :
    (s ++ '\n' :: b).takeWhile p = s.takeWhile p ∧
      (s ++ '\n' :: b).dropWhile p = s.dropWhile p ++ '\n' :: b := by
  induction s with
  | nil =>
    rw [List.nil_append, List.takeWhile_cons_of_neg (by simp [hp]),
      List.dropWhile_cons_of_neg (by simp [hp])]
    exact ⟨rfl, rfl⟩
  | cons c s ih =>
    obtain ⟨htake, hdrop⟩ := ih
    rw [List.cons_append, List.takeWhile_cons, List.takeWhile_cons, List.dropWhile_cons,
      List.dropWhile_cons, htake, hdrop]
    split_ifs
    · exact ⟨rfl, rfl⟩
    · exact ⟨rfl, rfl⟩

/-- The units of a string that is closed do not depend on what stands behind it. -/
theorem StringUnit.run_append_of_quote (h : (StringUnit.run s).2 = '"' :: rest) (t : List Char) :
    StringUnit.run (s ++ t) = ((StringUnit.run s).1, '"' :: (rest ++ t)) := by
  fun_induction StringUnit.run s with
  | case1 => cases h
  | case2 c s units after hrun ih =>
    rw [hrun] at ih
    rw [List.cons_append, List.cons_append, StringUnit.run, ih h]
  | case3 c s _ _ =>
    obtain ⟨rfl, rfl⟩ := List.cons.inj h
    rfl
  | case4 c s hnot hescape units after hrun ih =>
    rw [hrun] at ih
    rw [List.cons_append, StringUnit.run, if_neg hescape, ih h]
    rintro d t rfl -
    exact hescape rfl

theorem prefix_newline_iff {w : List Char} (hw : '\n' ∉ w) :
    w <+: s ++ '\n' :: b ↔ w <+: s := by
  refine ⟨fun h => ?_, fun h => h.trans (List.prefix_append s _)⟩
  have hline : s ++ ['\n'] <+: s ++ '\n' :: b := ⟨b, by simp⟩
  rcases List.prefix_or_prefix_of_prefix h hline with h | h
  · refine (List.prefix_concat_iff.mp h).resolve_left ?_
    rintro rfl
    exact hw (by simp)
  · exact absurd (h.subset (by simp)) hw

theorem Symbol.atFront?_newline (s b : List Char) :
    Symbol.atFront? (s ++ '\n' :: b) = Symbol.atFront? s := by
  have hspelling : ∀ sign : Symbol, '\n' ∉ sign.spelling := by
    intro sign
    cases sign <;> decide
  refine congrArg (List.find? · Symbol.all) (funext fun sign => ?_)
  rw [Bool.eq_iff_iff, List.isPrefixOf_iff_prefix, List.isPrefixOf_iff_prefix,
    prefix_newline_iff (hspelling sign)]

theorem Lexeme.string_newline (h : (Lexeme.string s).outcome = .ok k) (b : List Char) :
    Lexeme.string (s ++ '\n' :: b) =
      ⟨.ok k, (Lexeme.string s).text, (Lexeme.string s).rest ++ '\n' :: b⟩ := by
  unfold Lexeme.string at h ⊢
  dsimp only at h ⊢
  split at h
  · rename_i rest hrest
    rw [StringUnit.run_append_of_quote hrest]
    exact congrArg (Lexeme.mk · _ _) h
  · cases h

theorem Lexeme.symbol_newline (h : (Lexeme.symbol c s).outcome = .ok k) (b : List Char) :
    Lexeme.symbol c (s ++ '\n' :: b) =
      ⟨.ok k, (Lexeme.symbol c s).text, (Lexeme.symbol c s).rest ++ '\n' :: b⟩ := by
  unfold Lexeme.symbol at h ⊢
  rw [← List.cons_append, Symbol.atFront?_newline]
  cases hsign : Symbol.atFront? (c :: s) with
  | none =>
    rw [hsign] at h
    cases h
  | some sign =>
    rw [hsign] at h
    cases h
    have hlength := congrArg List.length (Symbol.atFront?_append hsign)
    rw [List.length_append] at hlength
    dsimp only
    rw [List.drop_append_of_le_length (by omega)]

/-- The last token of a text is the same in front of a line end. -/
theorem Lexeme.first_newline (h : (Lexeme.first c s).outcome = .ok k) (b : List Char) :
    Lexeme.first c (s ++ '\n' :: b) =
      ⟨.ok k, (Lexeme.first c s).text, (Lexeme.first c s).rest ++ '\n' :: b⟩ := by
  unfold Lexeme.first at h ⊢
  split_ifs at h ⊢ with hdigit halpha
  · obtain ⟨htake, hdrop⟩ := span_newline (p := Char.isDigit) (by decide) (c :: s) b
    rw [Lexeme.integer, ← List.cons_append, htake, hdrop]
    exact congrArg (Lexeme.mk · _ _) h
  · obtain ⟨htake, hdrop⟩ := span_newline (p := isWordChar) (by decide) (c :: s) b
    rw [Lexeme.word, ← List.cons_append, htake, hdrop]
    exact congrArg (Lexeme.mk · _ _) h
  · split at h
    · exact Lexeme.string_newline h b
    · cases h
    · cases h
    · rename_i hquote hopen hclose
      rw [← Lexeme.symbol_newline h b]
      split
      · exact absurd rfl hquote
      · rename_i heq
        cases s with
        | nil => cases heq
        | cons d s =>
          obtain ⟨rfl, -⟩ := List.cons.inj heq
          exact absurd rfl (hopen s rfl)
      · rename_i heq
        cases s with
        | nil => cases heq
        | cons d s =>
          obtain ⟨rfl, -⟩ := List.cons.inj heq
          exact absurd rfl (hclose s rfl)
      · rfl

/-! Blanks and comments in front of a line end. -/

namespace Trivia

theorem piece?_newline (h : piece? s = some (piece, rest)) (b : List Char) :
    piece? (s ++ '\n' :: b) = some (piece, rest ++ '\n' :: b) := by
  fun_cases piece? s with
  | case1 s =>
    cases h
    obtain ⟨htake, hdrop⟩ := span_newline (p := fun c => c ≠ '\n') (by decide) s b
    rw [List.cons_append, List.cons_append, piece?, htake, hdrop]
  | case2 s =>
    obtain ⟨⟨body, after⟩, hbody, he⟩ := Option.map_eq_some_iff.mp h
    cases he
    rw [← blockComment_append hbody, List.cons_append, List.cons_append, List.append_assoc]
    exact piece?_comment (commentTail_of_blockComment hbody) _
  | case3 c s _ _ hblank =>
    rw [piece?_of_isBlank hblank] at h
    cases h
    exact piece?_of_isBlank hblank _
  | case4 c s hline hcomment hblank =>
    rw [piece?, if_neg hblank] at h
    · cases h
    · exact hline
    · exact hcomment
  | case5 => cases h

theorem piece?_eq_none (hblank : isBlank c = false) (hline : ¬['-', '-'] <+: c :: s)
    (hcomment : ¬['(', '*'] <+: c :: s) : piece? (c :: s) = none := by
  rw [piece?, if_neg (by simp [hblank])]
  · rintro t rfl rfl
    exact hline ⟨t, rfl⟩
  · rintro t rfl rfl
    exact hcomment ⟨t, rfl⟩

/-- What starts with a token does so in front of a line end as well. -/
theorem piece?_newline_eq_none (h : piece? (c :: s) = none)
    (hk : (Lexeme.first c s).outcome = .ok k) (b : List Char) :
    piece? (c :: (s ++ '\n' :: b)) = none := by
  refine piece?_eq_none ?_ ?_ ?_
  · rw [Bool.eq_false_iff]
    intro hblank
    rw [piece?_of_isBlank hblank] at h
    cases h
  · rw [← List.cons_append, prefix_newline_iff (by decide)]
    rintro ⟨t, ht⟩
    cases ht
    cases h
  · -- a comment that is not closed is no token
    rw [← List.cons_append, prefix_newline_iff (by decide)]
    rintro ⟨t, ht⟩
    cases ht
    cases hk

/-- A line end behind blanks and comments is skipped with them. -/
theorem skip_newline_of_end (h : (skip s).2 = []) (b : List Char) :
    skip (s ++ '\n' :: b) = (s ++ '\n' :: (skip b).1, (skip b).2) := by
  fun_induction skip s with
  | case1 s _ =>
    cases h
    exact skip_of_piece? (piece?_of_isBlank rfl b)
  | case2 s piece rest hpiece _ more after hmore ih =>
    rw [hmore] at ih
    rw [skip_of_piece? (piece?_newline hpiece b), ih h, ← (piece?_append hpiece).2,
      List.append_assoc]

theorem skip_newline_of_lexeme {w : List Char} (h : (skip s).2 = c :: w)
    (hk : (Lexeme.first c w).outcome = .ok k) (b : List Char) :
    skip (s ++ '\n' :: b) = ((skip s).1, c :: (w ++ '\n' :: b)) := by
  fun_induction skip s with
  | case1 s hpiece =>
    cases h
    exact skip_of_piece?_eq_none (piece?_newline_eq_none hpiece hk b)
  | case2 s piece rest hpiece _ more after hmore ih =>
    rw [hmore] at ih
    rw [skip_of_piece? (piece?_newline hpiece b), ih h]

end Trivia

end Newline

/-! ## The tokens of joined texts -/

namespace Cursor

/-- The text that is left is read without a fault, as these tokens and this end. -/
inductive Lexes : Cursor → List Token → Token → Prop
  | done {c : Cursor} (h : c.skipTrivia.rest = []) : Lexes c [] c.skipTrivia.endToken
  | more {c : Cursor} {ch : Char} {s : List Char} {k : Kind} {tokens : List Token} {eof : Token}
    (hrest : c.skipTrivia.rest = ch :: s) (hk : (Lexeme.first ch s).outcome = .ok k)
    (h : Lexes (c.skipTrivia.past (Lexeme.first ch s).text (Lexeme.first ch s).rest) tokens eof) :
    Lexes c (⟨k, c.skipTrivia.spanOf (Lexeme.first ch s).text⟩ :: tokens) eof

variable {c d : Cursor} {tokens tokens' : List Token} {eof eof' : Token}

theorem Lexes.results_eq (h : c.Lexes tokens eof) : c.results = (tokens.map .ok, eof) := by
  induction h with
  | done h => exact results_of_end h
  | more hrest hk _ ih =>
    rw [results_of_lexeme hrest, ih, read, hk]
    rfl

theorem lexes_of_results (h : c.results = (tokens.map .ok, eof)) : c.Lexes tokens eof := by
  induction tokens generalizing c with
  | nil =>
    cases hrest : c.skipTrivia.rest with
    | nil =>
      rw [results_of_end hrest] at h
      cases h
      exact .done hrest
    | cons ch s =>
      rw [results_of_lexeme hrest] at h
      cases h
  | cons token tokens ih =>
    cases hrest : c.skipTrivia.rest with
    | nil =>
      rw [results_of_end hrest] at h
      cases h
    | cons ch s =>
      rw [results_of_lexeme hrest] at h
      obtain ⟨hfound, heof⟩ := Prod.mk.inj h
      obtain ⟨hfirst, hmore⟩ := List.cons.inj hfound
      have hlexes := ih (Prod.ext hmore heof)
      cases hk : (Lexeme.first ch s).outcome with
      | error error =>
        rw [read, hk] at hfirst
        cases hfirst
      | ok k =>
        rw [read, hk] at hfirst
        cases hfirst
        exact .more hrest hk hlexes

/-- Only what is skipped first may differ. -/
theorem Lexes.congr (h : c.Lexes tokens eof) (hskip : d.skipTrivia = c.skipTrivia) :
    d.Lexes tokens eof := by
  cases h with
  | done h =>
    rw [← hskip] at h ⊢
    exact .done h
  | more hrest hk h =>
    rw [← hskip] at hrest h ⊢
    exact .more hrest hk h

theorem past_past (c : Cursor) (text text' rest rest' : List Char) :
    (c.past text rest).past text' rest' = c.past (text ++ text') rest' := by
  simp only [past, Text.bytes_append, Text.newlines_append, Nat.add_assoc]

/-- The same text at a place further on. -/
def shift (bytes lines : Nat) (c : Cursor) : Cursor :=
  ⟨c.offset + bytes, c.line + lines, c.rest⟩

theorem past_shift (bytes lines : Nat) (c : Cursor) (text rest : List Char) :
    (c.shift bytes lines).past text rest = (c.past text rest).shift bytes lines := by
  rw [past, shift, past, shift]
  congr 1
  · exact Nat.add_right_comm _ _ _
  · exact Nat.add_right_comm _ _ _

theorem spanOf_shift (bytes lines : Nat) (c : Cursor) (text : List Char) :
    (c.shift bytes lines).spanOf text = (c.spanOf text).shift bytes lines := by
  rw [spanOf, shift, spanOf, Span.shift]
  congr 1
  exact Nat.add_right_comm _ _ _

theorem Lexes.shift (h : c.Lexes tokens eof) (bytes lines : Nat) :
    (c.shift bytes lines).Lexes (tokens.map (Token.mapSpan (Span.shift bytes lines)))
      (eof.mapSpan (Span.shift bytes lines)) := by
  have hskip : ∀ c : Cursor, (c.shift bytes lines).skipTrivia =
      c.skipTrivia.shift bytes lines := fun c => past_shift bytes lines c _ _
  induction h with
  | @done c h =>
    have hend : (c.shift bytes lines).skipTrivia.endToken =
        c.skipTrivia.endToken.mapSpan (Span.shift bytes lines) := by
      rw [endToken, hskip, spanOf_shift]
      rfl
    rw [← hend]
    exact .done ((congrArg Cursor.rest (hskip c)).trans h)
  | @more c ch s k tokens eof hrest hk _ ih =>
    rw [List.map_cons, Token.mapSpan]
    dsimp only
    rw [← spanOf_shift, ← hskip]
    refine .more ((congrArg Cursor.rest (hskip c)).trans hrest) hk ?_
    rwa [hskip, past_shift]

/-- Behind a text that is all tokens and a line end, a text is read as by itself. -/
theorem Lexes.joined {b : List Char} (h : c.Lexes tokens eof)
    (h' : (c.past (c.rest ++ ['\n']) b).Lexes tokens' eof') :
    Lexes ⟨c.offset, c.line, c.rest ++ '\n' :: b⟩ (tokens ++ tokens') eof' := by
  induction h with
  | @done c h =>
    refine h'.congr ?_
    have hskip := Trivia.skip_newline_of_end h b
    rw [skipTrivia, skipTrivia, hskip, past_past, List.append_assoc]
    rfl
  | @more c ch s k tokens eof hrest hk _ ih =>
    have hfirst := Lexeme.first_newline hk b
    have hskip : skipTrivia ⟨c.offset, c.line, c.rest ++ '\n' :: b⟩ =
        { c.skipTrivia with rest := ch :: (s ++ '\n' :: b) } := by
      rw [skipTrivia, Trivia.skip_newline_of_lexeme hrest hk b]
      rfl
    have htext : (Trivia.skip c.rest).1 ++ ((Lexeme.first ch s).text ++
        ((Lexeme.first ch s).rest ++ ['\n'])) = c.rest ++ ['\n'] := by
      rw [← List.append_assoc (Lexeme.text _), Lexeme.first_append, ← hrest, ← List.append_assoc]
      exact congrArg (· ++ ['\n']) (Trivia.skip_append c.rest)
    have hspan : (skipTrivia ⟨c.offset, c.line, c.rest ++ '\n' :: b⟩).spanOf
        (Lexeme.first ch (s ++ '\n' :: b)).text = c.skipTrivia.spanOf (Lexeme.first ch s).text := by
      rw [hskip, hfirst]
      rfl
    rw [List.cons_append, ← hspan]
    refine .more (congrArg Cursor.rest hskip) (congrArg Lexeme.outcome hfirst) ?_
    rw [hskip, hfirst]
    refine ih ?_
    rw [skipTrivia, past_past, past_past]
    exact htext.symm ▸ h'

end Cursor

variable {s s' : String} {eof eof' : Token}

/-- The tokens of a text without a fault. -/
theorem Stream.lexes_ofText (h : (Stream.ofText s).ending = .ok eof) :
    (Cursor.ofText s.toList).Lexes (Stream.ofText s).ahead eof := by
  have hfound : (results s).1 = (Stream.ofText s).ahead.map .ok := eq_map_of_cut_eq_ok h
  rw [eq_of_cut_eq_ok h]
  exact Cursor.lexes_of_results (Prod.ext hfound rfl)

theorem Stream.ofText_of_lexes {tokens : List Token}
    (h : (Cursor.ofText s.toList).Lexes tokens eof) :
    Stream.ofText s = ⟨tokens, .ok eof, ⟨0, 0, 0⟩⟩ := by
  have hresults : results s = (tokens.map .ok, eof) := h.results_eq
  rw [Stream.ofText, hresults]
  dsimp only
  rw [cut_map_ok]

/-- How far behind the start of a text a second one begins that follows on a line of its own. -/
def Span.behind (s : String) : Span → Span :=
  Span.shift (Text.bytes s.toList + 1) (Text.newlines s.toList + 1)

/-- Two texts without a fault, with a line end between them, have the tokens of both. -/
theorem Stream.ofText_joined (h : (Stream.ofText s).ending = .ok eof)
    (h' : (Stream.ofText s').ending = .ok eof') :
    Stream.ofText (s ++ "\n" ++ s') =
      ⟨(Stream.ofText s).ahead ++ (Stream.ofText s').ahead.map (Token.mapSpan (Span.behind s)),
        .ok (eof'.mapSpan (Span.behind s)), ⟨0, 0, 0⟩⟩ := by
  have hbehind : (Cursor.ofText s.toList).past (s.toList ++ ['\n']) s'.toList =
      (Cursor.ofText s'.toList).shift (Text.bytes s.toList + 1) (Text.newlines s.toList + 1) := by
    simp only [Cursor.ofText, Cursor.past, Cursor.shift, Text.bytes_append, Text.newlines_append]
    congr 1
  have hsecond := (Stream.lexes_ofText h').shift (Text.bytes s.toList + 1)
    (Text.newlines s.toList + 1)
  rw [← hbehind] at hsecond
  refine Stream.ofText_of_lexes ?_
  have hjoined := (Stream.lexes_ofText h).joined hsecond
  rw [String.toList_append, String.toList_append, List.append_assoc]
  exact hjoined

end Cool
