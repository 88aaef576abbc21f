import Cool.Grammar.Parser
import Cool.Proofs.Token.Spelling
import Mathlib.Data.List.Forall2

/-!
# Texts of spellings

Spellings with blanks between them are read back one by one.

* `Spells.piece?_eq_none` : neither a blank nor a comment starts where a spelling does;
* `Text.spaced`, `exists_ofText_spaced` : words with a blank between them;
* `Kind.text`, `exists_ofText_text` : the text of any tokens that can be written.
-/

namespace Cool

variable {c : Char} {w rest : List Char} {k : Kind}

/-! ## Blanks -/

theorem piece?_of_isWordChar (hc : isWordChar c = true) : Trivia.piece? (c :: w) = none := by
  have hblank : isBlank c = false := by
    rw [Bool.eq_false_iff]
    intro hblank
    rw [isWordChar_eq_false_of_isBlank hblank] at hc
    cases hc
  unfold Trivia.piece?
  split
  · rename_i heq
    cases heq
    cases hc
  · rename_i heq
    cases heq
    cases hc
  · rename_i heq
    cases heq
    rw [if_neg (by simp [hblank])]
  · rfl

theorem piece?_of_symbol (s : Symbol) (h : s.spelling = c :: w) (hrest : Detached rest) :
    Trivia.piece? (c :: (w ++ rest)) = none := by
  cases rest with
  | nil => cases s <;> cases h <;> rfl
  | cons d rest =>
    rcases cases_isBlank (hrest d rfl) with rfl | rfl | rfl | rfl | rfl | rfl <;>
      cases s <;> cases h <;> rfl

/-- No blank and no comment starts where a spelling does. -/
theorem Spells.piece?_eq_none (h : Spells (c :: w) k) (hrest : Detached rest) :
    Trivia.piece? (c :: (w ++ rest)) = none := by
  rcases h.cases_head with hc | rfl | ⟨s, hs⟩
  · exact piece?_of_isWordChar hc
  · rfl
  · exact piece?_of_symbol s hs hrest

theorem skip_of_piece?_eq_none {s : List Char} (h : Trivia.piece? s = none) :
    Trivia.skip s = ([], s) := by
  rw [Trivia.skip]
  split
  · rfl
  · rename_i hsome
    rw [h] at hsome
    cases hsome

theorem skip_space (s : List Char) :
    Trivia.skip (' ' :: s) = (' ' :: (Trivia.skip s).1, (Trivia.skip s).2) := by
  rw [Trivia.skip]
  split
  · rename_i hnone
    cases hnone
  · rename_i hsome
    cases hsome
    rfl

theorem Spells.skip_eq {word : List Char} (h : Spells word k) (hrest : Detached rest) :
    Trivia.skip (word ++ rest) = ([], word ++ rest) := by
  obtain ⟨c, w, rfl⟩ := List.exists_cons_of_ne_nil h.ne_nil
  exact skip_of_piece?_eq_none (h.piece?_eq_none hrest)

/-! ## Texts -/

/-- Words with one blank between them. -/
def Text.spaced : List (List Char) → List Char
  | [] => []
  | word :: words => word ++ words.flatMap fun word => ' ' :: word

theorem detached_flatMap (words : List (List Char)) :
    Detached (words.flatMap fun word => ' ' :: word) := by
  cases words with
  | nil => exact nofun
  | cons word words =>
    rintro c ⟨⟩
    rfl

namespace Cursor

variable {cursor : Cursor} {sep : List Char}

theorem results_of_end (h : (Trivia.skip cursor.rest).2 = []) :
    cursor.results = ([], cursor.skipTrivia.endToken) := by
  rw [results]
  split
  · rfl
  · rename_i hrest
    rw [skipTrivia, past, h] at hrest
    cases hrest

theorem results_of_lexeme (h : (Trivia.skip cursor.rest).2 = c :: w) :
    cursor.results = (cursor.skipTrivia.read (Lexeme.first c w) ::
      (results (cursor.skipTrivia.past (Lexeme.first c w).text (Lexeme.first c w).rest)).1,
      (results (cursor.skipTrivia.past (Lexeme.first c w).text (Lexeme.first c w).rest)).2) := by
  rw [results]
  split
  · rename_i hnil
    rw [skipTrivia, past, h] at hnil
    cases hnil
  · rename_i hcons
    rw [skipTrivia, past, h] at hcons
    cases hcons
    rfl

/-- The first token of a text, and the place behind it. -/
theorem exists_results_of_spells {word : List Char} (hspells : Spells word k)
    (hskip : (Trivia.skip cursor.rest).2 = word ++ rest) (hrest : Detached rest) :
    ∃ token behind, token.kind = k ∧ behind.rest = rest ∧
      cursor.results = (.ok token :: (results behind).1, (results behind).2) := by
  obtain ⟨c, w, rfl⟩ := List.exists_cons_of_ne_nil hspells.ne_nil
  rw [List.cons_append] at hskip
  rw [results_of_lexeme hskip, hspells.first hrest]
  exact ⟨_, _, rfl, rfl, rfl⟩

/-- Spellings with a blank in front of each are read back one by one. -/
theorem exists_results_of_forall₂ {words : List (List Char)} {ks : List Kind}
    (h : List.Forall₂ Spells words ks) : ∀ {cursor : Cursor},
      cursor.rest = words.flatMap (fun word => ' ' :: word) →
        ∃ (tokens : List Token) (eof : Token), cursor.results = (tokens.map .ok, eof) ∧
          tokens.map Token.kind = ks ∧ eof.kind = .endOfFile := by
  induction h with
  | nil =>
    intro cursor hcursor
    have hskip : Trivia.skip cursor.rest = ([], []) := by
      rw [hcursor]
      exact skip_of_piece?_eq_none rfl
    exact ⟨[], _, results_of_end (congrArg Prod.snd hskip), rfl, rfl⟩
  | @cons word k words ks hspells _ ih =>
    intro cursor hcursor
    have hskip : (Trivia.skip cursor.rest).2 = word ++ words.flatMap fun word => ' ' :: word := by
      rw [hcursor, List.flatMap_cons, List.cons_append, skip_space,
        hspells.skip_eq (detached_flatMap words)]
    obtain ⟨token, behind, hk, hbehind, hresults⟩ :=
      exists_results_of_spells hspells hskip (detached_flatMap words)
    obtain ⟨tokens, eof, hmore, hks, heof⟩ := ih hbehind
    refine ⟨token :: tokens, eof, ?_, congrArg₂ _ hk hks, heof⟩
    rw [hresults, hmore]
    rfl

end Cursor

theorem cut_map_ok (eof : Token) : ∀ tokens : List Token,
    Stream.cut eof (tokens.map .ok) = (tokens, .ok eof)
  | [] => rfl
  | token :: tokens => by rw [List.map_cons, Stream.cut, cut_map_ok eof tokens]

/-- Spellings with a blank between them are read back as a whole. -/
theorem exists_ofText_spaced {words : List (List Char)} {ks : List Kind}
    (h : List.Forall₂ Spells words ks) : ∃ (tokens : List Token) (eof : Token) (last : Span),
      Stream.ofText (String.ofList (Text.spaced words)) = ⟨tokens, .ok eof, last⟩ ∧
        tokens.map Token.kind = ks ∧ eof.kind = .endOfFile := by
  have hresults : ∃ (tokens : List Token) (eof : Token),
      results (String.ofList (Text.spaced words)) = (tokens.map .ok, eof) ∧
        tokens.map Token.kind = ks ∧ eof.kind = .endOfFile := by
    rw [results, String.toList_ofList]
    cases h with
    | nil => exact Cursor.exists_results_of_forall₂ .nil rfl
    | @cons word k words ks hspells hmore =>
      have hrest := detached_flatMap words
      have hskip : (Trivia.skip (Cursor.ofText (Text.spaced (word :: words))).rest).2 =
          word ++ words.flatMap fun word => ' ' :: word :=
        congrArg Prod.snd (hspells.skip_eq hrest)
      obtain ⟨token, behind, hk, hbehind, hfirst⟩ :=
        Cursor.exists_results_of_spells hspells hskip hrest
      obtain ⟨tokens, eof, hmore, hks, heof⟩ := Cursor.exists_results_of_forall₂ hmore hbehind
      refine ⟨token :: tokens, eof, ?_, congrArg₂ _ hk hks, heof⟩
      rw [hfirst, hmore]
      rfl
  obtain ⟨tokens, eof, htext, hks, heof⟩ := hresults
  refine ⟨tokens, eof, ⟨0, 0, 0⟩, ?_, hks, heof⟩
  rw [Stream.ofText, htext]
  dsimp only
  rw [cut_map_ok]

/-! ## The text of tokens -/

/-- The tokens as they are written, with a blank between them. -/
def Kind.text (ks : List Kind) : String :=
  String.ofList (Text.spaced (ks.map Kind.spelling))

theorem exists_ofText_text {ks : List Kind} (h : ∀ k ∈ ks, k.Spelled) :
    ∃ (tokens : List Token) (eof : Token) (last : Span),
      Stream.ofText (Kind.text ks) = ⟨tokens, .ok eof, last⟩ ∧
        tokens.map Token.kind = ks ∧ eof.kind = .endOfFile := by
  refine exists_ofText_spaced (List.forall₂_map_left_iff.mpr ?_)
  exact List.forall₂_same.mpr fun k hk => spells_spelling (h k hk)

end Cool
