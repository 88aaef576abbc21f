import Cool.Proofs.Token.Tiling

/-!
# Spans within a text

A span can be shown in a text if it starts no later than it stops, if both ends are places between
characters, and if it tells the line on which it starts. This is so of the spans of all tokens and
faults of a text, and it stays so when one span is continued to the end of another.

* `Span.Within` : spans that can be shown in a text;
* `Within.through` : from the start of one span to the end of another;
* `Stream.Places`, `Stream.places_ofText` : the spans that a parser finds in a stream;
* `within_of_tokenize_error` : the fault of a text.
-/

namespace Cool

/-- A span that can be shown in a text. -/
structure Span.Within (text : List Char) (s : Span) : Prop where
  start_le_stop : s.start ≤ s.stop
  start : ∃ before behind, text = before ++ behind ∧ s.start = Text.bytes before ∧
    s.line = 1 + Text.newlines before
  stop : Text.IsBoundary text s.stop

variable {text : List Char} {a b s : Span}

theorem Text.IsBoundary.le_bytes {offset : Nat} (h : Text.IsBoundary text offset) :
    offset ≤ Text.bytes text := by
  obtain ⟨before, behind, rfl, rfl⟩ := h
  rw [Text.bytes_append]
  exact Nat.le_add_right _ _

namespace Span.Within

theorem isBoundary_start (h : s.Within text) : Text.IsBoundary text s.start := by
  obtain ⟨before, behind, htext, hstart, -⟩ := h.start
  exact ⟨before, behind, htext, hstart⟩

theorem of_append {before part behind : List Char} (htext : text = before ++ part ++ behind) :
    Within text ⟨Text.bytes before, Text.bytes (before ++ part), 1 + Text.newlines before⟩ where
  start_le_stop := by
    rw [Text.bytes_append]
    exact Nat.le_add_right _ _
  start := ⟨before, part ++ behind, htext.trans (List.append_assoc ..), rfl, rfl⟩
  stop := ⟨before ++ part, behind, htext, rfl⟩

theorem zero : Within text ⟨0, 0, 1⟩ :=
  of_append (show text = [] ++ [] ++ text from rfl)

/-- The end is that of one of the two, and the line goes with the start. -/
theorem through (ha : a.Within text) (hb : b.Within text) : (a.through b).Within text where
  start_le_stop := ha.start_le_stop.trans (Span.stop_le_stop_through a b)
  start := ha.start
  stop := by
    rcases Nat.le_total b.stop a.stop with hle | hle
    · rw [show (a.through b).stop = a.stop from Nat.max_eq_right hle]
      exact ha.stop
    · rw [show (a.through b).stop = b.stop from Nat.max_eq_left hle]
      exact hb.stop

end Span.Within

/-! ## Streams -/

/-- The spans that a parser may come across: of the tokens that are left, of what ends them, and of
the token taken last. -/
structure Stream.Places (P : Span → Prop) (s : Stream) : Prop where
  ahead : ∀ token ∈ s.ahead, P token.span
  ending : P (placeOf s.ending)
  last : P s.last

theorem mem_of_cut_eq_error {eof : Token} {fault : Fault} {found : List (Except Fault Token)}
    (h : (Stream.cut eof found).2 = .error fault) : .error fault ∈ found := by
  fun_induction Stream.cut eof found with
  | case1 => cases h
  | case2 fault' =>
    cases h
    exact List.mem_cons_self
  | case3 first found tokens ending hcut ih =>
    rw [hcut] at ih
    exact List.mem_cons_of_mem _ (ih h)

/-- Before the first token is taken, no span is kept of it. -/
theorem Stream.places_ofText (text : String) {last : Span} (hlast : last.Within text.toList) :
    { Stream.ofText text with last }.Places (Span.Within text.toList) := by
  obtain ⟨htiled, heof⟩ := Cursor.tiled_results _ _ (Cursor.behind_ofText text.toList)
  have hfound : ∀ r ∈ (results text).1, (placeOf r).Within text.toList := by
    intro r hr
    obtain ⟨front, word, rest, htext, -, -, hplace, -⟩ := htiled.exists_word hr
    rw [hplace]
    exact .of_append htext
  refine ⟨fun token htoken => hfound _ (mem_of_mem_cut htoken), ?_, hlast⟩
  show (placeOf (Stream.ofText text).ending).Within text.toList
  cases hending : (Stream.ofText text).ending with
  | error fault => exact hfound _ (mem_of_cut_eq_error hending)
  | ok token =>
    have htoken : token = (results text).2 := eq_of_cut_eq_ok hending
    rw [htoken, show (results text).2 = _ from heof]
    have hend := Span.Within.of_append (show text.toList = text.toList ++ [] ++ [] by simp)
    rwa [List.append_nil] at hend

theorem within_of_tokenize_error {text : String} {fault : Fault}
    (h : tokenize text = .error fault) : fault.span.Within text.toList := by
  have hstart : (⟨0, 0, 1⟩ : Span).Within text.toList := .zero
  have hending := (Stream.places_ofText text hstart).ending
  rw [tokenize_eq] at h
  cases hcut : (Stream.ofText text).ending with
  | error fault' =>
    rw [hcut] at h
    cases h
    dsimp only at hending
    rwa [hcut] at hending
  | ok eof =>
    rw [hcut] at h
    cases h

end Cool
