/-!
# Places in a source text

Places are counted in bytes of the UTF-8 encoding, because that is what an editor or a terminal
is told; a `Span` keeps the line of its start as well, so that a message can be worded without
the text at hand.

* `Text.bytes s` : the length of `s` in UTF-8 bytes;
* `Text.newlines s` : the number of line ends in `s`;
* `Span.through a b` : the span from the start of `a` to the end of `b`.
-/

namespace Cool

/-- The length of a text in UTF-8 bytes. -/
def Text.bytes : List Char → Nat
  | [] => 0
  | c :: s => c.utf8Size + Text.bytes s

/-- The number of line ends in a text. -/
def Text.newlines (s : List Char) : Nat :=
  s.count '\n'

@[simp] theorem Text.bytes_nil : Text.bytes [] = 0 := rfl

@[simp] theorem Text.bytes_cons (c : Char) (s : List Char) :
    Text.bytes (c :: s) = c.utf8Size + Text.bytes s := rfl

@[simp] theorem Text.bytes_append (s t : List Char) :
    Text.bytes (s ++ t) = Text.bytes s + Text.bytes t := by
  induction s with
  | nil => simp
  | cons c s ih => simp [ih, Nat.add_assoc]

@[simp] theorem Text.newlines_nil : Text.newlines [] = 0 := rfl

@[simp] theorem Text.newlines_append (s t : List Char) :
    Text.newlines (s ++ t) = Text.newlines s + Text.newlines t := by
  simp [Text.newlines]

/-- A stretch of source text: the byte offsets of its two ends and the line, counted from one,
on which it starts. -/
structure Span where
  start : Nat
  stop : Nat
  line : Nat
  deriving DecidableEq, Inhabited

/-- The span from the start of `a` to the end of `b`. It never ends before `a` does. -/
def Span.through (a b : Span) : Span :=
  ⟨a.start, max b.stop a.stop, a.line⟩

@[simp] theorem Span.start_through (a b : Span) : (a.through b).start = a.start := rfl

@[simp] theorem Span.line_through (a b : Span) : (a.through b).line = a.line := rfl

theorem Span.stop_le_stop_through (a b : Span) : a.stop ≤ (a.through b).stop :=
  Nat.le_max_right _ _

end Cool
