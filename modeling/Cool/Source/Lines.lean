import Cool.Source.Span

/-!
# The lines of a source text

A text is cut into lines once, at its line ends; afterwards an offset is placed on its line by
counting the lines that start at or before it. An offset behind the end of the text lies on the
last line.

* `Lines.ofText s` : the offsets at which the lines of `s` start;
* `Lines.lineOf` : the number, counted from one, of the line of an offset.
-/

namespace Cool

/-- The offsets at which the lines of a text start, in increasing order. -/
structure Lines where
  starts : List Nat

/-- The starts of the lines behind each line end of `s`, a text that begins at `offset`. -/
def Lines.startsFrom (offset : Nat) : List Char → List Nat
  | [] => []
  | c :: s =>
    if c = '\n' then (offset + 1) :: Lines.startsFrom (offset + 1) s
    else Lines.startsFrom (offset + c.utf8Size) s

/-- The lines of a text. The first one starts at zero, also in the empty text. -/
def Lines.ofText (s : List Char) : Lines :=
  ⟨0 :: Lines.startsFrom 0 s⟩

/-- The line, counted from one, on which an offset lies. -/
def Lines.lineOf (ls : Lines) (offset : Nat) : Nat :=
  (ls.starts.filter (· ≤ offset)).length

end Cool
