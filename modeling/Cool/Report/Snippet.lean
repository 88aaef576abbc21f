import Cool.Report.Notice
import Cool.Source.Lines

/-!
# Snippets of source text

How a labelled stretch of a file is shown: its lines with their numbers, and marks that point at it.
A stretch within one line is underlined with carets. One over several lines is framed on the left,
with a caret where it starts, unless only blanks come before, and one where it ends; of its inner
lines those near the two ends are shown, and the others are left out where that saves more than a
line.

Marks stand under characters, so they are counted in columns of the terminal: a control character
takes none, a tab goes on to the next tab stop, and any other character takes one.

* `SourceLine`, `SourceLine.ofText`, `SourceLine.holding?` : the lines of a file;
* `Cell`, `SourceLine.cells` : the characters of a line with their columns;
* `Snippet.ofLabel` : the text for a label.
-/

namespace Cool

/-! ## Lines -/

structure SourceLine where
  number : Nat
  /-- The byte offset of the first character. -/
  start : Nat
  /-- The characters, without the line end. -/
  text : List Char

/-- A text cut at its line ends. -/
def cutLines : List Char → List (List Char)
  | [] => [[]]
  | c :: s =>
    match cutLines s with
    | [] => [[c]]
    | line :: lines => if c = '\n' then [] :: line :: lines else (c :: line) :: lines

namespace SourceLine

/-- Lines with their starts, numbered from `number` on. -/
def numberFrom (number : Nat) : List (Nat × List Char) → List SourceLine
  | [] => []
  | (start, text) :: more => ⟨number, start, text⟩ :: numberFrom (number + 1) more

def ofText (text : List Char) : List SourceLine :=
  numberFrom 1 ((Lines.ofText text).starts.zip (cutLines text))

/-- The line of a text on which an offset lies. -/
def holding? (text : List Char) (offset : Nat) : Option SourceLine :=
  (ofText text)[(Lines.ofText text).lineOf offset - 1]?

/-- The characters that are shown: those before carriage returns and null characters at the end. -/
def visible (l : SourceLine) : List Char :=
  (l.text.reverse.dropWhile fun c => c = '\r' || c = '\x00').reverse

/-- How many bytes of the shown text are white space at its front. -/
def indentation (l : SourceLine) : Nat :=
  Text.bytes (l.visible.takeWhile fun c => c.isWhitespace || c = '\x0b' || c = '\x0c')

/-- The number, counted from one, of the character at an offset: one more than the number of
characters that end at or before it. -/
def charNumber (l : SourceLine) (offset : Nat) : Nat :=
  count l.start l.text + 1
where
  count (start : Nat) : List Char → Nat
    | [] => 0
    | c :: s =>
      if start + c.utf8Size ≤ offset then count (start + c.utf8Size) s + 1 else 0

end SourceLine

/-! ## Columns -/

/-- The distance of tab stops. -/
def tabWidth : Nat := 4

/-- How many columns a character takes that comes in a column, counted from zero. -/
def columnsOf (column : Nat) (c : Char) : Nat :=
  if c = '\t' then tabWidth - column % tabWidth
  else if c.toNat < 0x20 || (0x7f ≤ c.toNat && c.toNat < 0xa0) then 0
  else 1

/-- A character in a line. -/
structure Cell where
  char : Char
  /-- The byte offset in the line. -/
  offset : Nat
  /-- How many columns the character takes. -/
  columns : Nat

namespace Cell

/-- The cells of a text from an offset and a column of its line on. -/
def ofText (offset column : Nat) : List Char → List Cell
  | [] => []
  | c :: s =>
    ⟨c, offset, columnsOf column c⟩ ::
      ofText (offset + c.utf8Size) (column + columnsOf column c) s

/-- What is shown of a cell. A tab is shown as blanks. -/
def shown (c : Cell) : List Char :=
  if c.char = '\t' then List.replicate c.columns ' ' else [c.char]

/-- A character as often as a cell has columns. -/
def fill (mark : Char) (c : Cell) : List Char :=
  List.replicate c.columns mark

/-- The marks under a cell for a stretch of its line: carets if it is part of the stretch, blanks if
it comes before the end. -/
def marks (start stop : Nat) (c : Cell) : List Char :=
  if max c.offset start < min (c.offset + c.char.utf8Size) stop then c.fill '^'
  else if c.offset < stop then c.fill ' '
  else []

end Cell

namespace SourceLine

/-- The cells of the characters that are shown. -/
def cells (l : SourceLine) : List Cell :=
  Cell.ofText 0 0 l.visible

/-- The text as it is shown. -/
def shown (l : SourceLine) : String :=
  String.ofList (l.cells.flatMap Cell.shown)

/-- The cell behind the last character, which can be marked as well. -/
def endCell (l : SourceLine) : Cell :=
  ⟨' ', Text.bytes l.visible, 1⟩

end SourceLine

/-! ## Snippets -/

namespace Snippet

/-- How many inner lines are shown behind the first line of a label. -/
def linesBehindFirst : Nat := 3

/-- How many inner lines are shown before the last line of a label. -/
def linesBeforeLast : Nat := 1

def blanks (n : Nat) : String :=
  String.ofList (List.replicate n ' ')

/-- The number of digits of a number. -/
def width (n : Nat) : Nat :=
  (toString n).length

/-- The left border next to a line with a number, `w` columns wide. -/
def numbered (w : Nat) (line : SourceLine) (frame : String) : String :=
  blanks (w - width line.number) ++ toString line.number ++ " │" ++ frame ++ " " ++ line.shown ++
    "\n"

/-- The left border next to other text. -/
def bordered (w : Nat) (text : String) : String :=
  blanks w ++ " │" ++ text ++ "\n"

/-- A message behind a mark, if there is one. -/
def trailing (message : String) : String :=
  if message.isEmpty then "" else " " ++ message

/-- A rule above the characters of a line that start before an offset in it. -/
def ruler (line : SourceLine) (offset : Nat) : String :=
  String.ofList ((line.cells.takeWhile fun c => c.offset < offset).flatMap (Cell.fill '─'))

/-- A label within one line, from one offset in it to another. At least one character is marked. -/
def single (w : Nat) (line : SourceLine) (start stop : Nat) (message : String) : String :=
  let marks := (line.cells ++ [line.endCell]).flatMap (Cell.marks start (max stop (start + 1)))
  numbered w line "" ++ bordered w (" " ++ String.ofList marks ++ trailing message)

/-- The line on which a label over several lines starts, at an offset in it. -/
def opening (w : Nat) (line : SourceLine) (start : Nat) : String :=
  if start ≤ line.indentation then numbered w line " ╭"
  else numbered w line "  " ++ bordered w (" ╭" ++ ruler line (start + 1) ++ "^")

/-- A line inside of a label. -/
def inner (w : Nat) (line : SourceLine) : String :=
  numbered w line " │"

/-- The line on which a label over several lines ends, at an offset in it. -/
def closing (w : Nat) (line : SourceLine) (stop : Nat) (message : String) : String :=
  inner w line ++ bordered w (" ╰" ++ ruler line stop ++ "^" ++ trailing message)

/-- Lines that are left out between others, with a frame. One line alone is shown. -/
def omitted (w : Nat) (frame : String) : List SourceLine → String
  | [] => ""
  | [line] => numbered w line frame
  | _ => blanks w ++ " · │\n"

/-- The inner lines of a label. -/
def body (w : Nat) (lines : List SourceLine) : String :=
  let near := lines.take linesBehindFirst
  let others := lines.drop linesBehindFirst
  let hidden := others.take (others.length - linesBeforeLast)
  let far := others.drop (others.length - linesBeforeLast)
  String.join (near.map (inner w)) ++ omitted w " │" hidden ++ String.join (far.map (inner w))

/-- The lines between two lines of a text. -/
def between (text : List Char) (first last : SourceLine) : List SourceLine :=
  (SourceLine.ofText text).filter fun l => first.number < l.number && l.number < last.number

/-- The place of a label. -/
def place (w : Nat) (name : String) (line : SourceLine) (offset : Nat) : String :=
  blanks w ++ " ┌─ " ++ name ++ ":" ++ toString line.number ++ ":" ++
    toString (line.charNumber offset) ++ "\n"

/-- The lines and marks of a label that starts on the line `first` and ends on the line `last`. If
it ends before it starts, its end is shown first, and nothing of what lies between. -/
def frame (w : Nat) (text : List Char) (label : Label) (first last : SourceLine) : String :=
  let start := label.start - first.start
  let stop := label.stop - last.start
  if first.number = last.number then
    bordered w "" ++ single w first start stop label.message
  else if first.number < last.number then
    bordered w "  " ++ opening w first start ++ body w (between text first last) ++
      closing w last stop label.message
  else
    bordered w "  " ++ closing w last stop label.message ++
      omitted w "  " (between text last first) ++ opening w first start

/-- The snippet of a label in a file with a name and a text. -/
def ofLabel (name text : String) (label : Label) : String :=
  let s := text.toList
  match SourceLine.holding? s label.start, SourceLine.holding? s label.stop with
  | some first, some last =>
    let w := width (max first.number last.number)
    place w name first label.start ++ frame w s label first last
  | _, _ => ""

end Snippet

end Cool
