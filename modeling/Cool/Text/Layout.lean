/-!
# Data laid out over lines

A value made of named fields, of unnamed items or of list elements is laid out with one line for
each of them, four blanks deeper and with a comma behind it, between brackets of the kind that
belongs to the value. An empty list is `[]`.

* `Layout` : values to be laid out;
* `Layout.render` : the text of one.
-/

namespace Cool

inductive Layout where
  /-- Text that stays on one line. -/
  | atom (text : String)
  /-- A name with one item in parentheses. -/
  | wrap (name : String) (item : Layout)
  /-- A name with named fields in braces. -/
  | record (name : String) (fields : List (String × Layout))
  | list (items : List Layout)

namespace Layout

def indentation (depth : Nat) : String :=
  String.ofList (List.replicate (4 * depth) ' ')

mutual

/-- The text of a layout; all its lines but the first are indented by `depth` levels. -/
def renderAt (depth : Nat) : Layout → String
  | atom text => text
  | wrap name item =>
    name ++ "(\n" ++ indentation (depth + 1) ++ renderAt (depth + 1) item ++ ",\n" ++
      indentation depth ++ ")"
  | record name fields =>
    name ++ " \x7b\n" ++ renderFields (depth + 1) fields ++ indentation depth ++ "\x7d"
  | list [] => "[]"
  | list (item :: items) =>
    "[\n" ++ renderItems (depth + 1) (item :: items) ++ indentation depth ++ "]"

def renderFields (depth : Nat) : List (String × Layout) → String
  | [] => ""
  | (name, value) :: fields =>
    indentation depth ++ name ++ ": " ++ renderAt depth value ++ ",\n" ++
      renderFields depth fields

def renderItems (depth : Nat) : List Layout → String
  | [] => ""
  | item :: items =>
    indentation depth ++ renderAt depth item ++ ",\n" ++ renderItems depth items

end

def render (l : Layout) : String :=
  l.renderAt 0

end Layout

end Cool
