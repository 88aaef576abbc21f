import Cool.Fault

/-!
# Constants

How the characters of a constant give its value.

A string constant is a run of units between two quotes: a character that stands for itself, or a
backslash together with the character behind it, which may be a line end. The units are read
without their meaning first, so that a constant ends at the right quote whatever it contains;
their values come second. An integer constant is a run of digits.

* `StringUnit.run` : the longest run of units at the front of a text, and the rest;
* `StringUnit.spelling`, `StringUnit.value` : the characters of a unit, and the one it means;
* `stringValue` : the value of a string constant, or why it has none;
* `integerValue` : the value of an integer constant, or why it has none.
-/

namespace Cool

/-! ## Strings -/

inductive StringUnit where
  | plain (c : Char)
  | escaped (c : Char)
  deriving DecidableEq

/-- The characters that cannot stand for themselves in a string constant. -/
def StringUnit.needsEscape (c : Char) : Bool :=
  c = '"' || c = '\\' || c = '\n'

/-- The longest run of units at the front of a text, and what follows it. A backslash that ends
the text is no unit. -/
def StringUnit.run : List Char → List StringUnit × List Char
  | [] => ([], [])
  | '\\' :: c :: s =>
    let (units, rest) := StringUnit.run s
    (.escaped c :: units, rest)
  | c :: s =>
    if StringUnit.needsEscape c then ([], c :: s)
    else
      let (units, rest) := StringUnit.run s
      (.plain c :: units, rest)

def StringUnit.spelling : StringUnit → List Char
  | .plain c => [c]
  | .escaped c => ['\\', c]

/-- The character that a unit means. Four escaped letters mean control characters; any other
escaped character means itself. -/
def StringUnit.value : StringUnit → Char
  | .plain c => c
  | .escaped 'n' => '\n'
  | .escaped 't' => '\t'
  | .escaped 'b' => '\x08'
  | .escaped 'f' => '\x0c'
  | .escaped c => c

/-- Why a unit cannot be part of a string, if it cannot. -/
def StringUnit.error? : StringUnit → Option LexicalError
  | .plain c => if c = '\x00' then some .stringHasNull else none
  | .escaped c => if c = '\x00' then some .stringHasEscapedNull else none

/-- The greatest length of a string constant's value, in bytes. -/
def maxStringBytes : Nat := 1024

/-- The value of a run of units. The first unit that is or escapes a null character decides
before the length does. -/
def stringValue (units : List StringUnit) : Except LexicalError String :=
  match units.findSome? StringUnit.error? with
  | some error => .error error
  | none =>
    let value := units.map StringUnit.value
    if Text.bytes value > maxStringBytes then .error .stringTooLong
    else .ok (String.ofList value)

/-! ## Integers -/

/-- The greatest integer constant. -/
def maxInteger : Nat := Nat.pow 2 63 - 1

/-- The number that a run of decimal digits stands for. -/
def digitsValue (digits : List Char) : Nat :=
  digits.foldl (fun n c => 10 * n + (c.toNat - '0'.toNat)) 0

def integerValue (digits : List Char) : Except LexicalError Nat :=
  let value := digitsValue digits
  if value > maxInteger then .error (.integerTooLarge (String.ofList digits))
  else .ok value

end Cool
