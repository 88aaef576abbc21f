import Cool.Diagnostic.Basic

/-!
# How undefined types are worded

A type that a check asks about and that is not defined has its own wording. It can be told from the
wording of all other defects by the first characters.

* `Diagnostic.IsUndefinedType` : diagnostics with this wording;
* `TypingDefect.message_ne`, `DeclarationDefect.message_ne`, `StructuralDefect.message_ne` : no
  other defect is worded so.
-/

namespace Cool

/-- The diagnostic reads that a type is undefined. -/
def Diagnostic.IsUndefinedType (d : Diagnostic) : Prop :=
  ∃ name, d.message = "Undefined type " ++ name ++ "."

/-- The first characters of a message. -/
def opening (n : Nat) (message : String) : List Char :=
  message.toList.take n

theorem opening_append {n : Nat} {a s : String} (h : n ≤ a.toList.length) :
    opening n (a ++ s) = opening n a := by
  rw [opening, opening, String.toList_append, List.take_append_of_le_length h]

/-- Messages that open in another way are others. -/
theorem ne_undefined_of_opening {n : Nat} {message : String}
    (hn : n ≤ "Undefined type ".toList.length)
    (h : opening n message ≠ opening n "Undefined type ") (name : String) :
    message ≠ "Undefined type " ++ name ++ "." := by
  rintro rfl
  apply h
  rw [String.append_assoc, opening_append hn]

theorem StructuralDefect.message_ne (defect : StructuralDefect) (name : String) :
    defect.message ≠ "Undefined type " ++ name ++ "." := by
  apply ne_undefined_of_opening (n := 5) (by decide +kernel)
  unfold message
  cases defect with
  | noMainClass | noEntryMethod | entryMethodHasFormals => decide +kernel
  | _ =>
    dsimp only
    simp (disch := decide +kernel) only [String.append_assoc, opening_append]
    decide +kernel

theorem DeclarationDefect.message_ne (defect : DeclarationDefect) (name : String) :
    defect.message ≠ "Undefined type " ++ name ++ "." := by
  unfold message
  cases defect with
  | attributeNamedSelf | formalNamedSelf =>
    exact ne_undefined_of_opening (n := 5) (by decide +kernel) (by decide +kernel) name
  | returnTypeUndefined type method =>
    -- the one that opens with the same word
    apply ne_undefined_of_opening (n := 11) (by decide +kernel)
    dsimp only
    simp (disch := decide +kernel) only [String.append_assoc, opening_append]
    decide +kernel
  | _ =>
    apply ne_undefined_of_opening (n := 5) (by decide +kernel)
    dsimp only
    simp (disch := decide +kernel) only [String.append_assoc, opening_append]
    decide +kernel

theorem TypingDefect.message_ne {defect : TypingDefect}
    (h : ∀ name, defect ≠ .undefinedType name) (name : String) :
    defect.message ≠ "Undefined type " ++ name ++ "." := by
  unfold message
  cases defect with
  | undefinedType type => exact absurd rfl (h type)
  | assignedSelf | staticSelfType | predicateNotBool | conditionNotBool | letSelf | caseSelf
  | valueCompared =>
    exact ne_undefined_of_opening (n := 5) (by decide +kernel) (by decide +kernel) name
  | _ =>
    apply ne_undefined_of_opening (n := 5) (by decide +kernel)
    dsimp only
    simp (disch := decide +kernel) only [String.append_assoc, opening_append]
    decide +kernel

end Cool
