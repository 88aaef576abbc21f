import Cool.Proofs.Tree.Printed
import Cool.Token.Cursor
import Mathlib

/-!
# Spellings

The texts that the lexer takes for a token. A spelling is read back as its token wherever a blank
or the end of the text comes behind it.

* `Spells` : the spellings of a token;
* `reserved?_eq_none_iff` : the words that are identifiers;
* `Spells.first` : the lexer reads a spelling back;
* `Kind.spelling`, `spells_spelling` : one spelling of each token that can be written.
-/

namespace Cool

/-- What is behind a word that ends there: a blank, or nothing. -/
def Detached (rest : List Char) : Prop :=
  ∀ c ∈ rest.head?, isBlank c = true

/-- A text that spells a token. Keywords may be written in any mixture of letter case, truth values
behind their first letter; integers with zeros in front; strings with any escapes. -/
inductive Spells : List Char → Kind → Prop
  | keyword {word : List Char} {k : Keyword}
    (h : word.map Char.toLower = k.spelling.toList) : Spells word (.keyword k)
  | symbol (s : Symbol) : Spells s.spelling (.symbol s)
  | int {digits : List Char} (hne : digits ≠ []) (hdigits : ∀ c ∈ digits, c.isDigit = true)
    (hmax : digitsValue digits ≤ maxInteger) : Spells digits (.int (digitsValue digits))
  | bool {word : List Char} {b : Bool} (hinitial : word.head?.any Char.isLower = true)
    (h : word.map Char.toLower = (toString b).toList) : Spells word (.bool b)
  | string {units : List StringUnit} {value : String}
    (hplain : ∀ c, .plain c ∈ units → StringUnit.needsEscape c = false)
    (hvalue : stringValue units = .ok value) :
    Spells ('"' :: (units.flatMap StringUnit.spelling ++ ['"'])) (.string value)
  | typeId {name : String} (h : IsTypeName name) : Spells name.toList (.typeId name)
  | objectId {name : String} (h : IsObjectName name) : Spells name.toList (.objectId name)

variable {c : Char} {w rest : List Char} {k : Kind}

/-! ## Characters -/

theorem isWordChar_of_isAlpha (h : c.isAlpha = true) : isWordChar c = true := by
  simp [isWordChar, Char.isAlphanum, h]

theorem isDigit_eq_false_of_isAlpha (h : c.isAlpha = true) : c.isDigit = false := by
  simp only [Char.isAlpha, Char.isUpper, Char.isLower, Char.isDigit, Bool.or_eq_true,
    Bool.and_eq_true, decide_eq_true_eq, Bool.and_eq_false_iff, decide_eq_false_iff_not,
    UInt32.le_iff_toNat_le, ge_iff_le] at h ⊢
  have : 'A'.val.toNat = 65 := rfl
  have : 'a'.val.toNat = 97 := rfl
  have : '9'.val.toNat = 57 := rfl
  omega

theorem cases_isBlank (h : isBlank c = true) :
    c = ' ' ∨ c = '\t' ∨ c = '\n' ∨ c = '\r' ∨ c = '\x0b' ∨ c = '\x0c' := by
  simpa only [isBlank, Bool.or_eq_true, decide_eq_true_eq, or_assoc] using h

theorem isWordChar_eq_false_of_isBlank (h : isBlank c = true) : isWordChar c = false := by
  rcases cases_isBlank h with rfl | rfl | rfl | rfl | rfl | rfl <;> decide

theorem isDigit_eq_false_of_isBlank (h : isBlank c = true) : c.isDigit = false := by
  rcases cases_isBlank h with rfl | rfl | rfl | rfl | rfl | rfl <;> decide

/-- A small letter is no capital one. -/
theorem any_isUpper_of_any_isLower {c? : Option Char} (h : c?.any Char.isLower = true) :
    c?.any Char.isUpper = false := by
  obtain ⟨c, rfl, hc⟩ := (Option.any_eq_true _ _).mp h
  simp only [Char.isLower, Bool.and_eq_true, decide_eq_true_eq, UInt32.le_iff_toNat_le,
    ge_iff_le] at hc
  simp only [Option.any_some, Char.isUpper, decide_eq_false_iff_not, UInt32.le_iff_toNat_le,
    ge_iff_le]
  have : 'a'.val.toNat = 97 := rfl
  have : 'Z'.val.toNat = 90 := rfl
  omega

theorem Detached.takeWhile {p : Char → Bool} (hrest : Detached rest)
    (hp : ∀ c, isBlank c = true → p c = false) : rest.takeWhile p = [] := by
  cases rest with
  | nil => rfl
  | cons c s => exact List.takeWhile_cons_of_neg (by simp [hp c (hrest c rfl)])

/-- A run of characters ends where the text is cut. -/
theorem Detached.span {p : Char → Bool} (hrest : Detached rest)
    (hp : ∀ c, isBlank c = true → p c = false) (hw : ∀ c ∈ w, p c = true) :
    (w ++ rest).takeWhile p = w ∧ (w ++ rest).dropWhile p = rest := by
  have htake : (w ++ rest).takeWhile p = w := by
    rw [List.takeWhile_append_of_pos hw, hrest.takeWhile hp, List.append_nil]
  have hsplit := List.takeWhile_append_dropWhile (p := p) (l := w ++ rest)
  rw [htake] at hsplit
  exact ⟨htake, List.append_cancel_left hsplit⟩

/-! ## Words -/

/-- A word in front of a cut is read as its token. -/
theorem first_word (hinitial : c.isAlpha = true) (hw : ∀ d ∈ c :: w, isWordChar d = true)
    (hrest : Detached rest) :
    Lexeme.first c (w ++ rest) = ⟨.ok (wordKind (c :: w)), c :: w, rest⟩ := by
  obtain ⟨htake, hdrop⟩ := hrest.span (fun d => isWordChar_eq_false_of_isBlank) hw
  rw [List.cons_append] at htake hdrop
  unfold Lexeme.first
  rw [if_neg (by simp [isDigit_eq_false_of_isAlpha hinitial]), if_pos hinitial, Lexeme.word, htake,
    hdrop]

theorem ofSpelling?_spelling (k : Keyword) : Keyword.ofSpelling? k.spelling = some k := by
  cases k <;> decide

theorem isLower_of_mem_spelling (k : Keyword) : ∀ c ∈ k.spelling.toList, c.isLower = true :=
  List.all_eq_true.mp (by cases k <;> decide)

theorem isLower_of_mem_toString (b : Bool) : ∀ c ∈ (toString b).toList, c.isLower = true :=
  List.all_eq_true.mp (by cases b <;> decide)

theorem reserved?_keyword {word : String} {k : Keyword}
    (h : word.toList.map Char.toLower = k.spelling.toList) :
    Kind.reserved? word = some (.keyword k) := by
  unfold Kind.reserved?
  dsimp only
  rw [h, String.ofList_toList, ofSpelling?_spelling]

theorem reserved?_bool {word : String} {b : Bool}
    (hinitial : word.toList.head?.any Char.isLower = true)
    (h : word.toList.map Char.toLower = (toString b).toList) :
    Kind.reserved? word = some (.bool b) := by
  unfold Kind.reserved?
  dsimp only
  rw [h, String.ofList_toList, hinitial]
  cases b <;> decide

/-- The words that are identifiers. -/
theorem reserved?_eq_none_iff {word : String} : Kind.reserved? word = none ↔
    IsFreeWord word ∧ (word.toList.head?.any Char.isLower = true →
      ∀ b ∈ ["true", "false"], word.toList.map Char.toLower ≠ b.toList) := by
  have hfree : Keyword.ofSpelling? (String.ofList (word.toList.map Char.toLower)) = none ↔
      IsFreeWord word := by
    rw [Keyword.ofSpelling?, List.find?_eq_none]
    refine forall₂_congr fun k _ => ?_
    rw [beq_iff_eq, ← String.toList_inj, String.toList_ofList, eq_comm]
  have heq : ∀ s : String, (String.ofList (word.toList.map Char.toLower) == s) = true ↔
      word.toList.map Char.toLower = s.toList := by
    intro s
    rw [beq_iff_eq, ← String.toList_inj, String.toList_ofList]
  unfold Kind.reserved?
  dsimp only
  rw [← hfree]
  cases Keyword.ofSpelling? (String.ofList (word.toList.map Char.toLower)) with
  | some k => exact ⟨nofun, fun h => nomatch h.1⟩
  | none =>
    simp only [heq, List.forall_mem_cons]
    split_ifs <;> simp_all

theorem wordKind_of_reserved? {word : List Char}
    (h : Kind.reserved? (String.ofList word) = some k) : wordKind word = k := by
  rw [wordKind, h]

theorem wordKind_typeId {name : String} (h : IsTypeName name) :
    wordKind name.toList = .typeId name := by
  obtain ⟨hupper, -, hfree⟩ := h
  have hnone : Kind.reserved? name = none := by
    refine reserved?_eq_none_iff.mpr ⟨hfree, fun hlower => ?_⟩
    rw [any_isUpper_of_any_isLower hlower] at hupper
    cases hupper
  rw [wordKind, String.ofList_toList]
  simp only [hnone, hupper, if_true]

theorem wordKind_objectId {name : String} (h : IsObjectName name) :
    wordKind name.toList = .objectId name := by
  obtain ⟨hlower, -, hfree, htruth⟩ := h
  have hnone := reserved?_eq_none_iff.mpr ⟨hfree, fun _ => htruth⟩
  rw [wordKind, String.ofList_toList]
  simp [hnone, any_isUpper_of_any_isLower hlower]

/-! ## Constants and symbols -/

theorem first_integer (hdigits : ∀ d ∈ c :: w, d.isDigit = true)
    (hmax : digitsValue (c :: w) ≤ maxInteger) (hrest : Detached rest) :
    Lexeme.first c (w ++ rest) = ⟨.ok (.int (digitsValue (c :: w))), c :: w, rest⟩ := by
  obtain ⟨htake, hdrop⟩ := hrest.span (fun d => isDigit_eq_false_of_isBlank) hdigits
  rw [List.cons_append] at htake hdrop
  unfold Lexeme.first
  rw [if_pos (hdigits c List.mem_cons_self), Lexeme.integer, htake, hdrop, integerValue]
  rw [if_neg (Nat.not_lt.mpr hmax)]
  rfl

/-- A run of units ends at the quote behind it. -/
theorem run_units : ∀ {units : List StringUnit},
    (∀ c, .plain c ∈ units → StringUnit.needsEscape c = false) → ∀ rest,
      StringUnit.run (units.flatMap StringUnit.spelling ++ '"' :: rest) = (units, '"' :: rest)
  | [], _, _ => rfl
  | .escaped c :: units, h, rest => by
    have ih := run_units (fun d hd => h d (List.mem_cons_of_mem _ hd)) rest
    rw [List.flatMap_cons]
    show StringUnit.run ('\\' :: c :: (units.flatMap StringUnit.spelling ++ '"' :: rest)) = _
    rw [StringUnit.run, ih]
  | .plain c :: units, h, rest => by
    have ih := run_units (fun d hd => h d (List.mem_cons_of_mem _ hd)) rest
    have hc : StringUnit.needsEscape c = false := h c List.mem_cons_self
    rw [List.flatMap_cons]
    show StringUnit.run (c :: (units.flatMap StringUnit.spelling ++ '"' :: rest)) = _
    rw [StringUnit.run, if_neg (by simp [hc]), ih]
    rintro _ _ rfl -
    cases hc

theorem first_string {units : List StringUnit} {value : String}
    (hplain : ∀ c, .plain c ∈ units → StringUnit.needsEscape c = false)
    (hvalue : stringValue units = .ok value) (rest : List Char) :
    Lexeme.first '"' (units.flatMap StringUnit.spelling ++ ['"'] ++ rest) =
      ⟨.ok (.string value), '"' :: (units.flatMap StringUnit.spelling ++ ['"']), rest⟩ := by
  show Lexeme.string _ = _
  rw [List.append_assoc, List.singleton_append, Lexeme.string, run_units hplain]
  dsimp only
  rw [hvalue]
  rfl

theorem first_symbol (s : Symbol) (h : s.spelling = c :: w) (hrest : Detached rest) :
    Lexeme.first c (w ++ rest) = ⟨.ok (.symbol s), c :: w, rest⟩ := by
  cases rest with
  | nil => cases s <;> cases h <;> rfl
  | cons d rest =>
    rcases cases_isBlank (hrest d rfl) with rfl | rfl | rfl | rfl | rfl | rfl <;>
      cases s <;> cases h <;> rfl

/-! ## Spellings -/

theorem isAlpha_of_map_toLower {word lower : List Char} (h : word.map Char.toLower = lower)
    (hlower : ∀ c ∈ lower, c.isLower = true) : ∀ c ∈ word, c.isAlpha = true :=
  fun c hc => c.isLower_toLower_eq_isAlpha ▸ hlower _ (h ▸ List.mem_map_of_mem hc)

/-- The word of a keyword or a truth value, in whatever letter case. -/
theorem first_reserved {lower : List Char} (h : (c :: w).map Char.toLower = lower)
    (hlower : ∀ c ∈ lower, c.isLower = true)
    (hk : Kind.reserved? (String.ofList (c :: w)) = some k) (hrest : Detached rest) :
    Lexeme.first c (w ++ rest) = ⟨.ok k, c :: w, rest⟩ := by
  have halpha := isAlpha_of_map_toLower h hlower
  rw [first_word (halpha c List.mem_cons_self) (fun d hd => isWordChar_of_isAlpha (halpha d hd))
    hrest, wordKind_of_reserved? hk]

theorem Spells.first (h : Spells (c :: w) k) (hrest : Detached rest) :
    Lexeme.first c (w ++ rest) = ⟨.ok k, c :: w, rest⟩ := by
  generalize hword : c :: w = word at h
  cases h with
  | @keyword _ k h =>
    subst hword
    exact first_reserved h (isLower_of_mem_spelling k)
      (reserved?_keyword (by rwa [String.toList_ofList])) hrest
  | symbol s =>
    rw [← hword]
    exact first_symbol s hword.symm hrest
  | int hne hdigits hmax =>
    subst hword
    exact first_integer hdigits hmax hrest
  | @bool _ b hinitial h =>
    subst hword
    exact first_reserved h (isLower_of_mem_toString b)
      (reserved?_bool (by rwa [String.toList_ofList]) (by rwa [String.toList_ofList])) hrest
  | string hplain hvalue =>
    obtain ⟨rfl, rfl⟩ := List.cons.inj hword
    exact first_string hplain hvalue rest
  | @typeId name h =>
    rw [← wordKind_typeId h, ← hword]
    obtain ⟨hinitial, hchars, -⟩ := h
    rw [← hword] at hinitial hchars
    refine first_word ?_ (List.all_eq_true.mp hchars) hrest
    simpa [Char.isAlpha] using Or.inl hinitial
  | @objectId name h =>
    rw [← wordKind_objectId h, ← hword]
    obtain ⟨hinitial, hchars, -⟩ := h
    rw [← hword] at hinitial hchars
    refine first_word ?_ (List.all_eq_true.mp hchars) hrest
    simpa [Char.isAlpha] using Or.inr hinitial

/-- A spelling starts with a character of words, or it is that of a string or a symbol. -/
theorem Spells.cases_head (h : Spells (c :: w) k) :
    isWordChar c = true ∨ c = '"' ∨ ∃ s : Symbol, s.spelling = c :: w := by
  generalize hword : c :: w = word at h
  cases h with
  | @keyword _ k h =>
    subst hword
    exact Or.inl (isWordChar_of_isAlpha
      (isAlpha_of_map_toLower h (isLower_of_mem_spelling k) c List.mem_cons_self))
  | symbol s => exact Or.inr (Or.inr ⟨s, rfl⟩)
  | int hne hdigits hmax =>
    subst hword
    simp [isWordChar, Char.isAlphanum, hdigits c List.mem_cons_self]
  | @bool _ b hinitial h =>
    subst hword
    exact Or.inl (isWordChar_of_isAlpha
      (isAlpha_of_map_toLower h (isLower_of_mem_toString b) c List.mem_cons_self))
  | string hplain hvalue => exact Or.inr (Or.inl (List.cons.inj hword).1)
  | typeId h => exact Or.inl (List.all_eq_true.mp h.2.1 c (hword ▸ List.mem_cons_self))
  | objectId h => exact Or.inl (List.all_eq_true.mp h.2.1 c (hword ▸ List.mem_cons_self))

theorem Spells.ne_nil {word : List Char} (h : Spells word k) : word ≠ [] := by
  cases h with
  | @keyword _ k h =>
    rintro rfl
    cases k <;> cases h
  | symbol s => exact s.spelling_ne_nil
  | int hne _ _ => exact hne
  | bool hinitial h =>
    rintro rfl
    cases hinitial
  | string _ _ => exact List.cons_ne_nil _ _
  | typeId h | objectId h =>
    intro hnil
    have hinitial := h.1
    rw [hnil] at hinitial
    cases hinitial

/-! ## One spelling of each token -/

/-- The characters of a string constant. A quote, a backslash and the end of a line are escaped. -/
def StringUnit.ofChar (c : Char) : StringUnit :=
  if StringUnit.needsEscape c then .escaped c else .plain c

/-- How a token is written. -/
def Kind.spelling : Kind → List Char
  | .keyword k => k.spelling.toList
  | .symbol s => s.spelling
  | .int value => Nat.toDigits 10 value
  | .bool b => (toString b).toList
  | .string value =>
    '"' :: ((value.toList.map StringUnit.ofChar).flatMap StringUnit.spelling ++ ['"'])
  | .typeId name | .objectId name => name.toList
  | .endOfFile => []

theorem value_ofChar (c : Char) : (StringUnit.ofChar c).value = c := by
  unfold StringUnit.ofChar
  split_ifs with h
  · simp only [StringUnit.needsEscape, Bool.or_eq_true, decide_eq_true_eq] at h
    rcases h with (rfl | rfl) | rfl <;> rfl
  · rfl

theorem error?_ofChar {c : Char} (h : c ≠ '\x00') : (StringUnit.ofChar c).error? = none := by
  unfold StringUnit.ofChar
  split_ifs <;> exact if_neg h

theorem needsEscape_of_plain_mem {s : List Char} {c : Char}
    (h : .plain c ∈ s.map StringUnit.ofChar) : StringUnit.needsEscape c = false := by
  obtain ⟨d, -, hd⟩ := List.mem_map.mp h
  unfold StringUnit.ofChar at hd
  split_ifs at hd with hescape
  cases hd
  simpa using hescape

theorem stringValue_ofChar {value : String} (h : IsStringValue value) :
    stringValue (value.toList.map StringUnit.ofChar) = .ok value := by
  have hvalue : (value.toList.map StringUnit.ofChar).map StringUnit.value = value.toList := by
    rw [List.map_map]
    exact List.map_id'' value_ofChar value.toList
  have herror : (value.toList.map StringUnit.ofChar).findSome? StringUnit.error? = none := by
    refine List.findSome?_eq_none_iff.mpr fun unit hunit => ?_
    obtain ⟨c, hc, rfl⟩ := List.mem_map.mp hunit
    exact error?_ofChar fun hnull => h.1 (hnull ▸ hc)
  rw [stringValue, herror]
  dsimp only
  rw [hvalue, if_neg (Nat.not_lt.mpr h.2), String.ofList_toList]

theorem digitsValue_toDigits (n : Nat) : digitsValue (Nat.toDigits 10 n) = n :=
  Nat.ofDigitChars_toDigits (by decide) (by decide)

/-- A token whose value can be written is read back from its spelling. -/
theorem spells_spelling : ∀ {k : Kind}, k.Spelled → Spells k.spelling k
  | .keyword k, _ => .keyword (by cases k <;> decide)
  | .symbol s, _ => .symbol s
  | .int n, h => by
    have hne : Nat.toDigits 10 n ≠ [] := List.ne_nil_of_length_pos Nat.length_toDigits_pos
    have hint := Spells.int hne
      (fun c hc => Nat.isDigit_of_mem_toDigits (by decide) (by decide) hc)
      ((digitsValue_toDigits n).symm ▸ h)
    rwa [digitsValue_toDigits] at hint
  | .bool b, _ => .bool (by cases b <;> decide) (by cases b <;> decide)
  | .string _, h => .string (fun _ hc => needsEscape_of_plain_mem hc) (stringValue_ofChar h)
  | .typeId _, h => .typeId h
  | .objectId _, h => .objectId h

end Cool
