import Cool.Proofs.Token.Spaced

/-!
# What string constants mean

A string constant is cut into units before any of them is given its meaning. Here the meaning is
said for itself, and compared with a loop over the characters between the quotes that resolves the
escapes as it goes on.

* `StringUnit.Means`, `StringUnit.Decodes` : what a unit means, and a row of units;
* `StringUnit.decodes_iff` : each row has just one outcome, which is that of `stringValue`;
* `unescape`, `decodeLiteral` : the loop over the characters, and the outcome for a whole constant;
* `decodeLiteral_literal` : the loop has the same outcome, and no constant ends within an escape;
* `StringUnit.literal_decodes` : what the lexer makes of any constant.
-/

namespace Cool

namespace StringUnit

/-! ## Meanings -/

/-- The unit is a null character or escapes one. -/
def IsNull (unit : StringUnit) : Prop :=
  unit = .plain '\x00' ∨ unit = .escaped '\x00'

/-- The character that a unit means. Behind a backslash four letters mean control characters, and
any other character means itself. -/
inductive Means : StringUnit → Char → Prop
  | plain {c : Char} : Means (.plain c) c
  | lineEnd : Means (.escaped 'n') '\n'
  | tab : Means (.escaped 't') '\t'
  | backspace : Means (.escaped 'b') '\x08'
  | formFeed : Means (.escaped 'f') '\x0c'
  | itself {c : Char} (h : c ∉ ['n', 't', 'b', 'f']) : Means (.escaped c) c

/-- The outcome for a row of units: its value, or what is wrong with it. -/
inductive Decodes (units : List StringUnit) : Except LexicalError String → Prop
  | value {value : List Char} (hnull : ∀ unit ∈ units, ¬ unit.IsNull)
    (hmeans : List.Forall₂ Means units value) (hbytes : Text.bytes value ≤ 1024) :
    Decodes units (.ok (String.ofList value))
  | tooLong {value : List Char} (hnull : ∀ unit ∈ units, ¬ unit.IsNull)
    (hmeans : List.Forall₂ Means units value) (hbytes : 1024 < Text.bytes value) :
    Decodes units (.error .stringTooLong)
  | null {before behind : List StringUnit} (hunits : units = before ++ .plain '\x00' :: behind)
    (hbefore : ∀ unit ∈ before, ¬ unit.IsNull) : Decodes units (.error .stringHasNull)
  | escapedNull {before behind : List StringUnit}
    (hunits : units = before ++ .escaped '\x00' :: behind)
    (hbefore : ∀ unit ∈ before, ¬ unit.IsNull) : Decodes units (.error .stringHasEscapedNull)

/-- The constant that is written with some units. -/
def literal (units : List StringUnit) : List Char :=
  '"' :: (units.flatMap spelling ++ ['"'])

variable {unit : StringUnit} {units : List StringUnit} {c : Char}

theorem needsEscape_eq_false_iff : needsEscape c = false ↔ c ∉ ['"', '\\', '\n'] := by
  simp [needsEscape, and_assoc]

/-- The units of a value are written with a backslash where one is needed. -/
theorem literal_ofChar (value : List Char) : literal (value.map ofChar) =
    '"' :: ((value.flatMap fun c => if c ∈ ['"', '\\', '\n'] then ['\\', c] else [c]) ++ ['"']) := by
  rw [literal, List.flatMap_map]
  congr 3
  funext c
  by_cases h : needsEscape c = false
  · rw [if_neg (needsEscape_eq_false_iff.mp h), ofChar, if_neg (by simp [h])]
    rfl
  · rw [if_pos (not_not.mp (mt needsEscape_eq_false_iff.mpr h)), ofChar, if_pos (by simpa using h)]
    rfl

theorem value_escaped (h : c ∉ ['n', 't', 'b', 'f']) : (escaped c).value = c := by
  unfold value
  split <;> simp_all

theorem means_iff : unit.Means c ↔ unit.value = c := by
  constructor
  · rintro (_ | _ | _ | _ | _ | h)
    iterate 5 rfl
    exact value_escaped h
  · rintro rfl
    cases unit with
    | plain c => exact .plain
    | escaped c =>
      by_cases h : c ∈ ['n', 't', 'b', 'f']
      · simp only [List.mem_cons, List.not_mem_nil, or_false] at h
        rcases h with rfl | rfl | rfl | rfl
        · exact .lineEnd
        · exact .tab
        · exact .backspace
        · exact .formFeed
      · rw [value_escaped h]
        exact .itself h

theorem forall₂_means_iff {value : List Char} :
    List.Forall₂ Means units value ↔ units.map StringUnit.value = value := by
  have hmeans : Means = fun unit c => unit.value = c :=
    funext₂ fun _ _ => propext means_iff
  rw [hmeans, ← List.forall₂_map_left_iff (R := Eq), List.forall₂_eq_eq_eq]

theorem error?_eq_none_iff : unit.error? = none ↔ ¬ unit.IsNull := by
  cases unit <;> simp [error?, IsNull]

theorem error?_eq_some_iff {error : LexicalError} : unit.error? = some error ↔
    (unit = .plain '\x00' ∧ error = .stringHasNull) ∨
      (unit = .escaped '\x00' ∧ error = .stringHasEscapedNull) := by
  cases unit <;> simp [error?, eq_comm]

/-- No unit of the row is a null character or escapes one. -/
theorem findSome?_error?_eq_none_iff :
    units.findSome? error? = none ↔ ∀ unit ∈ units, ¬ unit.IsNull := by
  simp only [List.findSome?_eq_none_iff, error?_eq_none_iff]

/-- The first unit that is a null character or escapes one says what is wrong. -/
theorem findSome?_error?_eq_some_iff {error : LexicalError} :
    units.findSome? error? = some error ↔ ∃ before unit behind,
      units = before ++ unit :: behind ∧ unit.error? = some error ∧
        ∀ unit ∈ before, ¬ unit.IsNull := by
  simp only [List.findSome?_eq_some_iff, error?_eq_none_iff]

theorem stringValue_of_some {error : LexicalError} (h : units.findSome? error? = some error) :
    stringValue units = .error error := by
  rw [stringValue, h]

theorem stringValue_of_none (h : units.findSome? error? = none) : stringValue units =
    if Text.bytes (units.map StringUnit.value) > maxStringBytes then .error .stringTooLong
    else .ok (String.ofList (units.map StringUnit.value)) := by
  rw [stringValue, h]

/-- A row of units has the outcome that `stringValue` finds, and no other. -/
theorem decodes_iff {outcome : Except LexicalError String} :
    Decodes units outcome ↔ stringValue units = outcome := by
  constructor
  · intro h
    cases h with
    | value hnull hmeans hbytes =>
      rw [forall₂_means_iff] at hmeans
      rw [stringValue_of_none (findSome?_error?_eq_none_iff.mpr hnull), hmeans]
      exact if_neg (Nat.not_lt.mpr hbytes)
    | tooLong hnull hmeans hbytes =>
      rw [forall₂_means_iff] at hmeans
      rw [stringValue_of_none (findSome?_error?_eq_none_iff.mpr hnull), hmeans]
      exact if_pos hbytes
    | null hunits hbefore | escapedNull hunits hbefore =>
      exact stringValue_of_some
        (findSome?_error?_eq_some_iff.mpr ⟨_, _, _, hunits, rfl, hbefore⟩)
  · rintro rfl
    rcases hfind : units.findSome? error? with - | error
    · have hnull := findSome?_error?_eq_none_iff.mp hfind
      have hmeans := forall₂_means_iff.mpr (Eq.refl (units.map StringUnit.value))
      rw [stringValue_of_none hfind]
      split_ifs with hbytes
      · exact .tooLong hnull hmeans hbytes
      · exact .value hnull hmeans (Nat.not_lt.mp hbytes)
    · rw [stringValue_of_some hfind]
      obtain ⟨before, unit, behind, hunits, herror, hbefore⟩ :=
        findSome?_error?_eq_some_iff.mp hfind
      rcases error?_eq_some_iff.mp herror with ⟨rfl, rfl⟩ | ⟨rfl, rfl⟩
      · exact .null hunits hbefore
      · exact .escapedNull hunits hbefore

end StringUnit

/-! ## A loop over the characters -/

/-- The character that a backslash and the character behind it give. -/
def resolveEscape : Char → Except LexicalError Char
  | 'n' => .ok '\n'
  | 't' => .ok '\t'
  | 'b' => .ok '\x08'
  | 'f' => .ok '\x0c'
  | '\x00' => .error .stringHasEscapedNull
  | c => .ok c

/-- The characters of a constant with the escapes resolved, one after the other. What is done with a
backslash that nothing stands behind is left open. -/
def unescape (trailing : Except LexicalError (List Char)) :
    List Char → Except LexicalError (List Char)
  | [] => .ok []
  | ['\\'] => trailing
  | '\\' :: c :: s => do
    let d ← resolveEscape c
    let value ← unescape trailing s
    return d :: value
  | c :: s => do
    if c = '\x00' then throw .stringHasNull
    let value ← unescape trailing s
    return c :: value

/-- The value of a constant that is given with its quotes. -/
def decodeLiteral (trailing : Except LexicalError (List Char)) (text : List Char) :
    Except LexicalError String := do
  let value ← unescape trailing text.tail.dropLast
  if Text.bytes value > maxStringBytes then throw .stringTooLong
  return String.ofList value

section Loop

variable {units : List StringUnit} {trailing : Except LexicalError (List Char)}

theorem resolveEscape_of_some {c : Char} {error : LexicalError}
    (h : (StringUnit.escaped c).error? = some error) : resolveEscape c = .error error := by
  rcases StringUnit.error?_eq_some_iff.mp h with ⟨hnull, -⟩ | ⟨hnull, rfl⟩
  · cases hnull
  · cases hnull
    rfl

theorem resolveEscape_of_none {c : Char} (h : (StringUnit.escaped c).error? = none) :
    resolveEscape c = .ok (StringUnit.escaped c).value := by
  unfold resolveEscape
  split
  iterate 4 rfl
  · cases h
  · rename_i hn ht hb hf _
    have hother : c ∉ ['n', 't', 'b', 'f'] := by
      simpa only [List.mem_cons, List.not_mem_nil, or_false, not_or] using ⟨hn, ht, hb, hf⟩
    rw [StringUnit.value_escaped hother]

theorem unescape_escaped (trailing : Except LexicalError (List Char)) (c : Char) (s : List Char) :
    unescape trailing ('\\' :: c :: s) =
      (resolveEscape c >>= fun d => unescape trailing s >>= fun value => pure (d :: value)) :=
  rfl

theorem unescape_plain {c : Char} (hc : c ≠ '\\') (s : List Char) : unescape trailing (c :: s) =
    if c = '\x00' then .error .stringHasNull
    else unescape trailing s >>= fun value => pure (c :: value) := by
  rw [unescape]
  · split_ifs <;> rfl
  · rintro rfl rfl
    exact hc rfl
  · rintro _ _ rfl -
    exact hc rfl

/-- The loop finds what the units mean, one by one. It never gets to a backslash at the end. -/
theorem unescape_units (hplain : ∀ c, .plain c ∈ units → StringUnit.needsEscape c = false) :
    unescape trailing (units.flatMap StringUnit.spelling) =
      match units.findSome? StringUnit.error? with
      | some error => .error error
      | none => .ok (units.map StringUnit.value) := by
  induction units with
  | nil => rfl
  | cons unit units ih =>
    have hmore := ih fun c hc => hplain c (List.mem_cons_of_mem _ hc)
    rw [List.flatMap_cons, List.findSome?_cons, List.map_cons]
    cases unit with
    | plain c =>
      have hc : c ≠ '\\' := by
        rintro rfl
        exact absurd (hplain _ List.mem_cons_self) (by decide)
      show unescape trailing (c :: units.flatMap StringUnit.spelling) = _
      rw [unescape_plain hc]
      split_ifs with hnull
      · rw [hnull]
        rfl
      · rw [hmore, StringUnit.error?, if_neg hnull]
        dsimp only
        cases units.findSome? StringUnit.error? <;> rfl
    | escaped c =>
      show unescape trailing ('\\' :: c :: units.flatMap StringUnit.spelling) = _
      rw [unescape_escaped]
      rcases herror : (StringUnit.escaped c).error? with - | error
      · rw [resolveEscape_of_none herror, hmore]
        dsimp only
        cases units.findSome? StringUnit.error? <;> rfl
      · rw [resolveEscape_of_some herror]
        rfl

/-- Whatever the loop did with a backslash at the end, a constant has the outcome of its units. -/
theorem decodeLiteral_literal
    (hplain : ∀ c, .plain c ∈ units → StringUnit.needsEscape c = false) :
    decodeLiteral trailing (StringUnit.literal units) = stringValue units := by
  have hbody : (StringUnit.literal units).tail.dropLast = units.flatMap StringUnit.spelling :=
    List.dropLast_concat
  rw [decodeLiteral, hbody, unescape_units hplain, stringValue]
  cases units.findSome? StringUnit.error? with
  | some error => rfl
  | none =>
    dsimp only
    rw [show maxStringBytes = 1024 from rfl]
    split_ifs with hlong
    · exact if_pos hlong
    · exact if_neg hlong

end Loop

/-! ## Reading -/

namespace Cursor

variable {cursor : Cursor} {units : List StringUnit} {rest : List Char}

/-- The lexeme of a constant is the constant, whatever its outcome and whatever stands behind. -/
theorem first_literal (hplain : ∀ c, .plain c ∈ units → StringUnit.needsEscape c = false)
    (rest : List Char) :
    Lexeme.first '"' (units.flatMap StringUnit.spelling ++ ['"'] ++ rest) =
      ⟨(stringValue units).map Kind.string, StringUnit.literal units, rest⟩ := by
  show Lexeme.string _ = _
  rw [List.append_assoc, List.singleton_append, Lexeme.string, run_units hplain]
  rfl

theorem next_literal (hplain : ∀ c, .plain c ∈ units → StringUnit.needsEscape c = false)
    (hrest : cursor.rest = StringUnit.literal units ++ rest) :
    cursor.next =
      (cursor.read ⟨(stringValue units).map Kind.string, StringUnit.literal units, rest⟩,
        cursor.past (StringUnit.literal units) rest) := by
  have hskip : cursor.skipTrivia = cursor := by
    have hpiece : Trivia.piece? cursor.rest = none := by
      rw [hrest]
      rfl
    rw [skipTrivia, skip_of_piece?_eq_none hpiece]
    rfl
  rw [next, hskip]
  dsimp only
  rw [hrest, StringUnit.literal, List.cons_append]
  dsimp only
  rw [first_literal hplain]
  rfl

theorem next_of_stringValue_eq_ok {value : String}
    (hplain : ∀ c, .plain c ∈ units → StringUnit.needsEscape c = false)
    (hvalue : stringValue units = .ok value)
    (hrest : cursor.rest = StringUnit.literal units ++ rest) : cursor.next =
      (.ok ⟨.string value, cursor.spanOf (StringUnit.literal units)⟩,
        cursor.past (StringUnit.literal units) rest) := by
  rw [next_literal hplain hrest, hvalue]
  rfl

theorem next_of_stringValue_eq_error {error : LexicalError}
    (hplain : ∀ c, .plain c ∈ units → StringUnit.needsEscape c = false)
    (herror : stringValue units = .error error)
    (hrest : cursor.rest = StringUnit.literal units ++ rest) : cursor.next =
      (.error (.lexical error (cursor.spanOf (StringUnit.literal units))),
        cursor.past (StringUnit.literal units) rest) := by
  rw [next_literal hplain hrest, herror]
  rfl

end Cursor

/-- A constant is read as one token or one fault that covers it all. It is the token of its value if
no unit is or escapes a null character and the value has at most 1024 bytes; else the first such
unit is at fault, or the length. No constant ends within an escape. And any value without null
characters that is not too long has a constant, in which quotes, backslashes and line ends are
escaped. -/
theorem StringUnit.literal_decodes :
    (∀ units : List StringUnit, (∀ c, .plain c ∈ units → c ∉ ['"', '\\', '\n']) →
      ∃ outcome, Decodes units outcome ∧ (∀ other, Decodes units other → other = outcome) ∧
        (∀ trailing, decodeLiteral trailing (literal units) = outcome) ∧
        ∀ (cursor : Cursor) (rest : List Char), cursor.rest = literal units ++ rest →
          let span := cursor.spanOf (literal units)
          (∀ value, outcome = .ok value → cursor.next =
            (.ok ⟨.string value, span⟩, cursor.past (literal units) rest)) ∧
          (∀ error, outcome = .error error → cursor.next =
            (.error (.lexical error span), cursor.past (literal units) rest))) ∧
    (∀ value : String, '\x00' ∉ value.toList → Text.bytes value.toList ≤ 1024 →
      ∀ (cursor : Cursor) (rest : List Char),
        let text := '"' :: ((value.toList.flatMap fun c =>
          if c ∈ ['"', '\\', '\n'] then ['\\', c] else [c]) ++ ['"'])
        cursor.rest = text ++ rest → cursor.next =
          (.ok ⟨.string value, cursor.spanOf text⟩, cursor.past text rest)) ∧
    LexicalError.stringHasNull.message = "string contains null character" ∧
    LexicalError.stringHasEscapedNull.message = "string contains escaped null character" ∧
    LexicalError.stringTooLong.message = "string constant too long" := by
  refine ⟨?_, ?_, rfl, rfl, rfl⟩
  · intro units hunits
    have hplain : ∀ c, .plain c ∈ units → needsEscape c = false :=
      fun c hc => needsEscape_eq_false_iff.mpr (hunits c hc)
    refine ⟨stringValue units, decodes_iff.mpr rfl, ?_, ?_, ?_⟩
    · exact fun other hother => (decodes_iff.mp hother).symm
    · exact fun trailing => decodeLiteral_literal hplain
    · intro cursor rest hrest
      constructor
      · exact fun value hvalue => Cursor.next_of_stringValue_eq_ok hplain hvalue hrest
      · exact fun error herror => Cursor.next_of_stringValue_eq_error hplain herror hrest
  · intro value hnull hbytes cursor rest text hrest
    have htext : literal (value.toList.map ofChar) = text := literal_ofChar value.toList
    rw [← htext] at hrest ⊢
    exact Cursor.next_of_stringValue_eq_ok (fun _ hc => needsEscape_of_plain_mem hc)
      (stringValue_ofChar ⟨hnull, hbytes⟩) hrest

/-- A tab, a line end that is escaped, a quote and a letter that needs no backslash. -/
example : stringValue [.plain 'a', .escaped 't', .escaped '\n', .escaped '"', .escaped 'q'] =
    .ok "a\t\n\"q" := by
  decide

end Cool
