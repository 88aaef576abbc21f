import Cool.Token.Literal

/-!
# Lexemes

The text of one token. `Lexeme.first` takes the longest lexeme from the front of a text that is
neither empty nor begins with trivia, and says which token it is or why it is none. Either way the
lexeme is not empty, and what follows it is where reading goes on.

Two signs of comments get here: one that closes nothing, and one that opens a comment which is
never closed. Of the latter only the sign itself is taken.

* `Lexeme.first` : the lexeme at the front of a text;
* `Lexeme.first_append` : a lexeme and the rest make up the text.
-/

namespace Cool

/-- A lexeme, the token it is or the reason that it is none, and what follows it. -/
structure Lexeme where
  outcome : Except LexicalError Kind
  text : List Char
  rest : List Char

/-- The characters of a word behind its first letter: letters and digits of ASCII, and `_`. -/
def isWordChar (c : Char) : Bool :=
  c.isAlphanum || c = '_'

/-- The token of a word: reserved, or else an identifier, of a type if it begins with a capital
letter. -/
def wordKind (word : List Char) : Kind :=
  let name := String.ofList word
  match Kind.reserved? name with
  | some kind => kind
  | none => if word.head?.any Char.isUpper then .typeId name else .objectId name

/-- The lexeme of a word. -/
def Lexeme.word (s : List Char) : Lexeme :=
  let text := s.takeWhile isWordChar
  ⟨.ok (wordKind text), text, s.dropWhile isWordChar⟩

/-- The lexeme of an integer constant. -/
def Lexeme.integer (s : List Char) : Lexeme :=
  let text := s.takeWhile Char.isDigit
  ⟨(integerValue text).map Kind.int, text, s.dropWhile Char.isDigit⟩

/-- The lexeme of a string constant, from the text behind its opening quote. Without a closing
quote it ends with its last unit. -/
def Lexeme.string (s : List Char) : Lexeme :=
  let (units, rest) := StringUnit.run s
  let body := units.flatMap StringUnit.spelling
  match rest with
  | '"' :: rest => ⟨(stringValue units).map Kind.string, '"' :: (body ++ ['"']), rest⟩
  | rest => ⟨.error .stringUnclosed, '"' :: body, rest⟩

/-- The lexeme of a symbol, or the single character `c` that starts none. -/
def Lexeme.symbol (c : Char) (s : List Char) : Lexeme :=
  match Symbol.atFront? (c :: s) with
  | some sign =>
    ⟨.ok (.symbol sign), sign.spelling, (c :: s).drop sign.spelling.length⟩
  | none => ⟨.error (.unexpected c), [c], s⟩

/-- The lexeme at the front of the text `c :: s`. -/
def Lexeme.first (c : Char) (s : List Char) : Lexeme :=
  if c.isDigit then Lexeme.integer (c :: s)
  else if c.isAlpha then Lexeme.word (c :: s)
  else
    match c, s with
    | '"', s => Lexeme.string s
    | '(', '*' :: s => ⟨.error .commentUnclosed, ['(', '*'], s⟩
    | '*', ')' :: s => ⟨.error .commentUnopened, ['*', ')'], s⟩
    | c, s => Lexeme.symbol c s

/-! ## A lexeme and the rest make up the text -/

theorem StringUnit.run_append (s : List Char) :
    (StringUnit.run s).1.flatMap StringUnit.spelling ++ (StringUnit.run s).2 = s := by
  fun_induction StringUnit.run s with
  | case1 => rfl
  | case2 c s units rest hr ih => simp_all [StringUnit.spelling]
  | case3 c s _ _ => rfl
  | case4 c s _ _ units rest hr ih => simp_all [StringUnit.spelling]

theorem Symbol.atFront?_append {text : List Char} {sign : Symbol}
    (h : Symbol.atFront? text = some sign) :
    sign.spelling ++ text.drop sign.spelling.length = text := by
  have hp : sign.spelling <+: text := by
    have := List.find?_some h
    simpa using this
  obtain ⟨rest, rfl⟩ := hp
  simp

theorem Symbol.spelling_ne_nil (sign : Symbol) : sign.spelling ≠ [] := by
  cases sign <;> decide

theorem Lexeme.string_append (s : List Char) :
    (Lexeme.string s).text ++ (Lexeme.string s).rest = '"' :: s := by
  have h := StringUnit.run_append s
  unfold Lexeme.string
  split
  next units rest hr =>
    rw [hr] at h
    dsimp only at h ⊢
    split <;> simp_all

theorem Lexeme.symbol_append (c : Char) (s : List Char) :
    (Lexeme.symbol c s).text ++ (Lexeme.symbol c s).rest = c :: s := by
  unfold Lexeme.symbol
  split
  · next h => exact Symbol.atFront?_append h
  · rfl

theorem Lexeme.first_append (c : Char) (s : List Char) :
    (Lexeme.first c s).text ++ (Lexeme.first c s).rest = c :: s := by
  unfold Lexeme.first
  split
  · exact List.takeWhile_append_dropWhile
  · split
    · exact List.takeWhile_append_dropWhile
    · split
      · exact Lexeme.string_append _
      · rfl
      · rfl
      · exact Lexeme.symbol_append _ _

theorem Lexeme.first_text_ne_nil (c : Char) (s : List Char) : (Lexeme.first c s).text ≠ [] := by
  unfold Lexeme.first
  split
  · next h => simp [Lexeme.integer, h]
  · split
    · next h =>
      have : isWordChar c = true := by
        simp only [Char.isAlphanum, isWordChar, h, Bool.true_or]
      simp [Lexeme.word, this]
    · split
      · unfold Lexeme.string
        dsimp only
        split <;> simp
      · simp
      · simp
      · unfold Lexeme.symbol
        split
        · exact Symbol.spelling_ne_nil _
        · simp

theorem Lexeme.length_rest_first (c : Char) (s : List Char) :
    (Lexeme.first c s).rest.length ≤ s.length := by
  have h := congrArg List.length (Lexeme.first_append c s)
  have := List.length_pos_iff.2 (Lexeme.first_text_ne_nil c s)
  simp only [List.length_append, List.length_cons] at h
  omega

end Cool
