import Cool.Grammar.Parser
import Cool.Proofs.Token.Spelling

/-!
# Tokens that are read

Every token of a text can be written: its name is a name, and its constant is no longer or greater
than a constant may be.

* `Lexeme.spells_first` : the text that the lexer takes for a token spells it;
* `Spells.spelled`, `Lexeme.spelled_first` : the tokens that are spelled can be written;
* `Stream.spelled_ofText`, `Stream.kind_ending_ofText` : the tokens of a text, and what ends them;
* `tokenize_eq` : the tokens of a text with its end, or its fault, as parsers read them.
-/

namespace Cool

variable {c : Char} {s : List Char} {k : Kind}

/-! ## Lexemes -/

theorem spells_of_reserved? {word : List Char}
    (h : Kind.reserved? (String.ofList word) = some k) : Spells word k := by
  unfold Kind.reserved? at h
  dsimp only at h
  rw [String.toList_ofList] at h
  split at h
  · rename_i keyword hkeyword
    cases h
    have hspelling := List.find?_some hkeyword
    rw [beq_iff_eq, ← String.toList_inj, String.toList_ofList] at hspelling
    exact .keyword hspelling.symm
  · split_ifs at h with hinitial htrue hfalse
    · cases h
      rw [beq_iff_eq, ← String.toList_inj, String.toList_ofList] at htrue
      exact .bool hinitial htrue
    · cases h
      rw [beq_iff_eq, ← String.toList_inj, String.toList_ofList] at hfalse
      exact .bool hinitial hfalse

/-- A word is reserved, or it is a name of one of the two sorts. -/
theorem spells_wordKind {word : List Char} (hinitial : word.head?.any Char.isAlpha = true)
    (hchars : word.all isWordChar = true) : Spells word (wordKind word) := by
  unfold wordKind
  dsimp only
  cases hreserved : Kind.reserved? (String.ofList word) with
  | some k => exact spells_of_reserved? hreserved
  | none =>
    obtain ⟨hfree, htruth⟩ := reserved?_eq_none_iff.mp hreserved
    obtain ⟨name, rfl⟩ : ∃ name : String, name.toList = word := ⟨_, String.toList_ofList⟩
    rw [String.ofList_toList] at hfree htruth ⊢
    dsimp only
    split
    · rename_i hupper
      exact .typeId ⟨hupper, hchars, hfree⟩
    · rename_i hupper
      have hlower : name.toList.head?.any Char.isLower = true := by
        obtain ⟨c, hc, halpha⟩ := (Option.any_eq_true _ _).mp hinitial
        rw [hc, Option.any_some] at hupper ⊢
        simpa [Char.isAlpha, hupper] using halpha
      exact .objectId ⟨hlower, hchars, hfree, htruth hlower⟩

/-- The characters that a run of units takes as they are can stand for themselves. -/
theorem needsEscape_of_plain_mem_run (h : .plain c ∈ (StringUnit.run s).1) :
    StringUnit.needsEscape c = false := by
  fun_induction StringUnit.run s with
  | case1 => cases h
  | case2 d s units rest hrun ih =>
    rw [hrun] at ih
    rcases List.mem_cons.mp h with heq | h
    · cases heq
    · exact ih h
  | case3 => cases h
  | case4 d s _ hd units rest hrun ih =>
    rw [hrun] at ih
    rcases List.mem_cons.mp h with heq | h
    · cases heq
      exact Bool.eq_false_iff.mpr hd
    · exact ih h

theorem Lexeme.spells_integer (hc : c.isDigit = true)
    (h : (Lexeme.integer (c :: s)).outcome = .ok k) : Spells (Lexeme.integer (c :: s)).text k := by
  unfold Lexeme.integer integerValue at h ⊢
  dsimp only at h ⊢
  split at h
  · cases h
  · rename_i hmax
    cases h
    refine .int ?_ (fun d hd => List.mem_takeWhile_imp hd) (Nat.not_lt.mp hmax)
    rw [List.takeWhile_cons_of_pos hc]
    exact List.cons_ne_nil _ _

theorem Lexeme.spells_word (hc : c.isAlpha = true)
    (h : (Lexeme.word (c :: s)).outcome = .ok k) : Spells (Lexeme.word (c :: s)).text k := by
  unfold Lexeme.word at h ⊢
  cases h
  dsimp only
  refine spells_wordKind ?_ List.all_takeWhile
  rw [List.takeWhile_cons_of_pos (isWordChar_of_isAlpha hc)]
  exact hc

theorem Lexeme.spells_string (h : (Lexeme.string s).outcome = .ok k) :
    Spells (Lexeme.string s).text k := by
  unfold Lexeme.string at h ⊢
  dsimp only at h ⊢
  split at h
  · rename_i rest hrest
    cases hvalue : stringValue (StringUnit.run s).1 with
    | error error =>
      rw [hvalue] at h
      cases h
    | ok value =>
      rw [hvalue] at h
      cases h
      exact .string (fun _ hc => needsEscape_of_plain_mem_run hc) hvalue
  · cases h

theorem Lexeme.spells_symbol (h : (Lexeme.symbol c s).outcome = .ok k) :
    Spells (Lexeme.symbol c s).text k := by
  unfold Lexeme.symbol at h ⊢
  split at h
  · cases h
    exact .symbol _
  · cases h

/-- The text that the lexer takes for a token spells it. -/
theorem Lexeme.spells_first (h : (Lexeme.first c s).outcome = .ok k) :
    Spells (Lexeme.first c s).text k := by
  revert h
  unfold Lexeme.first
  split
  · rename_i hdigit
    exact Lexeme.spells_integer hdigit
  split
  · rename_i halpha
    exact Lexeme.spells_word halpha
  split
  · exact Lexeme.spells_string
  · nofun
  · nofun
  · exact Lexeme.spells_symbol

/-- A unit means the null character only if it is one, or escapes one. -/
theorem value_ne_null {unit : StringUnit} (h : unit.error? = none) : unit.value ≠ '\x00' := by
  cases unit with
  | plain c => exact fun hnull => nomatch (if_pos hnull).symm.trans h
  | escaped c =>
    have hne : c ≠ '\x00' := fun hnull => nomatch (if_pos hnull).symm.trans h
    unfold StringUnit.value
    split
    · rename_i heq
      cases heq
    · nofun
    · nofun
    · nofun
    · nofun
    · rename_i heq
      injection heq with hc
      exact hc ▸ hne

theorem isStringValue_of_stringValue {units : List StringUnit} {value : String}
    (h : stringValue units = .ok value) : IsStringValue value := by
  unfold stringValue at h
  split at h
  · cases h
  · rename_i hnone
    dsimp only at h
    split at h
    · cases h
    · rename_i hlength
      cases h
      rw [IsStringValue, String.toList_ofList]
      refine ⟨fun hnull => ?_, by omega⟩
      obtain ⟨unit, hunit, hvalue⟩ := List.mem_map.mp hnull
      exact value_ne_null (List.findSome?_eq_none_iff.mp hnone unit hunit) hvalue

/-- A token that a text spells can be written. -/
theorem Spells.spelled {word : List Char} (h : Spells word k) : k.Spelled := by
  cases h with
  | keyword _ | symbol _ | bool _ _ => trivial
  | int _ _ hmax => exact hmax
  | string _ hvalue => exact isStringValue_of_stringValue hvalue
  | typeId h | objectId h => exact h

theorem Lexeme.spelled_first (h : (Lexeme.first c s).outcome = .ok k) : k.Spelled :=
  (Lexeme.spells_first h).spelled

/-! ## Texts -/

/-- The tokens in front of the end of a text can be written. -/
theorem Cursor.spelled_results (cursor : Cursor) :
    (∀ token, .ok token ∈ cursor.results.1 → token.kind.Spelled) ∧
      cursor.results.2.kind = .endOfFile := by
  fun_induction Cursor.results cursor with
  | case1 cursor h => exact ⟨nofun, rfl⟩
  | case2 cursor c s h lexeme hlt more last hmore ih =>
    rw [hmore] at ih
    refine ⟨fun token htoken => ?_, ih.2⟩
    rcases List.mem_cons.mp htoken with htoken | htoken
    · cases houtcome : lexeme.outcome with
      | error error =>
        rw [Cursor.read, houtcome] at htoken
        cases htoken
      | ok k =>
        rw [Cursor.read, houtcome] at htoken
        cases htoken
        exact Lexeme.spelled_first houtcome
    · exact ih.1 token htoken

theorem mem_of_mem_cut {eof token : Token} {found : List (Except Fault Token)}
    (h : token ∈ (Stream.cut eof found).1) : .ok token ∈ found := by
  fun_induction Stream.cut eof found with
  | case1 => cases h
  | case2 => cases h
  | case3 first found tokens ending hcut ih =>
    rw [hcut] at ih
    rcases List.mem_cons.mp h with rfl | h
    · exact List.mem_cons_self
    · exact List.mem_cons_of_mem _ (ih h)

theorem eq_of_cut_eq_ok {eof token : Token} {found : List (Except Fault Token)}
    (h : (Stream.cut eof found).2 = .ok token) : token = eof := by
  fun_induction Stream.cut eof found with
  | case1 => exact (Except.ok.inj h).symm
  | case2 => cases h
  | case3 first found tokens ending hcut ih =>
    rw [hcut] at ih
    exact ih h

theorem Stream.spelled_ofText (text : String) :
    ∀ token ∈ (Stream.ofText text).ahead, token.kind.Spelled :=
  fun token h => (Cursor.spelled_results _).1 token (mem_of_mem_cut h)

theorem Stream.kind_ending_ofText (text : String) (eof : Token)
    (h : (Stream.ofText text).ending = .ok eof) : eof.kind = .endOfFile := by
  rw [eq_of_cut_eq_ok h]
  exact (Cursor.spelled_results _).2

/-! ## Texts without a fault -/

/-- If what ends the tokens is the end token, there is no fault. -/
theorem eq_map_of_cut_eq_ok {eof token : Token} {found : List (Except Fault Token)}
    (h : (Stream.cut eof found).2 = .ok token) : found = (Stream.cut eof found).1.map .ok := by
  fun_induction Stream.cut eof found with
  | case1 => rfl
  | case2 => cases h
  | case3 first found tokens ending hcut ih =>
    rw [hcut] at ih
    exact congrArg (.ok first :: ·) (ih h)

/-- The tokens before the first fault, unless there is one. -/
theorem mapM_id_eq (eof : Token) (found : List (Except Fault Token)) :
    found.mapM id = (Stream.cut eof found).2.map fun _ => (Stream.cut eof found).1 := by
  fun_induction Stream.cut eof found with
  | case1 => rfl
  | case2 => rfl
  | case3 first found tokens ending hcut ih =>
    rw [List.mapM_cons, ih, hcut]
    cases ending <;> rfl

theorem mapM_id_map_ok {ε α : Type} : ∀ xs : List α,
    (xs.map (.ok : α → Except ε α)).mapM id = .ok xs
  | [] => rfl
  | x :: xs => by
    rw [List.map_cons, List.mapM_cons, mapM_id_map_ok xs]
    rfl

/-- The tokens that parsers read, with what ends them. -/
theorem tokenize_eq (text : String) : tokenize text =
    (Stream.ofText text).ending.map fun eof => (Stream.ofText text).ahead ++ [eof] := by
  have hresults : tokenize text = (results text).1.mapM id >>= fun tokens =>
      pure (tokens ++ [(results text).2]) := rfl
  rw [hresults, mapM_id_eq (results text).2]
  cases hending : (Stream.ofText text).ending with
  | error fault =>
    have hcut : (Stream.cut (results text).2 (results text).1).2 = .error fault := hending
    rw [hcut]
    rfl
  | ok eof =>
    obtain rfl := eq_of_cut_eq_ok hending
    have hcut : (Stream.cut (results text).2 (results text).1).2 = .ok (results text).2 := hending
    rw [hcut]
    rfl

theorem tokenize_of_ending {text : String} {eof : Token}
    (h : (Stream.ofText text).ending = .ok eof) :
    tokenize text = .ok ((Stream.ofText text).ahead ++ [eof]) := by
  rw [tokenize_eq, h]
  rfl

end Cool
