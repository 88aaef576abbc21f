import Cool.Proofs.Tree.Parts

/-!
# The lines of a dump

What is shown of a node stands on one line: the number of its source line, a word for its sort, the
names and constants, and for an expression the type. All of it can be told from the line, as names
contain neither blanks nor punctuation.

* `Ty.Legible`, `Note.Legible` : types that can be told from their names;
* `Note.label_inj`, `Span.label_inj` : the line number, the text and the type of a line;
* `Formal.intercalate_inj` : the formal parameters in the line of a method.
-/

namespace Cool

/-! ## Types -/

/-- A class with a name that is no keyword and not that of `SELF_TYPE`, or `SELF_TYPE` itself. -/
def Ty.Legible : Ty → Prop
  | .named name => IsTypeName name ∧ name ≠ Names.selfType
  | .selfType => True

def Note.Legible (note : Note) : Prop :=
  ∀ τ ∈ note.type?, τ.Legible

/-- How the type in a note is shown. -/
def Note.typeName (note : Note) : String :=
  (note.type?.map Ty.name).getD "_no_type"

theorem Ty.Legible.name_inj {τ τ' : Ty} (h : τ.Legible) (h' : τ'.Legible)
    (hname : τ.name = τ'.name) : τ = τ' := by
  cases τ with
  | named name =>
    cases τ' with
    | named name' => exact congrArg Ty.named hname
    | selfType => exact absurd hname h.2
  | selfType =>
    cases τ' with
    | named name' => exact absurd hname.symm h'.2
    | selfType => rfl

theorem Ty.Legible.isTypeName {τ : Ty} (h : τ.Legible) : IsTypeName τ.name := by
  cases τ with
  | named name => exact h.1
  | selfType => decide

theorem Ty.Legible.name_ne {τ : Ty} (h : τ.Legible) : τ.name ≠ "_no_type" := by
  intro hname
  have htype := h.isTypeName
  rw [hname] at htype
  revert htype
  decide

namespace Note

variable {note note' : Note}

theorem Legible.all_typeName (h : note.Legible) :
    note.typeName.toList.all isWordChar = true := by
  rcases note with ⟨span, - | τ⟩
  · show "_no_type".toList.all isWordChar = true
    decide
  · exact (h τ rfl).isTypeName.2.1

theorem Legible.typeName_inj (h : note.Legible) (h' : note'.Legible)
    (hname : note.typeName = note'.typeName) : note.type? = note'.type? := by
  rcases note with ⟨span, - | τ⟩ <;> rcases note' with ⟨span', - | τ'⟩
  · rfl
  · exact absurd hname.symm (h' τ' rfl).name_ne
  · exact absurd hname (h τ rfl).name_ne
  · exact congrArg some ((h τ rfl).name_inj (h' τ' rfl) hname)

end Note

/-! ## Labels -/

theorem toList_toString (n : Nat) : (toString n).toList = Nat.toDigits 10 n := by
  rw [Nat.toString_eq_ofList_toDigits, String.toList_ofList]

/-- Nothing but digits is in a number. -/
theorem notMem_toString {a : Char} (ha : a.isDigit = false) (n : Nat) :
    a ∉ (toString n).toList := by
  rw [toList_toString]
  intro hmem
  rw [Nat.isDigit_of_mem_toDigits (by decide) (by decide) hmem] at ha
  cases ha

theorem Span.toList_label (span : Span) (text : String) : (span.label text).toList =
    '#' :: ((toString span.line).toList ++ ' ' :: text.toList) := by
  simp [Span.label]

/-- The line number and the text can be told from a line. -/
theorem Span.label_inj {span span' : Span} {text text' : String}
    (h : span.label text = span'.label text') : span.line = span'.line ∧ text = text' := by
  have hchars := congrArg String.toList h
  rw [toList_label, toList_label, List.cons.injEq] at hchars
  obtain ⟨hline, htext⟩ := Text.append_cons_inj (notMem_toString (by decide) _)
    (notMem_toString (by decide) _) hchars.2
  exact ⟨Nat.repr_injective (String.toList_injective hline), String.toList_injective htext⟩

theorem Span.label_ne_self (span : Span) (text : String) : span.label text ≠ "(self)" := by
  intro h
  have hhead := congrArg List.head? (congrArg String.toList h)
  rw [toList_label, List.head?_cons] at hhead
  exact absurd hhead (by decide)

theorem Span.isLine_label {text : String} (h : '\n' ∉ text.toList) (span : Span) :
    IsLine (span.label text) := by
  rw [IsLine, toList_label]
  refine ⟨?_, by simp⟩
  simp only [List.mem_cons, List.mem_append, not_or]
  exact ⟨by decide, notMem_toString (by decide) _, by decide, h⟩

/-- The line number, the text and the type can be told from the line of an expression: the type is
what stands behind the last blank. -/
theorem Note.label_inj {note note' : Note} {text text' : String} (h : note.Legible)
    (h' : note'.Legible) (hlabel : note.label text = note'.label text') :
    note.span.line = note'.span.line ∧ text = text' ∧ note.type? = note'.type? := by
  obtain ⟨hline, htext⟩ := Span.label_inj hlabel
  have hchars : (text.toList ++ [' ', ':']) ++ ' ' :: note.typeName.toList =
      (text'.toList ++ [' ', ':']) ++ ' ' :: note'.typeName.toList := by
    simpa [typeName] using congrArg String.toList htext
  obtain ⟨hfront, htype⟩ := Text.append_cons_inj_last
    (notMem_of_all h.all_typeName (by decide)) (notMem_of_all h'.all_typeName (by decide)) hchars
  exact ⟨hline, String.toList_injective (List.append_cancel_right hfront),
    h.typeName_inj h' (String.toList_injective htype)⟩

theorem Note.isLine_label {note : Note} {text : String} (h : note.Legible)
    (htext : '\n' ∉ text.toList) : IsLine (note.label text) := by
  apply Span.isLine_label
  show '\n' ∉ (text ++ " : " ++ note.typeName).toList
  simp only [String.toList_append, List.mem_append, not_or]
  exact ⟨⟨htext, by decide⟩, notMem_of_all h.all_typeName (by decide)⟩

/-! ## Declarations -/

theorem intercalate_cons_eq (sep x : List Char) (xs : List (List Char)) :
    sep.intercalate (x :: xs) = x ++ xs.flatMap (sep ++ ·) := by
  induction xs generalizing x with
  | nil => rw [List.intercalate_singleton, List.flatMap_nil, List.append_nil]
  | cons y ys ih =>
    rw [List.intercalate_cons_cons, ih y, List.flatMap_cons, List.append_assoc, List.append_assoc]

theorem notMem_intercalate {a : Char} {sep : List Char} {xs : List (List Char)} (hsep : a ∉ sep)
    (h : ∀ x ∈ xs, a ∉ x) : a ∉ sep.intercalate xs := by
  cases xs with
  | nil => exact List.not_mem_nil
  | cons x xs =>
    rw [intercalate_cons_eq, List.mem_append, List.mem_flatMap, not_or]
    refine ⟨h x List.mem_cons_self, ?_⟩
    rintro ⟨y, hy, hmem⟩
    rcases List.mem_append.mp hmem with hmem | hmem
    · exact hsep hmem
    · exact h y (List.mem_cons_of_mem _ hy) hmem

/-- Items with a comma in front of each can be told from the text. -/
theorem flatMap_comma_inj {xs ys : List (List Char)} (hxs : ∀ x ∈ xs, ',' ∉ x)
    (hys : ∀ y ∈ ys, ',' ∉ y)
    (h : xs.flatMap ([',', ' '] ++ ·) = ys.flatMap ([',', ' '] ++ ·)) : xs = ys := by
  have hhead (zs : List (List Char)) : ∀ c ∈ (zs.flatMap ([',', ' '] ++ ·)).head?, c = ',' := by
    cases zs with
    | nil => exact nofun
    | cons z zs =>
      rintro c ⟨⟩
      rfl
  induction xs generalizing ys with
  | nil =>
    cases ys with
    | nil => rfl
    | cons y ys => cases h
  | cons x xs ih =>
    cases ys with
    | nil => cases h
    | cons y ys =>
      obtain ⟨hx, hxs'⟩ := List.forall_mem_cons.mp hxs
      obtain ⟨hy, hys'⟩ := List.forall_mem_cons.mp hys
      rw [List.flatMap_cons, List.flatMap_cons, List.append_assoc, List.append_assoc,
        List.append_right_inj] at h
      obtain ⟨rfl, hmore⟩ := Text.append_inj_of_head hx hy (hhead xs) (hhead ys) h
      rw [ih hxs' hys' hmore]

/-- Items with commas between them can be told from the text, if none of them is empty. -/
theorem commas_inj {xs ys : List (List Char)} (hxs : ∀ x ∈ xs, ',' ∉ x ∧ x ≠ [])
    (hys : ∀ y ∈ ys, ',' ∉ y ∧ y ≠ [])
    (h : [',', ' '].intercalate xs = [',', ' '].intercalate ys) : xs = ys := by
  cases xs with
  | nil =>
    cases ys with
    | nil => rfl
    | cons y ys =>
      rw [intercalate_cons_eq, List.intercalate_nil, List.nil_eq_append_iff] at h
      exact absurd h.1 (hys y List.mem_cons_self).2
  | cons x xs =>
    cases ys with
    | nil =>
      rw [intercalate_cons_eq, List.intercalate_nil, List.append_eq_nil_iff] at h
      exact absurd h.1 (hxs x List.mem_cons_self).2
    | cons y ys =>
      -- with an item in front both are rows of items that begin with a comma
      apply flatMap_comma_inj (fun x hx => (hxs x hx).1) (fun y hy => (hys y hy).1)
      rw [intercalate_cons_eq, intercalate_cons_eq] at h
      rw [List.flatMap_cons, List.flatMap_cons, List.append_assoc, List.append_assoc, h]

/-- How a formal parameter is shown. -/
def Formal.text (f : Formal) : String :=
  f.name ++ " : " ++ f.type

/-- With no word in front. -/
theorem Formal.text_eq (f : Formal) : f.text = "" ++ f.name ++ " : " ++ f.type := by
  rw [String.empty_append]
  rfl

/-- No other punctuation than a blank and a colon is between a name and its type. -/
theorem notMem_typed {word name type : String} {a : Char} (hword : a ∉ word.toList)
    (h : name.toList.all isWordChar = true) (htype : type.toList.all isWordChar = true)
    (ha : isWordChar a = false) (hpunctuation : a ∉ [' ', ':']) :
    a ∉ (word ++ name ++ " : " ++ type).toList := by
  simp only [String.toList_append, List.mem_append, not_or]
  refine ⟨⟨⟨hword, notMem_of_all h ha⟩, fun hmem => hpunctuation ?_⟩, notMem_of_all htype ha⟩
  rw [show " : ".toList = [' ', ':', ' '] from rfl] at hmem
  simpa [or_comm, or_assoc] using hmem

/-- Lists are equal under a function if they are under another one that tells their members. -/
theorem map_eq_map_of {α β γ : Type} {f : α → β} {g : α → γ} {xs ys : List α}
    (h : ∀ x ∈ xs, ∀ y ∈ ys, f x = f y → g x = g y) (hmap : xs.map f = ys.map f) :
    xs.map g = ys.map g := by
  induction xs generalizing ys with
  | nil =>
    cases ys with
    | nil => rfl
    | cons y ys => cases hmap
  | cons x xs ih =>
    cases ys with
    | nil => cases hmap
    | cons y ys =>
      obtain ⟨hhead, htail⟩ := List.cons.inj hmap
      rw [List.map_cons, List.map_cons, h x List.mem_cons_self y List.mem_cons_self hhead,
        ih (fun x hx y hy => h x (List.mem_cons_of_mem _ hx) y (List.mem_cons_of_mem _ hy)) htail]

/-- The parameter without its span. -/
def Formal.shown (f : Formal) : Formal :=
  { f with span := default }

theorem Formal.text_inj {f f' : Formal} (h : f.Spelled) (h' : f'.Spelled)
    (htext : f.text = f'.text) : f.shown = f'.shown := by
  rw [text_eq, text_eq] at htext
  obtain ⟨hname, htype⟩ := typed_inj h.1.2.1 h'.1.2.1 htext
  rw [shown, shown, hname, htype]

theorem Formal.notMem_text {f : Formal} (h : f.Spelled) {a : Char} (ha : isWordChar a = false)
    (hpunctuation : a ∉ [' ', ':']) : a ∉ f.text.toList := by
  rw [text_eq]
  exact notMem_typed List.not_mem_nil h.1.2.1 h.2.2.1 ha hpunctuation

/-- What is neither in a name nor between names is not in the list of formal parameters. -/
theorem Formal.notMem_intercalate {fs : List Formal} (h : ∀ f ∈ fs, f.Spelled) {a : Char}
    (ha : isWordChar a = false) (hcomma : a ≠ ',') (hpunctuation : a ∉ [' ', ':']) :
    a ∉ (", ".intercalate (fs.map text)).toList := by
  rw [String.toList_intercalate]
  apply Cool.notMem_intercalate
  · rintro hmem
    rcases List.mem_cons.mp hmem with rfl | hmem
    · exact hcomma rfl
    · exact hpunctuation (List.mem_cons.mpr (Or.inl (List.mem_singleton.mp hmem)))
  · intro x hx
    simp only [List.map_map, List.mem_map, Function.comp_apply] at hx
    obtain ⟨f, hf, rfl⟩ := hx
    exact notMem_text (h f hf) ha hpunctuation

/-- Formal parameters can be told from their list. -/
theorem Formal.intercalate_inj {fs fs' : List Formal} (h : ∀ f ∈ fs, f.Spelled)
    (h' : ∀ f ∈ fs', f.Spelled)
    (htext : ", ".intercalate (fs.map text) = ", ".intercalate (fs'.map text)) :
    fs.map shown = fs'.map shown := by
  have hitems {fs : List Formal} (h : ∀ f ∈ fs, f.Spelled) :
      ∀ x ∈ (fs.map text).map String.toList, ',' ∉ x ∧ x ≠ [] := by
    intro x hx
    simp only [List.map_map, List.mem_map, Function.comp_apply] at hx
    obtain ⟨f, hf, rfl⟩ := hx
    refine ⟨notMem_text (h f hf) (by decide) (by decide), ?_⟩
    simp [text]
  have hchars := congrArg String.toList htext
  rw [String.toList_intercalate, String.toList_intercalate] at hchars
  have htexts := commas_inj (hitems h) (hitems h') hchars
  refine map_eq_map_of (fun f hf f' hf' => text_inj (h f hf) (h' f' hf')) ?_
  exact List.map_injective_iff.mpr (fun _ _ => String.toList_inj.mp) htexts

end Cool
