import Cool.Check.Expr
import Cool.Proofs.Tree.Notes

/-!
# The check and the notes

The check reads the spans in the notes of an expression and nothing else, and changes the types in
them and nothing else.

* `Expr.check_mapNotes`, `Expr.check_erase` : types that are noted before do not matter;
* `Expr.mapNotes_check`, `Expr.erase_check` : what is read stays as it is.
-/

namespace Cool

theorem Note.typed_eq (note : Note) (type : Ty) : note.typed type = ⟨note.span, some type⟩ := rfl

variable {f : Note → Note}

theorem Note.typed_map (hf : ∀ note, (f note).span = note.span) (note : Note) (type : Ty) :
    (f note).typed type = note.typed type := by
  rw [Note.typed_eq, Note.typed_eq, hf]

mutual

theorem Expr.check_mapNotes (hf : ∀ note, (f note).span = note.span) (Γ : Context) :
    ∀ (e : Expr) (σ : Scope), (e.mapNotes f).check Γ σ = e.check Γ σ
  | .int .., _ | .string .., _ | .bool .., _ => by
    simp only [Expr.mapNotes, Expr.check, Note.typed_map hf]
  | .object .., _ | .new .., _ => by
    simp only [Expr.mapNotes, Expr.check, Note.typed_map hf, hf]
  | .assign _ _ value, σ => by
    simp only [Expr.mapNotes, Expr.check, Note.typed_map hf, hf,
      Expr.check_mapNotes hf Γ value σ]
  | .selfDispatch _ _ args, σ => by
    simp only [Expr.mapNotes, Expr.check, Note.typed_map hf, hf,
      Expr.checkAll_mapNotesAll hf Γ args σ]
  | .dispatch _ receiver _ args, σ | .staticDispatch _ receiver _ _ args, σ => by
    simp only [Expr.mapNotes, Expr.check, Note.typed_map hf, hf,
      Expr.check_mapNotes hf Γ receiver σ,
      Expr.checkAll_mapNotesAll hf Γ args σ]
  | .cond _ predicate thenBranch elseBranch, σ => by
    simp only [Expr.mapNotes, Expr.check, Note.typed_map hf, hf,
      Expr.check_mapNotes hf Γ predicate σ,
      Expr.check_mapNotes hf Γ thenBranch σ, Expr.check_mapNotes hf Γ elseBranch σ]
  | .loop _ left right, σ | .binary _ _ left right, σ => by
    simp only [Expr.mapNotes, Expr.check, Note.typed_map hf, hf, Expr.check_mapNotes hf Γ left σ,
      Expr.check_mapNotes hf Γ right σ]
  | .block _ body, σ => by
    simp only [Expr.mapNotes, Expr.check, Note.typed_map hf,
      Expr.checkAll_mapNotesAll hf Γ body σ]
  | .letIn _ _ _ init body, σ => by
    simp only [Expr.mapNotes, Expr.check, Note.typed_map hf, hf,
      Expr.checkInit_mapNotesInit hf Γ init σ, Expr.check_mapNotes hf Γ body]
  | .typeCase _ scrutinee branches, σ => by
    simp only [Expr.mapNotes, Expr.check, Note.typed_map hf, hf,
      Expr.check_mapNotes hf Γ scrutinee σ,
      Branch.checkAll_mapNotesAll hf Γ branches]
  | .unary _ _ operand, σ | .isVoid _ operand, σ => by
    simp only [Expr.mapNotes, Expr.check, Note.typed_map hf, hf,
      Expr.check_mapNotes hf Γ operand σ]

theorem Expr.checkAll_mapNotesAll (hf : ∀ note, (f note).span = note.span)
    (Γ : Context) : ∀ (es : List Expr) (σ : Scope),
    Expr.checkAll Γ σ (Expr.mapNotesAll f es) = Expr.checkAll Γ σ es
  | [], _ => rfl
  | e :: es, σ => by
    simp only [Expr.mapNotesAll, Expr.checkAll, Expr.check_mapNotes hf Γ e σ,
      Expr.checkAll_mapNotesAll hf Γ es σ]

theorem Expr.checkInit_mapNotesInit (hf : ∀ note, (f note).span = note.span)
    (Γ : Context) : ∀ (init : Option Expr) (σ : Scope),
    Expr.checkInit Γ σ (Expr.mapNotesInit f init) = Expr.checkInit Γ σ init
  | none, _ => rfl
  | some e, σ => by simp only [Expr.mapNotesInit, Expr.checkInit, Expr.check_mapNotes hf Γ e σ]

theorem Branch.checkAll_mapNotesAll (hf : ∀ note, (f note).span = note.span)
    (Γ : Context) : ∀ (branches : List Branch) (σ : Scope)
    (span : Span) (seen : List String) (joined : Option Ty),
    Branch.checkAll Γ σ span seen joined (Branch.mapNotesAll f branches) =
      Branch.checkAll Γ σ span seen joined branches
  | [], _, _, _, _ => rfl
  | ⟨_, _, body, _⟩ :: branches, σ, span, seen, joined => by
    simp only [Branch.mapNotesAll, Branch.checkAll, Expr.check_mapNotes hf Γ body,
      Branch.checkAll_mapNotesAll hf Γ branches]

end

mutual

theorem Expr.mapNotes_check (hf : ∀ note type, f (Note.typed note type) = f note) (Γ : Context) :
    ∀ (e : Expr) (σ : Scope), (e.check Γ σ).value.1.mapNotes f = e.mapNotes f
  | .int .., _ | .string .., _ | .bool .., _ | .object .., _ | .new .., _ => by
    simp only [Expr.check, Diagnosed.value_bind, Diagnosed.value_pure, Expr.mapNotes, hf]
  | .assign _ _ value, σ => by
    simp only [Expr.check, Diagnosed.value_bind, Diagnosed.value_pure, Expr.mapNotes, hf,
      Expr.mapNotes_check hf Γ value σ]
  | .selfDispatch _ _ args, σ => by
    simp only [Expr.check, Diagnosed.value_bind, Diagnosed.value_pure, Expr.mapNotes, hf,
      Expr.mapNotesAll_checkAll hf Γ args σ]
  | .dispatch _ receiver _ args, σ | .staticDispatch _ receiver _ _ args, σ => by
    simp only [Expr.check, Diagnosed.value_bind, Diagnosed.value_pure, Expr.mapNotes, hf,
      Expr.mapNotes_check hf Γ receiver σ, Expr.mapNotesAll_checkAll hf Γ args σ]
  | .cond _ predicate thenBranch elseBranch, σ => by
    simp only [Expr.check, Diagnosed.value_bind, Diagnosed.value_pure, Expr.mapNotes, hf,
      Expr.mapNotes_check hf Γ predicate σ, Expr.mapNotes_check hf Γ thenBranch σ,
      Expr.mapNotes_check hf Γ elseBranch σ]
  | .loop _ left right, σ | .binary _ _ left right, σ => by
    simp only [Expr.check, Diagnosed.value_bind, Diagnosed.value_pure, Expr.mapNotes, hf,
      Expr.mapNotes_check hf Γ left σ, Expr.mapNotes_check hf Γ right σ]
  | .block _ body, σ => by
    simp only [Expr.check, Diagnosed.value_bind, Diagnosed.value_pure, Expr.mapNotes, hf,
      Expr.mapNotesAll_checkAll hf Γ body σ]
  | .letIn _ _ _ init body, σ => by
    simp only [Expr.check, Diagnosed.value_bind, Diagnosed.value_pure, Expr.mapNotes, hf,
      Expr.mapNotesInit_checkInit hf Γ init σ, Expr.mapNotes_check hf Γ body]
  | .typeCase _ scrutinee branches, σ => by
    simp only [Expr.check, Diagnosed.value_bind, Diagnosed.value_pure, Expr.mapNotes, hf,
      Expr.mapNotes_check hf Γ scrutinee σ, Branch.mapNotesAll_checkAll hf Γ branches]
  | .unary _ _ operand, σ | .isVoid _ operand, σ => by
    simp only [Expr.check, Diagnosed.value_bind, Diagnosed.value_pure, Expr.mapNotes, hf,
      Expr.mapNotes_check hf Γ operand σ]

theorem Expr.mapNotesAll_checkAll (hf : ∀ note type, f (Note.typed note type) = f note)
    (Γ : Context) : ∀ (es : List Expr) (σ : Scope),
    Expr.mapNotesAll f (Expr.checkAll Γ σ es).value.1 = Expr.mapNotesAll f es
  | [], _ => rfl
  | e :: es, σ => by
    simp only [Expr.checkAll, Diagnosed.value_bind, Diagnosed.value_pure, Expr.mapNotesAll,
      Expr.mapNotes_check hf Γ e σ, Expr.mapNotesAll_checkAll hf Γ es σ]

theorem Expr.mapNotesInit_checkInit (hf : ∀ note type, f (Note.typed note type) = f note)
    (Γ : Context) : ∀ (init : Option Expr) (σ : Scope),
    Expr.mapNotesInit f (Expr.checkInit Γ σ init).value.1 = Expr.mapNotesInit f init
  | none, _ => rfl
  | some e, σ => by
    simp only [Expr.checkInit, Diagnosed.value_bind, Diagnosed.value_pure, Expr.mapNotesInit,
      Expr.mapNotes_check hf Γ e σ]

theorem Branch.mapNotesAll_checkAll (hf : ∀ note type, f (Note.typed note type) = f note)
    (Γ : Context) : ∀ (branches : List Branch) (σ : Scope)
    (span : Span) (seen : List String) (joined : Option Ty),
    Branch.mapNotesAll f (Branch.checkAll Γ σ span seen joined branches).value.1 =
      Branch.mapNotesAll f branches
  | [], _, _, _, _ => rfl
  | ⟨_, _, body, _⟩ :: branches, σ, span, seen, joined => by
    simp only [Branch.checkAll, Diagnosed.value_bind, Diagnosed.value_pure, Branch.mapNotesAll,
      Expr.mapNotes_check hf Γ body, Branch.mapNotesAll_checkAll hf Γ branches]

end

/-! ## Types taken away -/

namespace Expr

/-- The check does not depend on types that are noted already. -/
theorem check_erase (Γ : Context) (σ : Scope) (e : Expr) : e.erase.check Γ σ = e.check Γ σ :=
  check_mapNotes (f := Note.erase) (fun _ => rfl) Γ e σ

theorem erase_check (Γ : Context) (σ : Scope) (e : Expr) :
    (e.check Γ σ).value.1.erase = e.erase :=
  mapNotes_check (f := Note.erase) (fun _ _ => rfl) Γ e σ

theorem check_eq_of_erase_eq {a e : Expr} (h : a.erase = e.erase) (Γ : Context) (σ : Scope) :
    a.check Γ σ = e.check Γ σ := by
  rw [← check_erase Γ σ a, h, check_erase Γ σ e]

end Expr

end Cool
