import Cool.Proofs.Grammar.Written

/-!
# The tokens of a program that is read

A program is read up to the end of its text, so that the tokens it is written in are all tokens of
the text, in their order.

* `peek_of_manyUntil` : where a repetition stops;
* `Program.written_kinds` : the tokens that a program is printed in are a way to write it;
* `Program.tokens_of_parse` : a text that is read as a program has only tokens, and the program is
  written in them.
-/

namespace Cool

/-! ## The end of the text -/

namespace Parser

variable {α : Type} {s s' : Stream}

theorem stream_of_peek {token : Token} (h : peek s = .ok (token, s')) : s' = s := by
  unfold peek at h
  split at h
  · cases h
    rfl
  · cases hending : s.ending with
    | error fault =>
      rw [hending] at h
      cases h
    | ok eof =>
      rw [hending] at h
      cases h
      rfl

/-- A repetition stops in front of a token of the category that it was told, which stays. -/
theorem peek_of_manyUntil {stop : Category} {item : Parser α} :
    ∀ {n : Nat} {s s' : Stream} {xs : List α}, manyUntil stop item n s = .ok (xs, s') →
      ∃ token, peek s' = .ok (token, s') ∧ token.kind.category = stop
  | 0, _, _, _, h => nomatch h
  | n + 1, s, s', xs, h => by
    rw [manyUntil] at h
    obtain ⟨found, s₁, hcheck, hrest⟩ := exists_of_bind h
    obtain ⟨token, s₂, hpeek, hfound⟩ := exists_of_bind hcheck
    obtain rfl := stream_of_peek hpeek
    cases hfound
    split at hrest
    · rename_i hstop
      cases hrest
      exact ⟨token, hpeek, beq_iff_eq.mp hstop⟩
    · obtain ⟨first, s₃, -, hrest⟩ := exists_of_bind hrest
      obtain ⟨more, s₄, hmore, hdone⟩ := exists_of_bind hrest
      cases hdone
      exact peek_of_manyUntil hmore

end Parser

/-- A program is read up to the end of a text. -/
theorem Grammar.peek_of_program {file : String} {s s' : Stream} {p : Program}
    (h : Grammar.program file s = .ok (p, s')) :
    ∃ token, Parser.peek s' = .ok (token, s') ∧ token.kind = .endOfFile := by
  rw [program, map_eq_pure_bind] at h
  obtain ⟨classes, s₁, hclasses, hp⟩ := Parser.exists_of_bind h
  cases hp
  obtain ⟨first, s₂, -, hrest⟩ := Parser.exists_of_bind (p := classItem file) hclasses
  obtain ⟨more, s₃, hmore, hdone⟩ := Parser.exists_of_bind hrest
  cases hdone
  obtain ⟨token, hpeek, hcategory⟩ := Parser.peek_of_manyUntil hmore
  refine ⟨token, hpeek, ?_⟩
  generalize token.kind = k at hcategory
  cases k with
  | endOfFile => rfl
  | _ => cases hcategory

/-! ## The tokens that are printed -/

namespace Kind

@[simp]
theorem bare_parenthesized (ks : List Kind) : bare (parenthesized ks) = bare ks := by
  simp [parenthesized]

@[simp]
theorem bare_guarded (least level : Nat) (ks : List Kind) :
    bare (guarded least level ks) = bare ks := by
  unfold guarded
  split
  · exact bare_parenthesized ks
  · rfl

end Kind

mutual

theorem Expr.written_kinds : ∀ e : Expr, e.Written (Kind.bare e.kinds)
  | .int .. => .int
  | .string .. => .string
  | .bool .. => .bool
  | .object .. => .object
  | .assign _ _ value => by
    simpa [Expr.kinds] using Expr.Written.assign value.written_kinds
  | .selfDispatch _ _ args => by
    simpa [Expr.kinds] using Expr.Written.selfDispatch (Expr.written_kindsAll args)
  | .dispatch _ receiver _ args => by
    simpa [Expr.kinds] using
      Expr.Written.dispatch receiver.written_kinds (Expr.written_kindsAll args)
  | .staticDispatch _ receiver _ _ args => by
    simpa [Expr.kinds] using
      Expr.Written.staticDispatch receiver.written_kinds (Expr.written_kindsAll args)
  | .new .. => .new
  | .cond _ predicate thenBranch elseBranch => by
    simpa [Expr.kinds] using Expr.Written.cond predicate.written_kinds thenBranch.written_kinds
      elseBranch.written_kinds
  | .loop _ predicate body => by
    simpa [Expr.kinds] using Expr.Written.loop predicate.written_kinds body.written_kinds
  | .block _ body => by
    simpa [Expr.kinds] using Expr.Written.block (Expr.written_kindsAll body)
  | .letIn _ _ _ init body => by
    simpa [Expr.kinds] using
      Expr.Written.letIn (.inBody (Expr.written_kindsInit init) body.written_kinds)
  | .typeCase _ scrutinee branches => by
    simpa [Expr.kinds] using
      Expr.Written.typeCase scrutinee.written_kinds (Branch.written_kindsAll branches)
  | .binary _ op left right => by
    rw [Expr.kinds, Kind.bare_append, Grammar.bare_sign, Kind.bare_guarded, Kind.bare_guarded]
    exact .binary left.written_kinds right.written_kinds
  | .unary _ .negate operand => by
    simpa [Expr.kinds] using Expr.Written.negate operand.written_kinds
  | .unary _ .not operand => by
    simpa [Expr.kinds] using Expr.Written.not operand.written_kinds
  | .isVoid _ operand => by
    simpa [Expr.kinds] using Expr.Written.isVoid operand.written_kinds

theorem Expr.written_kindsAll : ∀ es : List Expr,
    List.Forall₂ Expr.Written ((Expr.kindsAll es).map Kind.bare) es
  | [] => .nil
  | e :: es => .cons e.written_kinds (Expr.written_kindsAll es)

theorem Expr.written_kindsInit : ∀ init : Option Expr,
    Expr.InitWritten (Kind.bare (Expr.kindsInit init)) init
  | none => .none
  | some e => by simpa [Expr.kindsInit] using Expr.InitWritten.some e.written_kinds

theorem Branch.written_kindsAll : ∀ bs : List Branch,
    List.Forall₂ Branch.Written ((Branch.kindsAll bs).map Kind.bare) bs
  | [] => .nil
  | ⟨_, _, body, _⟩ :: bs => by
    refine .cons ?_ (Branch.written_kindsAll bs)
    simpa using Branch.Written.intro body.written_kinds

end

/-- Items are written as they are printed, one by one. -/
theorem forall₂_bare_kinds {α : Type} {R : List Kind → α → Prop} {kinds : α → List Kind}
    (h : ∀ x, R (Kind.bare (kinds x)) x) (xs : List α) :
    List.Forall₂ R ((xs.map kinds).map Kind.bare) xs := by
  rw [List.map_map, List.forall₂_map_left_iff]
  exact List.forall₂_same.mpr fun x _ => h x

theorem Feature.written_kinds : ∀ f : Feature, f.Written (Kind.bare f.kinds)
  | .attr a => by
    simpa [Feature.kinds] using Feature.Written.attr (Expr.written_kindsInit a.init)
  | .method m => by
    have hformals : (m.formals.map Formal.kinds).map Kind.bare = m.formals.map Formal.kinds := by
      rw [List.map_map]
      rfl
    have hwritten := Feature.Written.method m.body.written_kinds
    rw [← hformals] at hwritten
    simpa [Feature.kinds] using hwritten

theorem ClassDecl.written_kinds (c : ClassDecl) : c.Written (Kind.bare c.kinds) := by
  have hwritten := ClassDecl.Written.inherits (forall₂_bare_kinds Feature.written_kinds c.features)
  simpa [ClassDecl.kinds] using hwritten

/-- The tokens that a program is printed in are one way to write it. -/
theorem Program.written_kinds (p : Program) : p.Written (Kind.bare p.kinds) := by
  rw [Program.kinds, Kind.bare_semicolonList]
  exact .intro (forall₂_bare_kinds ClassDecl.written_kinds p.classes)

/-! ## Programs -/

theorem Stream.kind_ne_endOfFile (text : String) :
    ∀ token ∈ (Stream.ofText text).ahead, token.kind ≠ .endOfFile := by
  intro token htoken heof
  have hkind := Stream.spelled_ofText text token htoken
  rw [heof] at hkind
  exact hkind

/-- A text that is read as a program has no fault, and the program is written in its tokens. -/
theorem Program.written_ahead_of_parse {file text : String} {p : Program}
    (h : Program.parse file text = .ok p) :
    ∃ eof, (Stream.ofText text).ending = .ok eof ∧ eof.kind = .endOfFile ∧
      p.Written (Kind.bare ((Stream.ofText text).ahead.map Token.kind)) := by
  cases hrun : Grammar.program file (Stream.ofText text) with
  | error fault =>
    rw [Program.parse, StateT.run, hrun] at h
    cases h
  | ok r =>
    rw [Program.parse, StateT.run, hrun] at h
    cases h
    obtain ⟨taken, hahead, hending, hwritten, -⟩ :=
      Grammar.takes_program file _ r.1 r.2 (Stream.kind_ending_ofText text) hrun
    obtain ⟨eof, hpeek, heof⟩ := Grammar.peek_of_program hrun
    -- the end token is what ends the stream, because no token of the text is one
    unfold Parser.peek at hpeek
    split at hpeek
    · rename_i token more hmore
      cases hpeek
      refine absurd heof (Stream.kind_ne_endOfFile text _ ?_)
      rw [hahead, hmore]
      exact List.mem_append_right _ List.mem_cons_self
    · rename_i hnil
      rw [hnil, List.append_nil] at hahead
      cases hend : r.2.ending with
      | error fault =>
        rw [hend] at hpeek
        cases hpeek
      | ok token =>
        rw [hend] at hpeek
        cases hpeek
        refine ⟨eof, hending.symm.trans hend, heof, ?_⟩
        rw [hahead]
        exact hwritten

/-- A text that is read as a program is all tokens, and leaving the parentheses aside, these are
the tokens of the program: none is passed over, none is added, and they stand in their order. -/
theorem Program.tokens_of_parse {file text : String} {p : Program}
    (h : Program.parse file text = .ok p) :
    ∃ tokens eof, tokenize text = .ok (tokens ++ [eof]) ∧ eof.kind = .endOfFile ∧
      (∀ token ∈ tokens, token.kind ≠ .endOfFile) ∧
      p.Written (Kind.bare (tokens.map Token.kind)) := by
  obtain ⟨eof, hending, heof, hwritten⟩ := Program.written_ahead_of_parse h
  exact ⟨_, eof, tokenize_of_ending hending, heof, Stream.kind_ne_endOfFile text, hwritten⟩

/-- A text with parentheses, a `let` of two names and a class without `inherits`. -/
def Sample.bracketed : String :=
  "class Main \x7b main(x : Int) : Int \x7b let y : Int, z : Int <- (x) in (y + z) \x7d; \x7d;"

theorem Program.tokens_of_parse_sample :
    ∃ p, Program.parse "a.cl" Sample.bracketed = .ok p ∧
      ∃ tokens eof, tokenize Sample.bracketed = .ok (tokens ++ [eof]) ∧ eof.kind = .endOfFile ∧
        (∀ token ∈ tokens, token.kind ≠ .endOfFile) ∧
        p.Written (Kind.bare (tokens.map Token.kind)) := by
  cases h : Program.parse "a.cl" Sample.bracketed with
  | error fault =>
    have hok : (Program.parse "a.cl" Sample.bracketed).isOk = true := by decide +kernel
    rw [h] at hok
    cases hok
  | ok p => exact ⟨p, rfl, Program.tokens_of_parse h⟩

end Cool
