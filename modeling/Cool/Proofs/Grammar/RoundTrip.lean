import Cool.Proofs.Grammar.Reread
import Cool.Proofs.Grammar.Written
import Cool.Proofs.Token.Spaced

/-!
# Printing and reading

A program that is printed and read again is the same program, and all that can be read can be
printed.

* `Grammar.reads_feature`, `Grammar.reads_classDecl`, `Grammar.reads_program` : declarations are
  read back;
* `Program.Printable`, `Program.text` : programs that can be written to a file, and their text;
* `Program.printable_of_parse` : what is read from a file can be written to it;
* `Program.parse_text` : printing, then reading.
-/

namespace Cool

namespace Grammar

open Cool.Parser

variable {F : Kind → Prop}

/-! ## Features -/

theorem reads_expr {e : Expr} (h : e.Raw) : Reads e.kinds Closes e.Same expr :=
  reads_withAllowance fun _ hn => h.reread.inner (by omega)

theorem reads_formal (f : Formal) :
    Reads f.kinds F (fun f' => f'.unplaced = f.unplaced) formal := by
  unfold formal
  refine reads_peek fun first _ _ _ => reads_objectId (reads_expect rfl fun _ _ => ?_)
  exact reads_typeId (reads_lastSpan fun span => reads_pure rfl)

theorem reads_formals (formals : List Formal) :
    Reads (Kind.commaList (formals.map Formal.kinds)) F
      (fun formals' => formals'.map Formal.unplaced = formals.map Formal.unplaced)
      (withAllowance (commaList formal)) := by
  have hlength := (Kind.length_commaList (formals.map Formal.kinds)).1
  rw [List.length_map] at hlength
  refine reads_withAllowance fun n hn => Reads.imp ?_ fun _ h => map_eq_of_forall₂ h
  exact reads_commaList (fun f _ => reads_formal f) (fun _ _ _ => nofun) (by omega)

theorem reads_feature : ∀ {f : Feature}, f.Raw →
    Reads f.kinds (· = .symbol .semicolon) (fun f' => f'.unplaced = f.unplaced) feature
  | .attr a, h => by
    unfold feature
    refine reads_peek fun first _ _ _ => reads_objectId (reads_check_false (fun _ _ => nofun) ?_)
    refine reads_expect rfl fun _ _ => reads_typeId ?_
    rw [← List.append_nil (Expr.kindsInit a.init)]
    extract_lets behind
    refine reads_init (fun e he => reads_expr (h e he)) (fun k hk => ?_) fun init hinit => ?_
    · rw [List.headD_nil, hk]
      decide
    · refine reads_lastSpan fun span => reads_pure ?_
      rw [Feature.unplaced, Feature.unplaced, hinit]
  | .method m, h => by
    unfold feature
    refine reads_peek fun first _ _ _ => reads_objectId (reads_check_true (fun _ _ => ?_) ?_)
    · cases m.formals <;> rfl
    refine (reads_formals (F := fun _ => True) m.formals).bind (fun formals hformals => ?_)
      fun _ _ => trivial
    refine reads_expect rfl fun _ _ => reads_typeId (reads_expect rfl fun _ _ => ?_)
    refine (reads_expr h).bind (fun body hbody => ?_) fun _ _ =>
      (show Closes (.symbol .braceClose) by decide)
    refine reads_expect rfl fun stop _ => reads_pure ?_
    rw [Feature.unplaced, Feature.unplaced, hformals, hbody]

theorem reads_featureItem {f : Feature} (h : f.Raw) :
    Reads (f.kinds ++ [.symbol .semicolon]) F (fun f' => f'.unplaced = f.unplaced)
      featureItem :=
  (reads_feature h).bind (fun _ hf => reads_expect rfl fun _ _ => reads_pure hf) fun _ _ => rfl

/-! ## Classes -/

theorem reads_features {features : List Feature} (h : ∀ f ∈ features, f.Raw) :
    Reads (Kind.semicolonList (features.map Feature.kinds)) (· = .symbol .braceClose)
      (fun features' => features'.map Feature.unplaced = features.map Feature.unplaced)
      (withAllowance (manyUntil (.symbol .braceClose) featureItem)) := by
  have hlength := (Kind.length_semicolonList (features.map Feature.kinds)).1
  rw [List.length_map] at hlength
  refine reads_withAllowance fun n hn => Reads.imp ?_ fun _ hfs => map_eq_of_forall₂ hfs
  rw [Kind.semicolonList, List.flatMap_map]
  refine reads_manyUntil (by rintro _ rfl; rfl) features n (fun f hf => reads_featureItem (h f hf))
    (fun f _ k => ?_) (by omega)
  cases f <;> rintro ⟨⟩

theorem reads_classDecl {file : String} {c : ClassDecl} (hfile : c.file = file)
    (h : ∀ f ∈ c.features, f.Raw) :
    Reads c.kinds F (fun c' => c'.unplaced = c.unplaced) (classDecl file) := by
  unfold classDecl
  refine reads_expect rfl fun first _ => reads_typeId ?_
  extract_lets behind
  refine reads_accept_true rfl (reads_typeId (reads_expect rfl fun _ _ => ?_))
  refine (reads_features h).bind (fun features hfeatures => ?_) fun _ _ => rfl
  refine reads_expect rfl fun stop _ => reads_pure ?_
  rw [ClassDecl.unplaced, ClassDecl.unplaced, hfeatures, hfile]

theorem reads_classItem {file : String} {c : ClassDecl} (hfile : c.file = file)
    (h : ∀ f ∈ c.features, f.Raw) :
    Reads (c.kinds ++ [.symbol .semicolon]) F (fun c' => c'.unplaced = c.unplaced)
      (classItem file) :=
  (reads_classDecl (F := fun _ => True) hfile h).bind
    (fun _ hc => reads_expect rfl fun _ _ => reads_pure hc) fun _ _ => trivial

theorem reads_program {file : String} {p : Program} (hne : p.classes ≠ []) (h : p.Raw)
    (hfile : ∀ c ∈ p.classes, c.file = file) :
    Reads p.kinds (· = .endOfFile) (fun p' => p'.unplaced = p.unplaced) (program file) := by
  have hlength := (Kind.length_semicolonList (p.classes.map ClassDecl.kinds)).1
  rw [List.length_map] at hlength
  refine Reads.map (reads_withAllowance fun n hn => ?_) fun classes hclasses =>
    congrArg Program.mk (map_eq_of_forall₂ hclasses)
  rw [Program.kinds, Kind.semicolonList, List.flatMap_map]
  refine reads_someUntil (by rintro _ rfl; rfl) hne
    (fun c hc => reads_classItem (hfile c hc) (h c hc)) (fun c _ k => by rintro ⟨⟩) ?_
  rw [Program.kinds] at hn
  omega

end Grammar

/-! ## Programs -/

/-- A program that can be written to a file of this name. -/
structure Program.Printable (file : String) (p : Program) : Prop where
  nonEmpty : p.classes ≠ []
  file_eq : ∀ c ∈ p.classes, c.file = file
  raw : p.Raw
  spelled : ∀ c ∈ p.classes, c.Spelled

/-- The text of a program, with a blank between two tokens. -/
def Program.text (p : Program) : String :=
  Kind.text p.kinds

theorem Program.Printable.exists_parse {file : String} {p : Program} (h : p.Printable file) :
    ∃ q, Program.parse file p.text = .ok q ∧ q.unplaced = p.unplaced := by
  obtain ⟨tokens, eof, last, htext, hkinds, heof⟩ :=
    exists_ofText_text (Program.spelled_kinds h.spelled)
  obtain ⟨q, last', hq, hsame⟩ := Grammar.reads_program h.nonEmpty h.raw h.file_eq tokens [] eof
    last hkinds heof rfl
  refine ⟨q, ?_, hsame⟩
  rw [List.append_nil, ← htext] at hq
  rw [Program.parse, Program.text, StateT.run, hq]
  rfl

/-- A program that is read is made of the tokens of its text. -/
theorem Program.printable_of_parse {file text : String} {p : Program}
    (h : Program.parse file text = .ok p) : p.Printable file := by
  obtain ⟨⟨ks, hwritten, hks⟩, hne, hfile⟩ := Program.written_of_parse h
  exact ⟨hne, hfile, Program.raw_of_parse h, Program.spelled_of_written hwritten hks⟩

/-- Printing a program that can be written to a file, and reading the file, gives the program
back, and whatever is read from a file is such a program. -/
theorem Program.parse_text (file : String) :
    (∀ p : Program, p.Printable file →
      ∃ q, Program.parse file p.text = .ok q ∧ q.unplaced = p.unplaced) ∧
    ∀ (text : String) (p : Program), Program.parse file text = .ok p → p.Printable file :=
  ⟨fun _ h => h.exists_parse, fun _ _ h => Program.printable_of_parse h⟩

/-- A class with an attribute and a method, in which some operands need parentheses. -/
def Sample.printed : Program :=
  let note : Note := .untyped default
  let sum : Expr := .binary note .add (.object note "n") (.int note 2)
  let call : Expr := .dispatch note (.unary note .not (.object note "x")) "copy" []
  ⟨[⟨"Main", Names.object, [
    .attr ⟨"n", "Int", some (.unary note .negate (.int note 1)), default⟩,
    .method ⟨"main", [⟨"x", "Bool", default⟩], "Object",
      .letIn note "y" "Bool" (some call) (.binary note .mul sum (.object note "n")), default⟩],
    "a.cl", default⟩]⟩

theorem Program.parse_text_sample : Sample.printed.Printable "a.cl" ∧
    Sample.printed.text = "class Main inherits Object \x7b n : Int <- ~ 1 ; " ++
      "main ( x : Bool ) : Object \x7b let y : Bool <- ( not x ) . copy ( ) in ( n + 2 ) * n \x7d " ++
      "; \x7d ;" ∧
    ∃ q, Program.parse "a.cl" Sample.printed.text = .ok q ∧
      q.unplaced = Sample.printed.unplaced ∧ q.Printable "a.cl" := by
  have hraw : Sample.printed.Raw := by
    refine List.forall_mem_singleton.mpr (List.forall_mem_cons.mpr ⟨?_, ?_⟩)
    · rintro e ⟨⟩
      exact ⟨by unfold Note.Untyped; decide, trivial⟩
    · refine List.forall_mem_singleton.mpr ⟨by unfold Note.Untyped; decide, ?_⟩
      exact ⟨⟨trivial, trivial⟩, ⟨trivial, trivial⟩, trivial⟩
  have hspelled : ∀ c ∈ Sample.printed.classes, c.Spelled := by
    refine List.forall_mem_singleton.mpr ⟨by decide, by decide, List.forall_mem_cons.mpr ⟨?_, ?_⟩⟩
    · exact ⟨by decide, by decide, (show 1 ≤ maxInteger by decide)⟩
    · refine List.forall_mem_singleton.mpr ⟨by decide, ?_, by decide, ?_⟩
      · exact List.forall_mem_singleton.mpr ⟨by decide, by decide⟩
      · have hx : IsObjectName "x" := by decide
        have hn : IsObjectName "n" := by decide
        have hsum : 2 ≤ maxInteger := by decide
        exact ⟨by decide, by decide, ⟨hx, by decide, trivial⟩, ⟨hn, hsum⟩, hn⟩
  have hprintable : Sample.printed.Printable "a.cl" :=
    ⟨nofun, List.forall_mem_singleton.mpr rfl, hraw, hspelled⟩
  obtain ⟨hprint, hparse⟩ := Program.parse_text "a.cl"
  obtain ⟨q, hq, hsame⟩ := hprint Sample.printed hprintable
  exact ⟨hprintable, by decide +kernel, q, hq, hsame, hparse _ q hq⟩

end Cool
