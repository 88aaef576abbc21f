import Cool.Command.Run
import Cool.Proofs.Analysis.Known
import Cool.Proofs.Compilation

/-!
# The verdict of a command

The status of a command line that is understood, all of whose files can be read from the system,
tells whether the program is correct, and nothing else: neither what is listed on the way, nor the
limit on the diagnostics, nor their style counts, nor how constants are quoted. The types are
printed if they are asked for and the program is correct; then every expression has one, and no
class has a name that could be mistaken for the mark of a missing type.

* `IsCorrect` : the files are a correct program;
* `ok_analyze_iff` : the limit does not count;
* `name_ne_of_known` : no class has the name that marks a missing type;
* `ofFiles_of_isCorrect`, `ofFiles_of_not_isCorrect` : the outcome for files;
* `runCommand_verdict` : the outcome of a command line.
-/

namespace Cool

/-- All files are read, and there is nothing to report on the program that they make up. -/
def IsCorrect (files : List SourceFile) : Prop :=
  ∃ ps, List.Forall₂ SourceFile.IsRead files ps ∧ ((Program.merge ps).analyze none).ok = true

variable {p : Program} {ps : List Program} {files : List SourceFile} {o : Options}
  {quote : String → String}

/-! ## Analyses -/

theorem ok_analyze_iff {limit : Option Nat} : (p.analyze limit).ok = true ↔ p.reports = [] := by
  refine ⟨reports_eq_nil_of_ok, fun h => ?_⟩
  rw [Analysis.ok, diagnostics_analyze, h]
  cases limit <;> rfl

/-- Without a diagnostic, the limit does not count. -/
theorem program_analyze_of_ok {limit : Option Nat} (h : p.reports = []) :
    (p.analyze limit).program = (p.analyze none).program := by
  rw [analyze_of_not_halted (halted_of_ok (ok_analyze_iff.mpr h)),
    analyze_of_not_halted (halted_of_ok (ok_analyze_iff.mpr h))]

/-! ## Names of types -/

/-- The classes of a program that is read have names with a capital letter in front. -/
theorem isTypeName_of_isRead (h : List.Forall₂ SourceFile.IsRead files ps) {c : ClassDecl}
    (hc : c ∈ (Program.merge ps).classes) : IsTypeName c.name := by
  obtain ⟨p, hp, hc⟩ := List.mem_flatMap.mp hc
  obtain ⟨f, -, hread⟩ := exists_isRead_of_mem h hp
  exact ((Program.printable_of_parse hread).spelled c hc).1

theorem name_ne_of_known (h : List.Forall₂ SourceFile.IsRead files ps) {τ : Ty}
    (hτ : τ.Known (Program.merge ps).classTable.Has) : τ.name ≠ "_no_type" := by
  cases τ with
  | selfType => decide
  | named a =>
    obtain ⟨info, hinfo⟩ := ClassTable.contains_iff.mp hτ
    show a ≠ "_no_type"
    obtain ⟨hbasic | ⟨i, c, haccepts, rfl⟩, rfl⟩ := ClassTable.find?_ofProgram.mp hinfo
    · have hnames : ∀ info ∈ ClassTable.basic.classes, info.name ≠ "_no_type" := by decide
      exact hnames info hbasic
    · intro hname
      have htype := isTypeName_of_isRead h (List.mem_of_getElem? haccepts.1)
      have hname : c.name = "_no_type" := hname
      rw [hname] at htype
      revert htype
      decide

/-! ## Files -/

/-- The outcome for files that are a correct program. -/
theorem ofFiles_of_isCorrect (h : List.Forall₂ SourceFile.IsRead files ps)
    (hok : ((Program.merge ps).analyze none).ok = true) :
    (Outcome.ofFiles quote o files).exit = 0 ∧ (Outcome.ofFiles quote o files).stdout =
      if o.dumpTypes then ((Program.merge ps).analyze none).program.dump quote else "" := by
  have hreports := ok_analyze_iff.mp hok
  have hcompiled : (compile o.limit ⟨o.dumpTokens, o.dumpTree⟩ (o.style.getD .plain)
      files).outcome = .ok ((Program.merge ps).analyze o.limit) :=
    compile_eq_ok_iff.mpr ⟨ps, h, rfl⟩
  unfold Outcome.ofFiles
  dsimp only
  rw [hcompiled]
  dsimp only
  rw [if_pos (ok_analyze_iff.mpr hreports), program_analyze_of_ok hreports]
  exact ⟨rfl, rfl⟩

/-- The outcome for any other files. -/
theorem ofFiles_of_not_isCorrect (h : ¬IsCorrect files) :
    (Outcome.ofFiles quote o files).exit = 1 ∧ (Outcome.ofFiles quote o files).stdout = "" := by
  unfold Outcome.ofFiles
  dsimp only
  cases hcompiled : (compile o.limit ⟨o.dumpTokens, o.dumpTree⟩ (o.style.getD .plain)
    files).outcome with
  | error fault => exact ⟨rfl, rfl⟩
  | ok a =>
    obtain ⟨ps, hps, rfl⟩ := compile_eq_ok_iff.mp hcompiled
    have hnot : ¬((Program.merge ps).analyze o.limit).ok = true := fun hok =>
      h ⟨ps, hps, ok_analyze_iff.mpr (ok_analyze_iff.mp hok)⟩
    dsimp only
    rw [if_neg hnot]
    exact ⟨rfl, rfl⟩

/-! ## Command lines -/

section Read

variable {read : String → Id (Except ReadError String)} {contents : String → String}

theorem readSources_eq_ok : ∀ {names : List String},
    (∀ name ∈ names, read name = .ok (contents name)) →
      readSources read names = Except.ok (names.map fun name => ⟨name, contents name⟩)
  | [], _ => rfl
  | name :: names, h => by
    obtain ⟨hname, hnames⟩ := List.forall_mem_cons.mp h
    rw [readSources, hname, readSources_eq_ok hnames]
    rfl

theorem runCommand_eq {args : List String} (hargs : Request.ofArgs args = .compile o)
    (hread : ∀ name ∈ o.files, read name = .ok (contents name)) :
    Id.run (runCommand read args quote) =
      .ofFiles quote o (o.files.map fun name => ⟨name, contents name⟩) := by
  rw [runCommand, hargs]
  dsimp only
  rw [readSources_eq_ok hread]
  rfl

end Read

/-- Of a command line that is understood and whose files can be read, the status is zero if the
files are a correct program, and one if they are not. So two command lines with the same files end
with the same status, whatever else they ask for: what is listed on the way does not even count for
what a single file is read as. Nothing but the outline of a correct program is ever printed, and
only if it is asked for; in it every expression has a type, and none looks like a missing one. How
constants are quoted may be chosen at will. -/
theorem runCommand_verdict {quote : String → String}
    {read : String → Id (Except ReadError String)} {contents : String → String}
    {args : List String} {o : Options}
    (hargs : Request.ofArgs args = .compile o)
    (hread : ∀ name ∈ o.files, read name = .ok (contents name)) :
    (IsCorrect (o.files.map fun name => ⟨name, contents name⟩) →
      (Id.run (runCommand read args quote)).exit = 0) ∧
    (¬IsCorrect (o.files.map fun name => ⟨name, contents name⟩) →
      (Id.run (runCommand read args quote)).exit = 1) ∧
    (∀ args' o', Request.ofArgs args' = .compile o' → o'.files = o.files →
      (Id.run (runCommand read args' quote)).exit = (Id.run (runCommand read args quote)).exit) ∧
    (∀ (f : SourceFile) (p : Program) (listings listings' : Listings) (r r' : Reporter),
      (f.read listings r).1 = .ok p ↔ (f.read listings' r').1 = .ok p) ∧
    ((Id.run (runCommand read args quote)).stdout ≠ "" →
      (Id.run (runCommand read args quote)).exit = 0 ∧ o.dumpTypes = true) ∧
    ((Id.run (runCommand read args quote)).exit = 0 → o.dumpTypes = true → ∃ ps,
      List.Forall₂ SourceFile.IsRead (o.files.map fun name => ⟨name, contents name⟩) ps ∧
      (Id.run (runCommand read args quote)).stdout =
        ((Program.merge ps).analyze none).program.dump quote ∧
      ∀ f ∈ ((Program.merge ps).analyze none).program.features, ∀ note ∈ f.notes,
        ∃ τ, note.type? = some τ ∧ τ.name ≠ "_no_type" ∧
          ∀ text, note.label text = note.span.label (text ++ " : " ++ τ.name)) := by
  have hexit : ∀ o' : Options, o'.files = o.files →
      (Outcome.ofFiles quote o' (o'.files.map fun name => ⟨name, contents name⟩)).exit =
        (Outcome.ofFiles quote o (o.files.map fun name => ⟨name, contents name⟩)).exit := by
    intro o' hfiles
    rw [hfiles]
    by_cases h : IsCorrect (o.files.map fun name => ⟨name, contents name⟩)
    · obtain ⟨ps, hps, hok⟩ := h
      rw [(ofFiles_of_isCorrect hps hok).1, (ofFiles_of_isCorrect hps hok).1]
    · rw [(ofFiles_of_not_isCorrect h).1, (ofFiles_of_not_isCorrect h).1]
  rw [runCommand_eq hargs hread]
  refine ⟨fun ⟨ps, hps, hok⟩ => (ofFiles_of_isCorrect hps hok).1,
    fun h => (ofFiles_of_not_isCorrect h).1, fun args' o' hargs' hfiles => ?_,
    fun f p listings listings' r r' => ?_, fun hstdout => ?_, fun hzero hdump => ?_⟩
  · rw [runCommand_eq hargs' (hfiles ▸ hread)]
    exact hexit o' hfiles
  · rw [SourceFile.read_eq_ok_iff, SourceFile.read_eq_ok_iff]
  · by_cases h : IsCorrect (o.files.map fun name => ⟨name, contents name⟩)
    · obtain ⟨ps, hps, hok⟩ := h
      obtain ⟨hzero, hshown⟩ := ofFiles_of_isCorrect (o := o) hps hok
      refine ⟨hzero, ?_⟩
      by_contra hdump
      rw [hshown, if_neg hdump] at hstdout
      exact hstdout rfl
    · exact absurd (ofFiles_of_not_isCorrect h).2 hstdout
  · by_cases h : IsCorrect (o.files.map fun name => ⟨name, contents name⟩)
    · obtain ⟨ps, hps, hok⟩ := h
      refine ⟨ps, hps, ?_, fun f hf note hnote => ?_⟩
      · rw [(ofFiles_of_isCorrect hps hok).2, if_pos hdump]
      · obtain ⟨τ, hτ, hknown⟩ := known_notes_of_ok hok f hf note hnote
        refine ⟨τ, hτ, name_ne_of_known hps hknown, fun text => ?_⟩
        rw [Note.label, hτ]
        rfl
    · rw [(ofFiles_of_not_isCorrect h).1] at hzero
      cases hzero

/-- The options of a request to compile. -/
def Request.options? : Request → Option Options
  | .compile o => some o
  | .version | .help | .misuse => none

theorem Request.eq_compile_of_options? {request : Request} (h : request.options? = some o) :
    request = .compile o := by
  cases request with
  | compile o' =>
    cases h
    rfl
  | _ => cases h

/-- A file with a correct program. -/
def Sample.correct : String :=
  "class Main \x7b main() : Object \x7b 1 + 2 \x7d; \x7d;"

/-- A command line that asks for the types and one that asks for everything else end with the same
status. -/
theorem runCommand_verdict_sample :
    ∃ o o', Request.ofArgs ["--dump-types", "a.cl"] = .compile o ∧
      Request.ofArgs ["-v", "--dump-tokens", "--dump-ast", "--max-errors=0", "--format", "rich",
        "a.cl"] = .compile o' ∧
      o.files = ["a.cl"] ∧ o'.files = ["a.cl"] ∧ o.dumpTypes = true ∧ o'.limit = none ∧
      (Id.run (runCommand (fun _ => .ok Sample.correct) ["--dump-types", "a.cl"])).exit = 0 ∧
      (Id.run (runCommand (fun _ => .ok Sample.correct) ["-v", "--dump-tokens", "--dump-ast",
        "--max-errors=0", "--format", "rich", "a.cl"])).exit = 0 := by
  have htypes : (Request.ofArgs ["--dump-types", "a.cl"]).options?.any (fun o =>
      decide (o.files = ["a.cl"] ∧ o.dumpTypes = true)) = true := by
    decide +kernel
  have hothers : (Request.ofArgs ["-v", "--dump-tokens", "--dump-ast", "--max-errors=0", "--format",
      "rich", "a.cl"]).options?.any (fun o =>
        decide (o.files = ["a.cl"] ∧ o.limit = none)) = true := by
    decide +kernel
  have hok : (Program.parse "a.cl" Sample.correct).toOption.any (fun p =>
      ((Program.merge [p]).analyze none).ok) = true := by
    decide +kernel
  obtain ⟨o, ho, htypes⟩ := (Option.any_eq_true _ _).mp htypes
  obtain ⟨o', ho', hothers⟩ := (Option.any_eq_true _ _).mp hothers
  obtain ⟨hfiles, htypes⟩ := of_decide_eq_true htypes
  obtain ⟨hfiles', hlimit⟩ := of_decide_eq_true hothers
  have hargs := Request.eq_compile_of_options? ho
  have hargs' := Request.eq_compile_of_options? ho'
  have hcorrect : IsCorrect [⟨"a.cl", Sample.correct⟩] := by
    obtain ⟨p, hp, hok⟩ := (Option.any_eq_true _ _).mp hok
    cases hparse : Program.parse "a.cl" Sample.correct with
    | error fault =>
      rw [hparse] at hp
      cases hp
    | ok q =>
      rw [hparse] at hp
      cases hp
      exact ⟨[p], .cons hparse .nil, hok⟩
  obtain ⟨hzero, -, hsame, -⟩ := @runCommand_verdict Quoted.encode (fun _ => .ok Sample.correct)
    (fun _ => Sample.correct) _ _ hargs fun _ _ => rfl
  rw [hfiles] at hzero
  have hexit := hzero hcorrect
  exact ⟨o, o', hargs, hargs', hfiles, hfiles', htypes, hlimit, hexit,
    (hsame _ _ hargs' (hfiles'.trans hfiles.symm)).trans hexit⟩

end Cool
