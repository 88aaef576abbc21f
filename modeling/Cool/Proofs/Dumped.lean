import Cool.Proofs.Command
import Cool.Proofs.Joined
import Cool.Proofs.Tree.Dump

/-!
# Dumps of programs from files

What is read from files, with the types that an analysis has noted in it or without them, is legible
in its dump: names are words, and a type that is noted is a class of the program or `SELF_TYPE`.

* `Expr.spelled_mapNotes` : an analysis changes nothing that is written;
* `Program.FromFiles` : a program from files, analyzed or not;
* `Program.FromFiles.legible` : such a program is legible;
* `Program.dump_unambiguous` : it can be told from its dump.
-/

namespace Cool

/-! ## Notes -/

section Notes

variable (g : Note → Note)

mutual

/-- What is written does not depend on the notes. -/
theorem Expr.spelled_mapNotes : ∀ e : Expr, (e.mapNotes g).Spelled ↔ e.Spelled
  | .int .. | .string .. | .bool .. | .object .. | .new .. => Iff.rfl
  | .assign _ _ operand => and_congr Iff.rfl operand.spelled_mapNotes
  | .unary _ _ operand | .isVoid _ operand => operand.spelled_mapNotes
  | .selfDispatch _ _ args => and_congr Iff.rfl (Expr.spelled_mapNotesAll args)
  | .dispatch _ receiver _ args =>
    and_congr receiver.spelled_mapNotes (and_congr Iff.rfl (Expr.spelled_mapNotesAll args))
  | .staticDispatch _ receiver _ _ args => and_congr receiver.spelled_mapNotes
    (and_congr Iff.rfl (and_congr Iff.rfl (Expr.spelled_mapNotesAll args)))
  | .cond _ predicate thenBranch elseBranch => and_congr predicate.spelled_mapNotes
    (and_congr thenBranch.spelled_mapNotes elseBranch.spelled_mapNotes)
  | .loop _ left right | .binary _ _ left right =>
    and_congr left.spelled_mapNotes right.spelled_mapNotes
  | .block _ body => Expr.spelled_mapNotesAll body
  | .letIn _ _ _ init body => and_congr Iff.rfl (and_congr Iff.rfl
    (and_congr (Expr.spelled_mapNotesInit init) body.spelled_mapNotes))
  | .typeCase _ scrutinee branches =>
    and_congr scrutinee.spelled_mapNotes (Branch.spelled_mapNotesAll branches)

theorem Expr.spelled_mapNotesAll : ∀ es : List Expr,
    Expr.SpelledAll (Expr.mapNotesAll g es) ↔ Expr.SpelledAll es
  | [] => Iff.rfl
  | e :: es => and_congr e.spelled_mapNotes (Expr.spelled_mapNotesAll es)

theorem Expr.spelled_mapNotesInit : ∀ init : Option Expr,
    Expr.SpelledInit (Expr.mapNotesInit g init) ↔ Expr.SpelledInit init
  | none => Iff.rfl
  | some e => e.spelled_mapNotes

theorem Branch.spelled_mapNotesAll : ∀ bs : List Branch,
    Branch.SpelledAll (Branch.mapNotesAll g bs) ↔ Branch.SpelledAll bs
  | [] => Iff.rfl
  | ⟨_, _, body, _⟩ :: bs => and_congr Iff.rfl (and_congr Iff.rfl
    (and_congr body.spelled_mapNotes (Branch.spelled_mapNotesAll bs)))

end

theorem Feature.spelled_mapNotes (f : Feature) : (f.mapNotes g).Spelled ↔ f.Spelled := by
  cases f with
  | attr a => exact and_congr Iff.rfl (and_congr Iff.rfl (Expr.spelled_mapNotesInit g a.init))
  | method m =>
    exact and_congr Iff.rfl (and_congr Iff.rfl (and_congr Iff.rfl (m.body.spelled_mapNotes g)))

theorem ClassDecl.spelled_mapNotes (c : ClassDecl) : (c.mapNotes g).Spelled ↔ c.Spelled := by
  refine and_congr Iff.rfl (and_congr Iff.rfl ?_)
  show (∀ f ∈ c.features.map (Feature.mapNotes g), f.Spelled) ↔ _
  rw [List.forall_mem_map]
  exact forall₂_congr fun f _ => f.spelled_mapNotes g

end Notes

/-! ## Programs from files -/

/-- The program that some files are read as, or what an analysis makes of it. No file has a line end
in its name. -/
def Program.FromFiles (p : Program) : Prop :=
  ∃ files ps, List.Forall₂ SourceFile.IsRead files ps ∧ (∀ f ∈ files, '\n' ∉ f.name.toList) ∧
    (p = merge ps ∨ ∃ limit, p = ((merge ps).analyze limit).program)

variable {p q : Program} {ps : List Program} {files : List SourceFile} {quote : String → String}

/-- A class of the program is called by a type name that is not `SELF_TYPE`. -/
theorem legible_of_known (h : List.Forall₂ SourceFile.IsRead files ps) {τ : Ty}
    (hτ : τ.Known (Program.merge ps).classTable.Has) : τ.Legible := by
  cases τ with
  | selfType => trivial
  | named a =>
    have hself : a ≠ Names.selfType := by
      rintro rfl
      exact absurd hτ (ne_true_of_eq_false (ClassTable.contains_selfType_eq_false _))
    refine ⟨?_, hself⟩
    obtain ⟨info, hinfo⟩ := ClassTable.contains_iff.mp hτ
    obtain ⟨hbasic | ⟨i, c, haccepts, rfl⟩, rfl⟩ := ClassTable.find?_ofProgram.mp hinfo
    · have hnames : ∀ info ∈ ClassTable.basic.classes, IsTypeName info.name := by decide
      exact hnames info hbasic
    · exact isTypeName_of_isRead h (List.mem_of_getElem? haccepts.1)

/-- The classes that are read can be written, and their files are those that are read. -/
theorem spelled_of_isRead (h : List.Forall₂ SourceFile.IsRead files ps) {c : ClassDecl}
    (hc : c ∈ (Program.merge ps).classes) : c.Spelled ∧ ∃ f ∈ files, c.file = f.name := by
  obtain ⟨p, hp, hc⟩ := List.mem_flatMap.mp hc
  obtain ⟨f, hf, hread⟩ := exists_isRead_of_mem h hp
  have hprintable := Program.printable_of_parse hread
  exact ⟨hprintable.spelled c hc, f, hf, hprintable.file_eq c hc⟩

/-- No type is noted in what is read. -/
theorem fresh_merge (h : List.Forall₂ SourceFile.IsRead files ps) : (Program.merge ps).Fresh := by
  intro f hf
  obtain ⟨c, hc, hf⟩ := List.mem_flatMap.mp hf
  obtain ⟨p, hp, hc⟩ := List.mem_flatMap.mp hc
  obtain ⟨g, -, hread⟩ := exists_isRead_of_mem h hp
  have hfresh := (Program.printable_of_parse hread).raw.fresh
  exact hfresh f (List.mem_flatMap_of_mem hc hf)

theorem Note.legible_of_none {note : Note} (h : note.type? = none) : note.Legible := by
  rw [Note.Legible, h]
  rintro τ ⟨⟩

/-- An analysis leaves a class as it was but for the types in its notes. -/
theorem exists_class_of_analyze {limit : Option Nat} {c : ClassDecl}
    (hc : c ∈ (p.analyze limit).program.classes) :
    ∃ d ∈ p.classes, d.mapNotes Note.erase = c.mapNotes Note.erase := by
  have herase := congrArg Program.classes (erase_analyze limit p)
  have hmem : c.mapNotes Note.erase ∈ (p.analyze limit).program.erase.classes :=
    List.mem_map_of_mem hc
  rw [herase] at hmem
  exact List.mem_map.mp hmem

namespace Program.FromFiles

/-- The program of one file, analyzed. -/
theorem analyze_of_parse {file text : String} (h : Program.parse file text = .ok p)
    (hfile : '\n' ∉ file.toList) (limit : Option Nat) : (p.analyze limit).program.FromFiles :=
  ⟨[⟨file, text⟩], [p], .cons h .nil, List.forall_mem_singleton.mpr hfile,
    Or.inr ⟨limit, by rw [merge_singleton]⟩⟩

theorem legible_notes (h : p.FromFiles) :
    ∀ f ∈ p.features, ∀ note ∈ f.notes, note.Legible := by
  obtain ⟨files, ps, hread, -, rfl | ⟨limit, rfl⟩⟩ := h
  · exact fun f hf note hnote => Note.legible_of_none (fresh_merge hread f hf note hnote)
  · intro f hf note hnote
    rcases known_notes_analyze limit (merge ps) f hf with hleft | hknown
    · exact Note.legible_of_none (fresh_merge hread f hleft note hnote)
    · obtain ⟨τ, hτ, hknown⟩ := hknown note hnote
      intro τ' hτ'
      cases hτ.symm.trans hτ'
      exact legible_of_known hread hknown

theorem spelled (h : p.FromFiles) : ∀ c ∈ p.classes, c.Spelled ∧ '\n' ∉ c.file.toList := by
  obtain ⟨files, ps, hread, hfiles, hp⟩ := h
  have hmerge : ∀ c ∈ (merge ps).classes, c.Spelled ∧ '\n' ∉ c.file.toList := by
    intro c hc
    obtain ⟨hspelled, f, hf, hfile⟩ := spelled_of_isRead hread hc
    exact ⟨hspelled, hfile ▸ hfiles f hf⟩
  obtain rfl | ⟨limit, rfl⟩ := hp
  · exact hmerge
  · intro c hc
    obtain ⟨d, hd, herase⟩ := exists_class_of_analyze hc
    obtain ⟨hspelled, hfile⟩ := hmerge d hd
    rw [← ClassDecl.spelled_mapNotes Note.erase, herase, ClassDecl.spelled_mapNotes] at hspelled
    have hsame : (d.mapNotes Note.erase).file = (c.mapNotes Note.erase).file :=
      congrArg ClassDecl.file herase
    change d.file = c.file at hsame
    exact ⟨hspelled, hsame ▸ hfile⟩

/-- All that is read from files, and all that is noted in it, is legible. -/
theorem legible (h : p.FromFiles) : p.Legible := by
  intro c hc
  obtain ⟨⟨hname, hparent, hfeatures⟩, hfile⟩ := h.spelled c hc
  refine ⟨hname, hparent, hfile, fun f hf => ⟨hfeatures f hf, ?_⟩⟩
  exact h.legible_notes f (List.mem_flatMap_of_mem hc hf)

end Program.FromFiles

/-- Two programs from files have equal dumps if and only if they are equal up to the offsets in
their spans and the spans of formal parameters, all types and lines included. A dump consists of
one line for each class, feature, expression, branch and receiver that is not written. How the
constants are quoted does not count, as long as they can be told from their quotings, which are on
one line each. -/
theorem Program.dump_unambiguous (hquote : IsQuoting quote) (hp : p.FromFiles) (hq : q.FromFiles) :
    (p.dump quote = q.dump quote ↔ p.shown = q.shown) ∧
      ∃ lines : List (List Char), (p.dump quote).toList = lines.flatMap (· ++ ['\n']) ∧
        (∀ line ∈ lines, '\n' ∉ line) ∧
        lines.length = p.classes.length + p.features.length + p.exprs.length +
          (p.exprs.flatMap Expr.branches).length + p.exprs.countP Expr.isSelfDispatch := by
  refine ⟨hp.legible.dump_eq_iff hquote hq.legible,
    (Outline.rowsAll 0 (p.classes.map (ClassDecl.outline quote))).map Outline.Row.text, ?_, ?_, ?_⟩
  · rw [dump, Outline.toList_renderAll, List.flatMap_map]
  · intro line hline
    obtain ⟨row, hrow, rfl⟩ := List.mem_map.mp hline
    exact Outline.Row.notMem_text
      (Outline.isLine_of_mem_rowsAll (hp.legible.proper hquote) row hrow)
  · rw [List.length_map, length_rows]

/-- A call with a call and a text for its arguments. -/
def Sample.dense : String :=
  "class A\x7bf(x:Int):Int\x7b\nf(f(1),\"\\n : Int\")\x7d;\x7d;"

/-- The same with other blanks, and a comment. -/
def Sample.wide : String :=
  "class A \x7b f(x : Int) : Int \x7b\n  f(f( (* one *) 1), \"\\n : Int\")\x7d; \x7d;"

/-- What an analysis makes of one text has the dump of what it makes of the other, with a line for
one class, one method, four expressions and two receivers. -/
theorem Program.dump_unambiguous_wide : IsQuoting Quoted.encode ∧ ∃ p q,
    Program.parse "a.cl" Sample.dense = .ok p ∧ Program.parse "a.cl" Sample.wide = .ok q ∧
      (p.analyze none).program.FromFiles ∧ (q.analyze none).program.FromFiles ∧
      (p.analyze none).program.dump = (q.analyze none).program.dump ∧
      (p.analyze none).program.shown = (q.analyze none).program.shown ∧
      ∃ lines : List (List Char),
        (p.analyze none).program.dump.toList = lines.flatMap (· ++ ['\n']) ∧ lines.length = 8 := by
  have hdumps : (Program.parse "a.cl" Sample.dense).toOption.map
      (fun p => (p.analyze none).program.dump) =
      (Program.parse "a.cl" Sample.wide).toOption.map fun p => (p.analyze none).program.dump := by
    decide +kernel
  have hcount : (Program.parse "a.cl" Sample.dense).toOption.map (fun p =>
      let r := (p.analyze none).program
      r.classes.length + r.features.length + r.exprs.length +
        (r.exprs.flatMap Expr.branches).length + r.exprs.countP Expr.isSelfDispatch) =
      some 8 := by
    decide +kernel
  have hdense := congrArg Option.isSome hcount
  have hwide := congrArg Option.isSome hdumps
  rw [Option.isSome_map] at hdense
  rw [Option.isSome_map, Option.isSome_map, hdense] at hwide
  obtain ⟨p, hp⟩ := Program.exists_parse_of_isSome hdense
  obtain ⟨q, hq⟩ := Program.exists_parse_of_isSome hwide.symm
  rw [hp] at hcount
  rw [hp, hq] at hdumps
  have hdump : (p.analyze none).program.dump = (q.analyze none).program.dump :=
    Option.some.inj hdumps
  have hpfiles := FromFiles.analyze_of_parse hp (by decide) none
  have hqfiles := FromFiles.analyze_of_parse hq (by decide) none
  obtain ⟨hshown, lines, hlines, -, hlength⟩ :=
    dump_unambiguous isQuoting_encode hpfiles hqfiles
  exact ⟨isQuoting_encode, p, q, hp, hq, hpfiles, hqfiles, hdump, hshown.mp hdump, lines, hlines,
    hlength.trans (Option.some.inj hcount)⟩

end Cool
