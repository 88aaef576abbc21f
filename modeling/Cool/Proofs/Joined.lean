import Cool.Proofs.Analysis.Nowhere
import Cool.Proofs.Compilation
import Cool.Proofs.Grammar.Joined

/-!
# Joined files

Files that are read can be joined to one file, with a line end between each two of their texts. It
has their declarations, at other places; and as the analysis does not depend on places, the same is
found in it, up to the places that are reported.

* `SourceFile.joined` : the text of several files;
* `exists_isRead_joined` : what it is read as;
* `parse_joined_and_compile_joined` : two texts as one, and a compilation of any files as one.
-/

namespace Cool

/-- The texts of files in one text, with a line end between each two. -/
def SourceFile.joined (files : List SourceFile) : String :=
  "\n".intercalate (files.map SourceFile.text)

variable {f : SourceFile} {files : List SourceFile} {p : Program} {ps : List Program}

theorem SourceFile.joined_singleton : joined [f] = f.text :=
  String.intercalate_singleton

theorem SourceFile.joined_cons (h : files ≠ []) :
    joined (f :: files) = f.text ++ "\n" ++ joined files :=
  String.intercalate_cons_of_ne_nil (by simpa using h)

theorem Program.merge_cons : merge (p :: ps) = p.append (merge ps) := rfl

theorem Program.merge_singleton : merge [p] = p :=
  congrArg mk (List.append_nil p.classes)

/-- A text that is read in a file of one name is read in a file of another. -/
theorem SourceFile.IsRead.inFile (h : f.IsRead p) (name : String) :
    IsRead ⟨name, f.text⟩ (p.inFile name) :=
  Program.parse_inFile h name

theorem Program.exists_parse_of_isSome {file text : String}
    (h : (parse file text).toOption.isSome = true) : ∃ p, parse file text = .ok p := by
  cases hparse : parse file text with
  | error fault =>
    rw [hparse] at h
    cases h
  | ok p => exact ⟨p, rfl⟩

theorem exists_forall₂_isRead (h : ∀ f ∈ files, ∃ p, f.IsRead p) :
    ∃ ps, List.Forall₂ SourceFile.IsRead files ps := by
  induction files with
  | nil => exact ⟨[], .nil⟩
  | cons f files ih =>
    obtain ⟨p, hp⟩ := h f List.mem_cons_self
    obtain ⟨ps, hps⟩ := ih fun g hg => h g (List.mem_cons_of_mem f hg)
    exact ⟨p :: ps, .cons hp hps⟩

/-- Joined files are read as the merged programs of the single files, up to places. -/
theorem exists_isRead_joined (hne : files ≠ [])
    (h : List.Forall₂ SourceFile.IsRead files ps) (name : String) :
    ∃ q, SourceFile.IsRead ⟨name, SourceFile.joined files⟩ q ∧
      q.nowhere = (Program.merge ps).nowhere := by
  induction h with
  | nil => exact absurd rfl hne
  | @cons f p files ps hread hreads ih =>
    by_cases hlast : files = []
    · subst hlast
      cases hreads
      refine ⟨p.inFile name, ?_, ?_⟩
      · rw [SourceFile.joined_singleton]
        exact hread.inFile name
      · rw [Program.nowhere_inFile, Program.merge_singleton]
    · obtain ⟨q, hq, hnowhere⟩ := ih hlast
      refine ⟨(p.inFile name).append ((q.mapSpans (Span.behind f.text)).inFile name), ?_, ?_⟩
      · rw [SourceFile.joined_cons hlast]
        exact Program.parse_joined hread hq name
      · rw [Program.merge_cons, Program.nowhere_append, Program.nowhere_append,
          Program.nowhere_inFile, Program.nowhere_inFile, Program.nowhere_mapSpans, hnowhere]

/-- Two texts that are read as programs are read together, with a line end between them, as the
declarations of the first and then those of the second, at offsets as much greater as the first text
and the line end are long, and on as many lines further on. So files that are read are compiled one
by one and in one text with the same result, up to places: the same diagnostics, and the same types
of all expressions. -/
theorem parse_joined_and_compile_joined :
    (∀ (file s s' : String) (p q : Program), Program.parse file s = .ok p →
      Program.parse file s' = .ok q →
      Program.parse file (s ++ "\n" ++ s') = .ok (p.append (q.mapSpans
        (Span.shift (Text.bytes s.toList + 1) (Text.newlines s.toList + 1))))) ∧
    ∀ files : List SourceFile, files ≠ [] → (∀ f ∈ files, ∃ p, f.IsRead p) →
      ∀ (limit : Option Nat) (listings : Listings) (style : Style) (name : String), ∃ a b,
        (compile limit listings style files).outcome = .ok a ∧
        (compile limit listings style [⟨name, SourceFile.joined files⟩]).outcome = .ok b ∧
        b.nowhere = a.nowhere := by
  refine ⟨fun file s s' p q hp hq => ?_, fun files hne hread limit listings style name => ?_⟩
  · have hjoined := Program.parse_joined hp hq file
    rw [Program.inFile_mapSpans, Program.inFile_of_parse hp, Program.inFile_of_parse hq] at hjoined
    exact hjoined
  · obtain ⟨ps, hps⟩ := exists_forall₂_isRead hread
    obtain ⟨q, hq, hnowhere⟩ := exists_isRead_joined hne hps name
    refine ⟨_, q.analyze limit, compile_eq_ok_iff.mpr ⟨ps, hps, rfl⟩,
      compile_eq_ok_iff.mpr ⟨[q], .cons hq .nil, ?_⟩, Program.analyze_of_nowhere_eq hnowhere limit⟩
    rw [Program.merge_singleton]

/-- A file that ends in a comment, without a line end. -/
def Sample.commented : String :=
  "class A \x7b x : Int; \x7d; -- no more"

/-- A file with an integer where a string is declared. -/
def Sample.misfit : String :=
  "class Main inherits A \x7b\n  main() : String \x7b x \x7d;\n\x7d;"

/-- The files by themselves. -/
def Sample.parts : List SourceFile :=
  [⟨"a.cl", commented⟩, ⟨"b.cl", misfit⟩]

/-- The comment ends with its line, and the same is reported of the class behind it. -/
theorem parse_joined_and_compile_joined_comment : ∃ p q,
    Program.parse "a.cl" Sample.commented = .ok p ∧ Program.parse "a.cl" Sample.misfit = .ok q ∧
      Program.parse "a.cl" (Sample.commented ++ "\n" ++ Sample.misfit) =
        .ok (p.append (q.mapSpans (Span.shift 33 1))) ∧
      ∃ a b, (compile none ⟨false, false⟩ .plain Sample.parts).outcome = .ok a ∧
        (compile none ⟨false, false⟩ .plain
          [⟨"c.cl", SourceFile.joined Sample.parts⟩]).outcome = .ok b ∧
        b.nowhere = a.nowhere ∧ a.diagnostics.length = 1 := by
  have hcommented : (Program.parse "a.cl" Sample.commented).toOption.isSome = true := by
    decide +kernel
  have hmisfit : (Program.parse "a.cl" Sample.misfit).toOption.isSome = true := by
    decide +kernel
  have hreport : (compile none ⟨false, false⟩ .plain Sample.parts).outcome.toOption.any (fun a =>
      a.diagnostics.length == 1) = true := by
    decide +kernel
  obtain ⟨p, hp⟩ := Program.exists_parse_of_isSome hcommented
  obtain ⟨q, hq⟩ := Program.exists_parse_of_isSome hmisfit
  have hread : ∀ f ∈ Sample.parts, ∃ p, f.IsRead p := by
    intro f hf
    rcases List.mem_pair.mp hf with rfl | rfl
    · exact ⟨p, hp⟩
    · exact ⟨_, Program.parse_inFile hq "b.cl"⟩
  obtain ⟨hjoined, hcompiled⟩ := parse_joined_and_compile_joined
  obtain ⟨a, b, ha, hb, hsame⟩ := hcompiled Sample.parts (List.cons_ne_nil _ _) hread none
    ⟨false, false⟩ .plain "c.cl"
  rw [ha] at hreport
  exact ⟨p, q, hp, hq, hjoined _ _ _ p q hp hq, a, b, ha, hb, hsame, beq_iff_eq.mp hreport⟩

end Cool
