import Cool.Proofs.Analysis.Places
import Cool.Proofs.Compilation
import Cool.Proofs.Grammar.Joined
import Cool.Proofs.Grammar.Places

/-!
# Reports that can be shown

A diagnostic knows its file by name, and a fault is found while a file is read. The reporter looks
the name up among its files, of which several may have it. If these have the same text, then every
place that is reported lies in the text of the file that is found, so that it can be shown.

* `Reporter.Shows`, `Label.InRange` : places that can be shown, and the labels for them;
* `Reporter.exists_fileId?` : the files that are found by name;
* `exists_of_readFiles_error`, `SourceFile.within_of_read_error` : the file that is at fault;
* `compile_shows` : the diagnostics and faults of a compilation.
-/

namespace Cool

/-- The name is that of a file, in whose text the span can be shown. -/
def Reporter.Shows (r : Reporter) (name : String) (span : Span) : Prop :=
  ∃ k f, r.fileId? name = some k ∧ r.files[k]? = some f ∧ f.name = name ∧
    span.Within f.text.toList

/-- The label is on a stretch of a file, from one place between characters to another. -/
def Label.InRange (r : Reporter) (l : Label) : Prop :=
  ∃ f, r.files[l.file]? = some f ∧ l.start ≤ l.stop ∧ l.stop ≤ Text.bytes f.text.toList ∧
    Text.IsBoundary f.text.toList l.start ∧ Text.IsBoundary f.text.toList l.stop

variable {r : Reporter} {f : SourceFile} {files : List SourceFile} {listings : Listings}
  {style : Style} {name : String} {span : Span} {fault : Fault} {p : Program} {c : ClassDecl}
  {d : Diagnostic}

/-! ## Files by name -/

namespace Reporter

theorem files_foldl_addFile (files : List SourceFile) (r : Reporter) :
    (files.foldl addFile r).files = r.files ++ files := by
  induction files generalizing r with
  | nil => exact (List.append_nil _).symm
  | cons f files ih =>
    rw [List.foldl_cons, ih, addFile, List.append_assoc, List.singleton_append]

theorem exists_fileId? (hf : f ∈ r.files) :
    ∃ k g, r.fileId? f.name = some k ∧ r.files[k]? = some g ∧ g.name = f.name := by
  obtain ⟨i, hi⟩ := List.mem_iff_getElem?.mp hf
  have hsome : (r.fileId? f.name).isSome = true := by
    rw [fileId?, Option.isSome_map, List.find?_isSome]
    exact ⟨(f, i), List.mem_reverse.mpr (List.mk_mem_zipIdx_iff_getElem?.mpr hi),
      beq_self_eq_true f.name⟩
  obtain ⟨k, hk⟩ := Option.isSome_iff_exists.mp hsome
  obtain ⟨⟨g, j⟩, hfind, rfl⟩ := Option.map_eq_some_iff.mp hk
  have hmem := List.mem_reverse.mp (List.mem_of_find?_eq_some hfind)
  exact ⟨j, g, hk, List.mk_mem_zipIdx_iff_getElem?.mp hmem, by simpa using List.find?_some hfind⟩

/-- Where files with one name have one text, a file is shown if its name is looked up. -/
theorem shows_of_within (hnames : ∀ f ∈ r.files, ∀ g ∈ r.files, f.name = g.name → f.text = g.text)
    (hf : f ∈ r.files) (hspan : span.Within f.text.toList) : r.Shows f.name span := by
  obtain ⟨k, g, hk, hg, hname⟩ := exists_fileId? hf
  refine ⟨k, g, hk, hg, hname, ?_⟩
  rwa [hnames g (List.mem_of_getElem? hg) f hf hname]

theorem Shows.inRange (h : r.Shows name span) :
    ∃ k, r.fileId? name = some k ∧
      ∀ detail, Label.InRange r ⟨k, span.start, span.stop, detail⟩ := by
  obtain ⟨k, f, hk, hf, -, hspan⟩ := h
  exact ⟨k, hk, fun _ => ⟨f, hf, hspan.start_le_stop, hspan.stop.le_bytes, hspan.isBoundary_start,
    hspan.stop⟩⟩

/-- The labels that are made for places that are shown. -/
theorem Shows.inRange_notice (h : r.Shows name span) (hlocation : d.location? = some ⟨name, span⟩) :
    ∀ label ∈ (d.notice (d.file?.bind r.fileId?)).label?, label.InRange r := by
  obtain ⟨k, hk, hrange⟩ := h.inRange
  have hfile : d.file?.bind r.fileId? = some k := by
    rw [Diagnostic.file?, hlocation]
    exact hk
  rw [hfile]
  unfold Diagnostic.notice
  rw [hlocation]
  exact fun label hlabel => Option.mem_some.mp hlabel ▸ hrange ""

theorem Shows.inRange_fault (h : r.Shows name fault.span) :
    ∀ label ∈ (fault.notice ((r.fileId? name).getD 0)).label?, label.InRange r := by
  obtain ⟨k, hk, hrange⟩ := h.inRange
  rw [hk]
  cases fault with
  | lexical error span => exact fun label hlabel => Option.mem_some.mp hlabel ▸ hrange _
  | grammatical error span => exact fun label hlabel => Option.mem_some.mp hlabel ▸ hrange _

end Reporter

/-! ## Faults -/

theorem exists_of_readFiles_error : ∀ {files : List SourceFile},
    (readFiles listings r files).1 = .error fault → ∃ before f behind,
      files = before ++ f :: behind ∧ (∀ g ∈ before, ∃ p, g.IsRead p) ∧
        (f.read listings r).1 = .error fault
  | [], h => by cases h
  | f :: files, h => by
    rw [readFiles] at h
    split at h
    · rename_i fault' shown hread
      cases h
      exact ⟨[], f, files, rfl, List.forall_mem_nil _, congrArg Prod.fst hread⟩
    · rename_i p shown hread
      have hp : f.IsRead p := SourceFile.read_eq_ok_iff.mp (congrArg Prod.fst hread)
      dsimp only at h
      cases hrest : (readFiles listings r files).1 with
      | ok others =>
        rw [hrest] at h
        cases h
      | error fault' =>
        rw [hrest] at h
        cases h
        obtain ⟨before, g, behind, rfl, hbefore, hg⟩ := exists_of_readFiles_error hrest
        exact ⟨f :: before, g, behind, rfl, List.forall_mem_cons.mpr ⟨⟨p, hp⟩, hbefore⟩, hg⟩

/-- Whether the tokens are listed before or the text is read at once, the fault lies in it. -/
theorem SourceFile.within_of_read_error (h : (f.read listings r).1 = .error fault) :
    fault.span.Within f.text.toList := by
  unfold read at h
  dsimp only at h
  split at h
  · rename_i fault' hlisting
    cases h
    unfold tokenListing at hlisting
    split_ifs at hlisting
    cases htokens : tokenize f.text with
    | error fault' =>
      rw [listTokens, htokens] at hlisting
      cases hlisting
      exact within_of_tokenize_error htokens
    | ok tokens =>
      rw [listTokens, htokens] at hlisting
      cases hlisting
  · split at h
    · rename_i hparse
      cases h
      exact Program.within_of_parse_error hparse
    · cases h

/-! ## Diagnostics -/

theorem file_of_isRead (h : f.IsRead p) (hc : c ∈ p.classes) : c.file = f.name := by
  have hfile : p.classes.map (ClassDecl.inFile f.name) = p.classes :=
    congrArg Program.classes (Program.inFile_of_parse h)
  rw [← hfile] at hc
  obtain ⟨c, -, rfl⟩ := List.mem_map.mp hc
  rfl

/-- What is reported of programs that are read is reported in one of the files, within its text. -/
theorem exists_within_of_mem_diagnostics {limit : Option Nat} {ps : List Program}
    (hps : List.Forall₂ SourceFile.IsRead files ps)
    (hd : d ∈ ((Program.merge ps).analyze limit).diagnostics) :
    d = .noMainClass ∨ ∃ f ∈ files, ∃ span, d.location? = some ⟨f.name, span⟩ ∧
      span.Within f.text.toList := by
  refine (Program.exists_locates_of_mem_diagnostics hd).imp_right ?_
  rintro ⟨c, hc, span, hspan, hlocation⟩
  obtain ⟨p, hp, hc⟩ := List.mem_flatMap.mp hc
  obtain ⟨f, hf, hread⟩ := exists_isRead_of_mem hps hp
  obtain ⟨hdeclared, hplaces⟩ := Program.liesIn_of_parse hread c hc
  rw [file_of_isRead hread hc] at hlocation
  exact ⟨f, hf, span, hlocation, hspan.elim (hdeclared span) (hplaces span)⟩

/-- Where files with one name have one text, all that is reported can be shown. A diagnostic says
that there is no class to start with, or it has a place in one of the files; so has the fault that
ends the reading, in the file that is read then; and the name of the file stands for its text. -/
theorem compile_shows
    (hnames : ∀ f ∈ files, ∀ g ∈ files, f.name = g.name → f.text = g.text)
    (limit : Option Nat) (listings : Listings) (style : Style) :
    let compiled := compile limit listings style files
    (∀ a, compiled.outcome = .ok a → ∀ d ∈ a.diagnostics,
      (d.location? = none ∧ d.message = "Class Main is not defined." ∨
        ∃ f ∈ files, ∃ span, d.location? = some ⟨f.name, span⟩ ∧ span.Within f.text.toList ∧
          compiled.reporter.Shows f.name span) ∧
      ∀ label ∈ (d.notice (d.file?.bind compiled.reporter.fileId?)).label?,
        label.InRange compiled.reporter) ∧
    ∀ fault, compiled.outcome = .error fault → ∃ before f behind,
      files = before ++ f :: behind ∧ (∀ g ∈ before, ∃ p, g.IsRead p) ∧
      (f.read listings compiled.reporter).1 = .error fault ∧
      fault.span.Within f.text.toList ∧ compiled.reporter.Shows f.name fault.span ∧
      ∀ label ∈ (fault.notice ((compiled.reporter.fileId? f.name).getD 0)).label?,
        label.InRange compiled.reporter := by
  intro compiled
  have hfiles : compiled.reporter.files = files := Reporter.files_foldl_addFile files (.empty style)
  have hshows : ∀ f ∈ files, ∀ span : Span, span.Within f.text.toList →
      compiled.reporter.Shows f.name span := by
    rw [← hfiles] at hnames ⊢
    exact fun f hf span hspan => Reporter.shows_of_within hnames hf hspan
  refine ⟨fun a ha d hd => ?_, fun fault hfault => ?_⟩
  · obtain ⟨ps, hps, rfl⟩ := compile_eq_ok_iff.mp ha
    rcases exists_within_of_mem_diagnostics hps hd with rfl | ⟨f, hf, span, hlocation, hspan⟩
    · exact ⟨Or.inl ⟨rfl, rfl⟩, nofun⟩
    · have hshow := hshows f hf span hspan
      exact ⟨Or.inr ⟨f, hf, span, hlocation, hspan, hshow⟩, hshow.inRange_notice hlocation⟩
  · have hread : (readFiles listings compiled.reporter files).1 = .error fault := by
      cases hresult : (readFiles listings compiled.reporter files).1 with
      | ok p => cases hfault.symm.trans (congrArg (Except.map _) hresult)
      | error fault' =>
        cases hfault.symm.trans (congrArg (Except.map _) hresult)
        rfl
    obtain ⟨before, f, behind, hsplit, hbefore, hf⟩ := exists_of_readFiles_error hread
    have hmem : f ∈ files := by simp [hsplit]
    have hspan := SourceFile.within_of_read_error hf
    have hshow := hshows f hmem fault.span hspan
    exact ⟨before, f, behind, hsplit, hbefore, hf, hspan, hshow, hshow.inRange_fault⟩

/-- A file that is given twice, with another one between. -/
def Sample.twice : List SourceFile :=
  [⟨"a.cl", "class A \x7b x : B; \x7d;"⟩, ⟨"b.cl", "class C inherits A \x7b\n  y : B; \x7d;"⟩,
    ⟨"a.cl", "class A \x7b x : B; \x7d;"⟩]

/-- A file with a character that starts no token, behind one of two bytes. -/
def Sample.unread : List SourceFile :=
  [⟨"d.cl", "class D -- é\n\x7b ? \x7d;"⟩]

theorem compile_shows_twice :
    (∀ f ∈ Sample.twice, ∀ g ∈ Sample.twice, f.name = g.name → f.text = g.text) ∧
      (∃ a, (compile none ⟨false, false⟩ .rich Sample.twice).outcome = .ok a ∧
        a.diagnostics.map Diagnostic.location? = [some ⟨"a.cl", ⟨0, 18, 1⟩⟩, none,
          some ⟨"a.cl", ⟨10, 15, 1⟩⟩, some ⟨"b.cl", ⟨23, 28, 2⟩⟩] ∧
        ∀ d ∈ a.diagnostics, d.location? = none ∧ d.message = "Class Main is not defined." ∨
          ∃ f ∈ Sample.twice, ∃ span, d.location? = some ⟨f.name, span⟩ ∧
            span.Within f.text.toList ∧
              (compile none ⟨false, false⟩ .rich Sample.twice).reporter.Shows f.name span) ∧
      (compile none ⟨false, false⟩ .rich Sample.unread).outcome =
          .error (.lexical (.unexpected '?') ⟨16, 17, 2⟩) ∧
        ∃ f ∈ Sample.unread, Span.Within f.text.toList ⟨16, 17, 2⟩ := by
  have hnames : ∀ f ∈ Sample.twice, ∀ g ∈ Sample.twice, f.name = g.name → f.text = g.text := by
    decide
  refine ⟨hnames, ?_, ?_⟩
  · have hlocations : ((compile none ⟨false, false⟩ .rich Sample.twice).outcome.toOption.map
        fun a => a.diagnostics.map Diagnostic.location?) = some [some ⟨"a.cl", ⟨0, 18, 1⟩⟩, none,
          some ⟨"a.cl", ⟨10, 15, 1⟩⟩, some ⟨"b.cl", ⟨23, 28, 2⟩⟩] := by decide +kernel
    cases ha : (compile none ⟨false, false⟩ .rich Sample.twice).outcome with
    | error fault =>
      rw [ha] at hlocations
      cases hlocations
    | ok a =>
      rw [ha] at hlocations
      obtain ⟨hdiagnostics, -⟩ := compile_shows hnames none ⟨false, false⟩ .rich
      exact ⟨a, rfl, Option.some.inj hlocations, fun d hd => (hdiagnostics a ha d hd).1⟩
  · have hunit : (compile none ⟨false, false⟩ .rich Sample.unread).outcome.map (fun _ => ()) =
        .error (.lexical (.unexpected '?') ⟨16, 17, 2⟩) := by decide +kernel
    have hfault : (compile none ⟨false, false⟩ .rich Sample.unread).outcome =
        .error (.lexical (.unexpected '?') ⟨16, 17, 2⟩) := by
      cases hresult : (compile none ⟨false, false⟩ .rich Sample.unread).outcome with
      | ok a =>
        rw [hresult] at hunit
        cases hunit
      | error fault =>
        rw [hresult] at hunit
        cases hunit
        rfl
    have hone : ∀ f ∈ Sample.unread, ∀ g ∈ Sample.unread, f.name = g.name → f.text = g.text := by
      decide
    obtain ⟨before, f, behind, hfiles, -, -, hwithin, -⟩ :=
      (compile_shows hone none ⟨false, false⟩ .rich).2 _ hfault
    exact ⟨hfault, f, by simp [hfiles], hwithin⟩

end Cool
