import Cool.Compilation
import Cool.Proofs.Grammar.RoundTrip
import Cool.Proofs.Grammar.Tokens

/-!
# What files are read as

Files are read as the programs that their texts are read as, one by one, whatever is listed on the
way: where a text is read as a program, its tokens can be listed. So the listings change nothing but
what is shown, and at most which fault is found.

* `SourceFile.IsRead` : a file is read as a program;
* `SourceFile.read_eq_ok_iff`, `readFiles_eq_ok_iff` : the reading of one file and of all files;
* `compile_eq_ok_iff` : what a compilation analyzes.
-/

namespace Cool

/-- The text of a file is read as this program. -/
def SourceFile.IsRead (f : SourceFile) (p : Program) : Prop :=
  Program.parse f.name f.text = .ok p

/-- The classes of programs in one program. -/
def Program.merge (ps : List Program) : Program :=
  ⟨ps.flatMap Program.classes⟩

variable {listings : Listings} {r : Reporter} {f : SourceFile} {files : List SourceFile}
  {p : Program} {text : String}

/-- The tokens of a text that is read as a program can be listed. -/
theorem exists_listTokens_of_parse {file : String} (h : Program.parse file text = .ok p) :
    ∃ listing, listTokens text = .ok listing := by
  obtain ⟨eof, hending, -⟩ := Program.written_ahead_of_parse h
  refine ⟨String.join (((Stream.ofText text).ahead ++ [eof]).map Token.line), ?_⟩
  rw [listTokens, tokenize_of_ending hending]
  rfl

/-- The listings do not count. -/
theorem SourceFile.read_eq_ok_iff : (f.read listings r).1 = .ok p ↔ f.IsRead p := by
  unfold SourceFile.read IsRead
  dsimp only
  constructor
  · intro h
    split at h
    · cases h
    · split at h
      · cases h
      · rename_i hparse
        cases h
        exact hparse
  · intro h
    obtain ⟨listing, hlisting⟩ := exists_listTokens_of_parse h
    have htokens : ∃ tokens, f.tokenListing listings = .ok tokens := by
      rw [tokenListing, hlisting]
      split_ifs
      · exact ⟨_, rfl⟩
      · exact ⟨_, rfl⟩
    obtain ⟨tokens, htokens⟩ := htokens
    rw [htokens, h]

/-- Files are read as the merged programs of the single files. -/
theorem readFiles_eq_ok_iff : ∀ {files : List SourceFile} {p : Program},
    (readFiles listings r files).1 = .ok p ↔
      ∃ ps, List.Forall₂ SourceFile.IsRead files ps ∧ p = .merge ps
  | [], p => by
    constructor
    · rintro ⟨⟩
      exact ⟨[], .nil, rfl⟩
    · rintro ⟨ps, hps, rfl⟩
      cases hps
      rfl
  | f :: files, p => by
    rw [readFiles]
    constructor
    · intro h
      split at h
      · cases h
      · rename_i q shown hread
        dsimp only at h
        cases hrest : (readFiles listings r files).1 with
        | error fault =>
          rw [hrest] at h
          cases h
        | ok others =>
          rw [hrest] at h
          cases h
          obtain ⟨ps, hps, rfl⟩ := readFiles_eq_ok_iff.mp hrest
          exact ⟨q :: ps, .cons (SourceFile.read_eq_ok_iff.mp (congrArg Prod.fst hread)) hps, rfl⟩
    · rintro ⟨ps, hps, rfl⟩
      cases hps with
      | @cons _ q _ qs hq hqs =>
        obtain ⟨shown, hread⟩ : ∃ shown, f.read listings r = (.ok q, shown) :=
          ⟨_, Prod.ext (SourceFile.read_eq_ok_iff.mpr hq) rfl⟩
        have hrest : (readFiles listings r files).1 = .ok (.merge qs) :=
          readFiles_eq_ok_iff.mpr ⟨qs, hqs, rfl⟩
        simp only [hread, hrest]
        rfl

/-- Each program is read from one of the files. -/
theorem exists_isRead_of_mem {ps : List Program}
    (h : List.Forall₂ SourceFile.IsRead files ps) (hp : p ∈ ps) : ∃ f ∈ files, f.IsRead p := by
  induction h with
  | nil => cases hp
  | @cons f q files ps hq _ ih =>
    rcases List.mem_cons.mp hp with rfl | hp
    · exact ⟨f, List.mem_cons_self, hq⟩
    · obtain ⟨g, hg, hread⟩ := ih hp
      exact ⟨g, List.mem_cons_of_mem f hg, hread⟩

/-- A compilation gives the analysis of the merged programs. -/
theorem compile_eq_ok_iff {limit : Option Nat} {style : Style} {a : Analysis} :
    (compile limit listings style files).outcome = .ok a ↔
      ∃ ps, List.Forall₂ SourceFile.IsRead files ps ∧ a = (Program.merge ps).analyze limit := by
  unfold compile
  dsimp only
  generalize files.foldl Reporter.addFile (.empty style) = r
  constructor
  · intro h
    cases hread : (readFiles listings r files).1 with
    | error fault =>
      rw [hread] at h
      cases h
    | ok p =>
      rw [hread] at h
      cases h
      obtain ⟨ps, hps, rfl⟩ := readFiles_eq_ok_iff.mp hread
      exact ⟨ps, hps, rfl⟩
  · rintro ⟨ps, hps, rfl⟩
    rw [readFiles_eq_ok_iff.mpr ⟨ps, hps, rfl⟩]
    rfl

end Cool
