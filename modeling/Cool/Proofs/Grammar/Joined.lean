import Cool.Proofs.Grammar.Moved

/-!
# Files one behind the other

A text that is read as a program is read as the same declarations where other text follows on a new
line: no token runs on over the line end, and the last declaration ends with a token of its own, in
front of which nothing of what follows has been looked at. The text that follows is read as it would
be by itself, at places further on. So two files that are read can be joined to one.

* `Parser.Items`, `Parser.manyUntil_eq_ok_iff` : the items of a repetition one by one;
* `Grammar.items_moved` : declarations in another stream;
* `Program.parse_eq_ok_iff` : a program is the declarations of its text;
* `Program.parse_inFile`, `Program.parse_joined` : a text in another file, and two in one.
-/

namespace Cool

namespace Parser

variable {α β : Type} {stop : Category} {item p : Parser α} {q : Parser β} {s s' s'' : Stream}
  {xs ys : List α}

/-! ## Items one by one -/

theorem stream_of_check {what : Category} {found : Bool} (h : check what s = .ok (found, s')) :
    s' = s := by
  obtain ⟨token, s₁, hpeek, hfound⟩ := exists_of_bind h
  cases hfound
  exact stream_of_peek hpeek

/-- Items one behind the other, each in front of a token that is not of the category `stop`. -/
inductive Items (stop : Category) (item : Parser α) : Stream → List α → Stream → Prop
  | nil {s : Stream} : Items stop item s [] s
  | cons {s s' s'' : Stream} {x : α} {xs : List α} (hcheck : check stop s = .ok (false, s))
    (hx : item s = .ok (x, s')) (h : Items stop item s' xs s'') : Items stop item s (x :: xs) s''

theorem Items.append (h : Items stop item s xs s') (h' : Items stop item s' ys s'') :
    Items stop item s (xs ++ ys) s'' := by
  induction h with
  | nil => exact h'
  | cons hcheck hx _ ih => exact .cons hcheck hx (ih h')

/-- A repetition gives the items up to the first token of a category, if its allowance is greater
than the number of the items. -/
theorem manyUntil_eq_ok_iff {n : Nat} : manyUntil stop item n s = .ok (xs, s') ↔
    xs.length < n ∧ Items stop item s xs s' ∧ check stop s' = .ok (true, s') := by
  induction n generalizing s xs with
  | zero => exact ⟨nofun, fun h => absurd h.1 (Nat.not_lt_zero _)⟩
  | succ n ih =>
    rw [manyUntil]
    constructor
    · intro h
      obtain ⟨found, s₁, hcheck, hrest⟩ := exists_of_bind h
      obtain rfl := stream_of_check hcheck
      cases found with
      | true =>
        cases hrest
        exact ⟨Nat.succ_pos n, .nil, hcheck⟩
      | false =>
        obtain ⟨x, s₂, hx, hrest⟩ := exists_of_bind hrest
        obtain ⟨more, s₃, hmore, hdone⟩ := exists_of_bind hrest
        cases hdone
        obtain ⟨hlength, hitems, hend⟩ := ih.mp hmore
        exact ⟨Nat.succ_lt_succ hlength, .cons hcheck hx hitems, hend⟩
    · rintro ⟨hlength, hitems, hend⟩
      cases hitems with
      | nil =>
        rw [bind_of_eq_ok hend]
        rfl
      | cons hcheck hx hitems =>
        have hmore := ih.mpr ⟨Nat.lt_of_succ_lt_succ hlength, hitems, hend⟩
        rw [bind_of_eq_ok hcheck, if_neg Bool.false_ne_true, bind_of_eq_ok hx, bind_of_eq_ok hmore]
        rfl

/-! ## Items in another stream -/

theorem take_of_cons {token : Token} {ahead : List Token} (h : s.ahead = token :: ahead) :
    take s = .ok (token, { s with ahead, last := token.span }) := by
  rw [take, h]

theorem peek_of_take {token : Token} (h : take s = .ok (token, s')) : peek s = .ok (token, s) := by
  rw [take] at h
  rw [peek]
  split at h
  · cases h
    rfl
  · cases hending : s.ending with
    | error fault =>
      rw [hending] at h
      cases h
    | ok eof =>
      rw [hending] at h
      cases h
      rfl

theorem bind_congr_run {f : α → Parser β} (h : p s = p s') : (p >>= f) s = (p >>= f) s' := by
  show (p s >>= fun r => f r.1 r.2) = (p s' >>= fun r => f r.1 r.2)
  rw [h]

/-- An item that ends with a symbol is the same in another stream, whatever comes behind it. -/
theorem Moves.closed {m : Move} {g : α → β} {sign : Symbol} {x : α} (hp : Moves m g p q)
    (hs : s.Ended)
    (h : (p >>= fun x => expect (.symbol sign) >>= fun _ => pure x) s = .ok (x, s')) :
    s'.ahead <:+ s.ahead ∧ s'.ahead.length < s.ahead.length ∧ s'.ending = s.ending ∧
      (q >>= fun y => expect (.symbol sign) >>= fun _ => pure y) (s.moved m) =
        .ok (g x, s'.moved m) := by
  obtain ⟨x', s₁, hx, hrest⟩ := exists_of_bind h
  obtain ⟨token, s₂, hexpect, hdone⟩ := exists_of_bind hrest
  cases hdone
  obtain ⟨hsuffix, hending, hq⟩ := hp s x s₁ hx
  have hs₁ : s₁.Ended := fun eof heof => hs eof (hending ▸ heof)
  obtain ⟨token', s₃, htake, hkind⟩ := exists_of_bind hexpect
  split at hkind
  · rename_i hcategory
    cases hkind
    obtain ⟨-, -, hahead | ⟨-, heof, -⟩⟩ := cases_take hs₁ htake
    · obtain ⟨ahead, ending, last⟩ := s'
      rw [take_of_cons hahead] at htake
      cases htake
      have hmoved : (s₁.moved m).ahead =
          token.mapSpan m.place :: (ahead.map (Token.mapSpan m.place) ++ m.more) := by
        rw [Stream.moved, hahead]
        rfl
      have hshort : ahead <:+ s₁.ahead := hahead ▸ List.suffix_cons token ahead
      refine ⟨hshort.trans hsuffix, ?_, hending, ?_⟩
      · have hlength := hsuffix.length_le
        rw [hahead] at hlength
        exact hlength
      · rw [bind_of_eq_ok (hq (hahead ▸ List.cons_ne_nil _ _)), expect, bind_assoc,
          bind_of_eq_ok (take_of_cons hmoved), Token.kind_mapSpan, if_pos hcategory]
        rfl
    · rw [heof] at hcategory
      cases hcategory
  · cases hkind

end Parser

/-! ## Declarations one by one -/

/-- The tokens stay where they are, in front of further ones. -/
def Move.inFront (more : List Token) (ending : Except Fault Token) : Move :=
  ⟨id, fun _ _ => rfl, more, ending⟩

/-- The tokens stand behind a text, on lines of their own. -/
def Move.behind (s : String) (ending : Except Fault Token) : Move :=
  ⟨Span.behind s, Span.shift_through _ _, [], ending⟩

theorem Stream.moved_inFront (s : Stream) (more : List Token) (ending : Except Fault Token) :
    s.moved (.inFront more ending) = ⟨s.ahead ++ more, ending, s.last⟩ :=
  congrArg (fun ahead => Stream.mk (ahead ++ more) ending s.last)
    (List.map_id'' (fun _ => rfl) s.ahead)

theorem Stream.moved_behind (s : Stream) (text : String) (ending : Except Fault Token) :
    s.moved (.behind text ending) =
      ⟨s.ahead.map (Token.mapSpan (Span.behind text)), ending, Span.behind text s.last⟩ :=
  congrArg (Stream.mk · ending _) (List.append_nil _)

namespace Grammar

open Cool.Parser

variable {file file' : String} {s s' s'' : Stream} {c : ClassDecl} {cs : List ClassDecl}

/-- A declaration starts with a token. -/
theorem check_of_classItem (h : classItem file s = .ok (c, s')) :
    check .endOfFile s = .ok (false, s) := by
  obtain ⟨c', s₁, hdecl, -⟩ := exists_of_bind (p := classDecl file) h
  obtain ⟨first, s₂, hfirst, -⟩ := exists_of_bind (p := expect (.keyword .classKw)) hdecl
  obtain ⟨token, s₃, htake, hkind⟩ := exists_of_bind (p := take) hfirst
  split at hkind
  · rename_i hcategory
    have hpeek : peek s = .ok (token, s) := peek_of_take htake
    rw [check, bind_of_eq_ok hpeek, hcategory]
    rfl
  · cases hkind

/-- The last span that was read does not matter to a declaration. -/
theorem classItem_last (file : String) (s : Stream) (last : Span) :
    classItem file { s with last } = classItem file s := by
  have htake : take { s with last } = take s := rfl
  have hfirst : expect (.keyword .classKw) { s with last } = expect (.keyword .classKw) s :=
    bind_congr_run htake
  have hdecl : classDecl file { s with last } = classDecl file s := bind_congr_run hfirst
  exact bind_congr_run hdecl

theorem items_last (hne : cs ≠ []) (h : Items .endOfFile (classItem file) s cs s') (last : Span) :
    Items .endOfFile (classItem file) { s with last } cs s' := by
  cases h with
  | nil => exact absurd rfl hne
  | cons _ hx h =>
    have hx := (classItem_last file s last).trans hx
    exact .cons (check_of_classItem hx) hx h

/-- Declarations are read in another stream, and in another file, as they are read in the first. -/
theorem items_moved (m : Move) (file' : String) (hs : s.Ended)
    (h : Items .endOfFile (classItem file) s cs s') :
    s'.ahead <:+ s.ahead ∧ cs.length ≤ s.ahead.length ∧ s'.ending = s.ending ∧
      Items .endOfFile (classItem file') (s.moved m)
        (cs.map fun c => (c.mapSpans m.place).inFile file') (s'.moved m) := by
  induction h with
  | nil => exact ⟨List.suffix_rfl, Nat.zero_le _, rfl, .nil⟩
  | @cons s s' s'' c cs hcheck hx _ ih =>
    obtain ⟨hsuffix, hlength, hending, hitem⟩ := Moves.closed (moves_classDecl file file') hs hx
    obtain ⟨hsuffix', hlength', hending', hitems⟩ := ih fun eof heof => hs eof (hending ▸ heof)
    refine ⟨hsuffix'.trans hsuffix, ?_, hending'.trans hending,
      .cons (check_of_classItem hitem) hitem hitems⟩
    rw [List.length_cons]
    omega

/-- A program is its declarations up to the end of the text. The allowance is enough for them. -/
theorem program_eq_ok_iff {p : Program} (hs : s.Ended) : program file s = .ok (p, s') ↔
    p.classes ≠ [] ∧ Items .endOfFile (classItem file) s p.classes s' ∧
      check .endOfFile s' = .ok (true, s') := by
  rw [program, map_eq_pure_bind]
  constructor
  · intro h
    obtain ⟨classes, s₁, hclasses, hdone⟩ := exists_of_bind h
    cases hdone
    obtain ⟨c, s₂, hc, hrest⟩ := exists_of_bind (p := classItem file) hclasses
    obtain ⟨cs, s₃, hmore, hdone⟩ := exists_of_bind hrest
    cases hdone
    obtain ⟨-, hitems, hend⟩ := manyUntil_eq_ok_iff.mp hmore
    exact ⟨List.cons_ne_nil c cs, .cons (check_of_classItem hc) hc hitems, hend⟩
  · rintro ⟨hne, hitems, hend⟩
    obtain ⟨-, hlength, -⟩ := items_moved (.inFront [] s.ending) file hs hitems
    obtain ⟨classes⟩ := p
    cases hitems with
    | nil => exact absurd rfl hne
    | @cons _ s₁ _ c cs hcheck hc hitems =>
      have hallowance : cs.length < 8 * (s.ahead.length + 1) := by
        rw [List.length_cons] at hlength
        omega
      have hmore := manyUntil_eq_ok_iff.mpr ⟨hallowance, hitems, hend⟩
      have hclasses : withAllowance (someUntil .endOfFile (classItem file)) s =
          .ok (c :: cs, s') := by
        rw [withAllowance, someUntil, bind_of_eq_ok hc, bind_of_eq_ok hmore]
        rfl
      rw [bind_of_eq_ok hclasses]
      rfl

end Grammar

/-! ## Files -/

namespace Program

open Cool.Grammar Cool.Parser

variable {file file' s s' : String} {p q : Program}

theorem parse_eq_ok_iff : parse file s = .ok p ↔ p.classes ≠ [] ∧ ∃ t,
    Items .endOfFile (classItem file) (Stream.ofText s) p.classes t ∧
      check .endOfFile t = .ok (true, t) := by
  have hs : (Stream.ofText s).Ended := Stream.kind_ending_ofText s
  have hrun : parse file s = .ok p ↔ ∃ t, program file (Stream.ofText s) = .ok (p, t) := by
    rw [parse, StateT.run]
    cases program file (Stream.ofText s) with
    | error fault =>
      constructor
      · intro h
        cases h
      · intro h
        obtain ⟨t, h⟩ := h
        cases h
    | ok r =>
      constructor
      · intro h
        cases h
        exact ⟨r.2, rfl⟩
      · intro h
        obtain ⟨t, h⟩ := h
        cases h
        rfl
  rw [hrun]
  constructor
  · rintro ⟨t, h⟩
    obtain ⟨hne, hitems, hend⟩ := (program_eq_ok_iff hs).mp h
    exact ⟨hne, t, hitems, hend⟩
  · rintro ⟨hne, t, hitems, hend⟩
    exact ⟨t, (program_eq_ok_iff hs).mpr ⟨hne, hitems, hend⟩⟩

/-- Nothing is left behind the declarations of a text. -/
theorem ahead_eq_nil_of_items {cs : List ClassDecl} {t : Stream}
    (hitems : Items .endOfFile (classItem file) (Stream.ofText s) cs t)
    (hend : check .endOfFile t = .ok (true, t)) : t.ahead = [] := by
  have hs : (Stream.ofText s).Ended := Stream.kind_ending_ofText s
  obtain ⟨hsuffix, -⟩ := items_moved (.inFront [] t.ending) file hs hitems
  cases hahead : t.ahead with
  | nil => rfl
  | cons token ahead =>
    rw [check, bind_of_eq_ok (show peek t = .ok (token, t) by rw [peek, hahead])] at hend
    have hcategory : (token.kind.category == .endOfFile) = true :=
      congrArg Prod.fst (Except.ok.inj hend)
    have hkind : token.kind ≠ .endOfFile :=
      Stream.kind_ne_endOfFile s token (hsuffix.subset (hahead ▸ List.mem_cons_self))
    generalize token.kind = kind at hcategory hkind
    cases kind with
    | endOfFile => exact absurd rfl hkind
    | _ => cases beq_iff_eq.mp hcategory

theorem classes_inFile_mapSpans (name : String) (place : Span → Span) (p : Program) :
    ((p.mapSpans place).inFile name).classes =
      p.classes.map fun c => (c.mapSpans place).inFile name := by
  rw [inFile, mapSpans, List.map_map]
  rfl

/-- A text is read as the same declarations in any file. -/
theorem parse_inFile (h : parse file s = .ok p) (name : String) :
    parse name s = .ok (p.inFile name) := by
  obtain ⟨hne, ⟨ahead, ending, last⟩, hitems, hend⟩ := parse_eq_ok_iff.mp h
  obtain ⟨-, -, rfl, hmoved⟩ := items_moved (.inFront [] (Stream.ofText s).ending) name
    (Stream.kind_ending_ofText s) hitems
  rw [Stream.moved_inFront, Stream.moved_inFront, List.append_nil, List.append_nil] at hmoved
  refine parse_eq_ok_iff.mpr ⟨by simpa [inFile] using hne, _, ?_, hend⟩
  rw [← p.mapSpans_id, classes_inFile_mapSpans]
  exact hmoved

theorem inFile_of_parse (h : parse file s = .ok p) : p.inFile file = p :=
  Except.ok.inj ((parse_inFile h file).symm.trans h)

/-- Two files that are read are read together, in any file, if a line end stands between them: as
the declarations of the first, and those of the second at places further on. -/
theorem parse_joined (h : parse file s = .ok p) (h' : parse file' s' = .ok q) (name : String) :
    parse name (s ++ "\n" ++ s') =
      .ok ((p.inFile name).append ((q.mapSpans (Span.behind s)).inFile name)) := by
  obtain ⟨eof, hending, -⟩ := written_ahead_of_parse h
  obtain ⟨eof', hending', heof', -⟩ := written_ahead_of_parse h'
  obtain ⟨hne, t, hitems, hend⟩ := parse_eq_ok_iff.mp h
  obtain ⟨hne', t', hitems', hend'⟩ := parse_eq_ok_iff.mp h'
  have hs := Stream.kind_ending_ofText s
  have hs' := Stream.kind_ending_ofText s'
  -- what follows on the first text: the tokens of the second, behind it
  let more := (Stream.ofText s').ahead.map (Token.mapSpan (Span.behind s))
  let ending : Except Fault Token := .ok (eof'.mapSpan (Span.behind s))
  obtain ⟨-, -, -, hfirst⟩ := items_moved (.inFront more ending) name hs hitems
  obtain ⟨-, -, -, hsecond⟩ := items_moved (.behind s ending) name hs' hitems'
  rw [Stream.moved_inFront, Stream.moved_inFront, ahead_eq_nil_of_items hitems hend,
    List.nil_append] at hfirst
  rw [Stream.moved_behind, Stream.moved_behind, ahead_eq_nil_of_items hitems' hend',
    List.map_nil] at hsecond
  have hall := hfirst.append (items_last (by simpa using hne') hsecond t.last)
  have hclasses : ((p.inFile name).append ((q.mapSpans (Span.behind s)).inFile name)).classes =
      p.classes.map (fun c => (c.mapSpans id).inFile name) ++
        q.classes.map fun c => (c.mapSpans (Span.behind s)).inFile name := by
    rw [append, classes_inFile_mapSpans, ← classes_inFile_mapSpans name id p, p.mapSpans_id]
  refine parse_eq_ok_iff.mpr ⟨?_, ⟨[], ending, Span.behind s t'.last⟩, ?_, ?_⟩
  · rw [hclasses]
    exact List.append_ne_nil_of_left_ne_nil (by simpa using hne) _
  · rw [hclasses, Stream.ofText_joined hending hending']
    exact hall
  · have hkind : (eof'.mapSpan (Span.behind s)).kind = .endOfFile := heof'
    rw [check, bind_of_eq_ok (show peek ⟨[], ending, _⟩ = .ok (_, _) from rfl), hkind]
    rfl

end Program

end Cool
