import Cool.Proofs.Tree.Labels

/-!
# Programs can be told from their dumps

A dump leaves out of a program the offsets in its spans and all of the spans of formal parameters,
and nothing else: whatever is legible in it can be told from the text. Of the way in which string
constants are quoted no more is needed than `IsQuoting`.

* `Expr.shown`, `Program.shown` : a tree without what a dump leaves out;
* `Expr.Legible`, `Program.Legible` : trees with names, types and files that can be told from lines;
* `Expr.outline_inj`, `ClassDecl.outline_inj` : trees from their outlines;
* `Program.dump_eq_iff` : equal dumps are those of programs that differ in nothing that is shown;
* `Program.exprs`, `Program.length_rows` : how many lines a dump has.
-/

namespace Cool

/-! ## What is shown -/

/-- The span without its offsets. -/
def Span.shown (span : Span) : Span :=
  ⟨0, 0, span.line⟩

/-- The expression without the offsets in its spans. -/
def Expr.shown (e : Expr) : Expr :=
  e.mapSpans Span.shown

def Part.shown (part : Part) : Part :=
  part.mapSpans Span.shown

def Feature.shown : Feature → Feature
  | .attr a => .attr { a with init := a.init.map Expr.shown, span := a.span.shown }
  | .method m => .method { m with
      formals := m.formals.map Formal.shown, body := m.body.shown, span := m.span.shown }

def ClassDecl.shown (c : ClassDecl) : ClassDecl :=
  { c with features := c.features.map Feature.shown, span := c.span.shown }

/-- The program without what a dump leaves out: the offsets in its spans, and the spans of formal
parameters. -/
def Program.shown (p : Program) : Program :=
  ⟨p.classes.map ClassDecl.shown⟩

/-! ## What is legible -/

/-- All names and constants can be written, and all types can be told from their names. -/
def Expr.Legible (e : Expr) : Prop :=
  e.Spelled ∧ ∀ note ∈ e.notes, note.Legible

def Part.Legible : Part → Prop
  | .self => True
  | .expr e => e.Legible
  | .branch b => IsObjectName b.name ∧ IsTypeName b.type ∧ b.body.Legible

def Feature.Legible (f : Feature) : Prop :=
  f.Spelled ∧ ∀ note ∈ f.notes, note.Legible

/-- The name of the file is on one line, too. -/
def ClassDecl.Legible (c : ClassDecl) : Prop :=
  IsTypeName c.name ∧ IsTypeName c.parent ∧ '\n' ∉ c.file.toList ∧ ∀ f ∈ c.features, f.Legible

def Program.Legible (p : Program) : Prop :=
  ∀ c ∈ p.classes, c.Legible

theorem Expr.spelledAll_iff {es : List Expr} : SpelledAll es ↔ ∀ e ∈ es, e.Spelled := by
  induction es with
  | nil => exact iff_of_true trivial (List.forall_mem_nil _)
  | cons e es ih => rw [SpelledAll, ih, List.forall_mem_cons]

theorem Branch.spelledAll_iff {bs : List Branch} : SpelledAll bs ↔
    ∀ b ∈ bs, IsObjectName b.name ∧ IsTypeName b.type ∧ b.body.Spelled := by
  induction bs with
  | nil => exact iff_of_true trivial (List.forall_mem_nil _)
  | cons b bs ih =>
    obtain ⟨name, type, body, span⟩ := b
    rw [SpelledAll, ih, List.forall_mem_cons, and_assoc, and_assoc]

variable {quote : String → String}

namespace Expr

variable {e e' : Expr}

theorem Legible.note (h : e.Legible) : e.note.Legible := by
  apply h.2
  cases e <;> exact List.mem_cons_self

/-- What is below a legible expression is legible. -/
theorem Legible.part (h : e.Legible) : ∀ part ∈ e.parts, part.Legible := by
  obtain ⟨hs, hn⟩ := h
  have hall {es : List Expr} (hs : SpelledAll es) (hn : ∀ note ∈ notesAll es, note.Legible) :
      ∀ part ∈ es.map Part.expr, part.Legible := by
    rw [notesAll_eq_flatMap] at hn
    intro part hpart
    obtain ⟨e, he, rfl⟩ := List.mem_map.mp hpart
    exact ⟨spelledAll_iff.mp hs e he, fun note hnote => hn note (List.mem_flatMap_of_mem he hnote)⟩
  have hbranches {bs : List Branch} (hs : Branch.SpelledAll bs)
      (hn : ∀ note ∈ Branch.notesAll bs, note.Legible) :
      ∀ part ∈ bs.map Part.branch, part.Legible := by
    rw [Branch.notesAll_eq_flatMap] at hn
    intro part hpart
    obtain ⟨b, hb, rfl⟩ := List.mem_map.mp hpart
    obtain ⟨hname, htype, hbody⟩ := Branch.spelledAll_iff.mp hs b hb
    exact ⟨hname, htype, hbody, fun note hnote => hn note (List.mem_flatMap_of_mem hb hnote)⟩
  cases e with
  | int | string | bool | object | new => exact List.forall_mem_nil _
  | assign =>
    simp only [notes, List.forall_mem_cons] at hn
    exact List.forall_mem_singleton.mpr ⟨hs.2, hn.2⟩
  | unary | isVoid =>
    simp only [notes, List.forall_mem_cons] at hn
    exact List.forall_mem_singleton.mpr ⟨hs, hn.2⟩
  | selfDispatch =>
    simp only [notes, List.forall_mem_cons] at hn
    exact List.forall_mem_cons.mpr ⟨trivial, hall hs.2 hn.2⟩
  | dispatch =>
    simp only [notes, List.forall_mem_cons, List.forall_mem_append] at hn
    exact List.forall_mem_cons.mpr ⟨⟨hs.1, hn.2.1⟩, hall hs.2.2 hn.2.2⟩
  | staticDispatch =>
    simp only [notes, List.forall_mem_cons, List.forall_mem_append] at hn
    exact List.forall_mem_cons.mpr ⟨⟨hs.1, hn.2.1⟩, hall hs.2.2.2 hn.2.2⟩
  | cond =>
    simp only [notes, List.forall_mem_cons, List.forall_mem_append] at hn
    simp only [parts, List.forall_mem_cons]
    exact ⟨⟨hs.1, hn.2.1⟩, ⟨hs.2.1, hn.2.2.1⟩, ⟨hs.2.2, hn.2.2.2⟩, List.forall_mem_nil _⟩
  | loop | binary =>
    simp only [notes, List.forall_mem_cons, List.forall_mem_append] at hn
    simp only [parts, List.forall_mem_cons]
    exact ⟨⟨hs.1, hn.2.1⟩, ⟨hs.2, hn.2.2⟩, List.forall_mem_nil _⟩
  | block =>
    simp only [notes, List.forall_mem_cons] at hn
    exact hall hs hn.2
  | letIn _ _ _ init _ =>
    simp only [notes, List.forall_mem_cons, List.forall_mem_append] at hn
    simp only [parts, List.forall_mem_append]
    refine ⟨?_, List.forall_mem_singleton.mpr ⟨hs.2.2.2, hn.2.2⟩⟩
    cases init with
    | none => exact List.forall_mem_nil _
    | some init => exact List.forall_mem_singleton.mpr ⟨hs.2.2.1, hn.2.1⟩
  | typeCase =>
    simp only [notes, List.forall_mem_cons, List.forall_mem_append] at hn
    exact List.forall_mem_cons.mpr ⟨⟨hs.1, hn.2.1⟩, hbranches hs.2 hn.2.2⟩

/-- The text in the line of an expression is on one line. -/
theorem Legible.notMem_text (hquote : IsQuoting quote) (h : e.Legible) :
    '\n' ∉ (e.form.word ++ e.details quote).toList := by
  have hname {name : String} (h : name.toList.all isWordChar = true) : '\n' ∉ name.toList :=
    notMem_of_all h (by decide)
  have hblank {text : String} (h : '\n' ∉ text.toList) : '\n' ∉ (" " ++ text).toList := by
    rw [String.toList_append, List.mem_append, not_or]
    exact ⟨by decide, h⟩
  have hs := h.1
  rw [String.toList_append, List.mem_append, not_or]
  refine ⟨e.form.word_spec.2.1, ?_⟩
  cases e with
  | int _ value => exact hblank (notMem_toString (by decide) value)
  | string _ value => exact hblank (hquote.notMem value)
  | bool _ value => exact hblank (by cases value <;> decide)
  | object | new => exact hblank (hname hs.2.1)
  | assign | selfDispatch => exact hblank (hname hs.1.2.1)
  | dispatch => exact hblank (hname hs.2.1.2.1)
  | staticDispatch =>
    simp only [details, String.toList_append, List.mem_append, not_or]
    exact ⟨⟨⟨by decide, hname hs.2.1.2.1⟩, by decide⟩, hname hs.2.2.1.2.1⟩
  | letIn => exact notMem_typed (by decide) hs.1.2.1 hs.2.1.2.1 (by decide) (by decide)
  | cond | loop | block | typeCase | binary | unary | isVoid =>
    show '\n' ∉ "".toList
    decide

/-- The rest of an expression's line begins with a blank, if there is any. -/
theorem head?_details (e : Expr) : ∀ c ∈ (e.details quote).toList.head?, c = ' ' := by
  cases e <;> simp [details]

/-- The outline of a legible expression consists of lines. -/
theorem Legible.proper (hquote : IsQuoting quote) (h : e.Legible) :
    (e.outline quote).Proper := by
  induction e using Expr.induct with
  | h e ih =>
    rw [outline_eq]
    refine Outline.proper_node (Note.isLine_label h.note (h.notMem_text hquote)) ?_
    intro o ho
    obtain ⟨part, hpart, rfl⟩ := List.mem_map.mp ho
    have hlegible := h.part part hpart
    cases part with
    | self => exact Outline.proper_node ⟨by decide, by decide⟩ (List.forall_mem_nil _)
    | expr e => exact ih _ hpart e rfl hlegible
    | branch b =>
      obtain ⟨hname, htype, hbody⟩ := hlegible
      have hline : '\n' ∉ ("branch " ++ b.name ++ " : " ++ b.type).toList :=
        notMem_typed (by decide) hname.2.1 htype.2.1 (by decide) (by decide)
      exact Outline.proper_node (Span.isLine_label hline _)
        (List.forall_mem_singleton.mpr (ih _ hpart b.body rfl hbody))

/-- The line number, the form, the details and the type can be told from a line. -/
theorem Legible.line_inj (h : e.Legible) (h' : e'.Legible)
    (hlabel : e.note.label (e.form.word ++ e.details quote) =
      e'.note.label (e'.form.word ++ e'.details quote)) :
    e.note.mapSpan Span.shown = e'.note.mapSpan Span.shown ∧ e.form = e'.form ∧
      e.details quote = e'.details quote := by
  obtain ⟨hline, htext, htype⟩ := Note.label_inj h.note h'.note hlabel
  have hchars := congrArg String.toList htext
  rw [String.toList_append, String.toList_append] at hchars
  obtain ⟨hword, hdetails⟩ := Text.append_inj_of_head e.form.word_spec.1 e'.form.word_spec.1
    e.head?_details e'.head?_details hchars
  refine ⟨?_, Form.word_injective (String.toList_injective hword),
    String.toList_injective hdetails⟩
  rw [Note.mapSpan, Note.mapSpan, Span.shown, Span.shown, hline, htype]

/-- The line of an expression is neither that of a receiver that is not written nor that of a
branch. -/
theorem outline_ne_self (e : Expr) : e.outline quote ≠ Part.self.outline quote := by
  rw [outline_eq]
  exact fun h => Span.label_ne_self _ _ (Outline.node.inj h).1

theorem outline_ne_branch (e : Expr) (b : Branch) :
    e.outline quote ≠ (Part.branch b).outline quote := by
  rw [outline_eq]
  intro h
  obtain ⟨hlabel, -⟩ := Outline.node.inj h
  obtain ⟨-, htext⟩ := Span.label_inj hlabel
  have hchars : e.form.word.toList ++ (e.details quote ++ " : " ++ e.note.typeName).toList =
      "branch".toList ++ (" " ++ b.name ++ " : " ++ b.type).toList := by
    simpa [Note.typeName] using congrArg String.toList htext
  have hhead : ∀ c ∈ (e.details quote ++ " : " ++ e.note.typeName).toList.head?, c = ' ' := by
    intro c hc
    rw [String.append_assoc, String.toList_append, List.head?_append] at hc
    rcases hfirst : (e.details quote).toList.head? with - | d
    · rw [hfirst] at hc
      simpa [eq_comm] using hc
    · rw [hfirst] at hc
      exact e.head?_details c (hfirst.trans hc)
  have hbranch : ∀ c ∈ (" " ++ b.name ++ " : " ++ b.type).toList.head?, c = ' ' := by
    simp
  obtain ⟨hword, -⟩ := Text.append_inj_of_head e.form.word_spec.1 (by decide) hhead hbranch hchars
  exact e.form.word_spec.2.2 (String.toList_injective hword)

theorem shown_branch_eq {b b' : Branch} (hname : IsObjectName b.name)
    (hname' : IsObjectName b'.name)
    (hbody : b.body.outline quote = b'.body.outline quote → b.body.shown = b'.body.shown)
    (heq : (Part.branch b).outline quote = (Part.branch b').outline quote) :
    b.mapSpans Span.shown = b'.mapSpans Span.shown := by
  obtain ⟨hlabel, hbelow⟩ := Outline.node.inj heq
  obtain ⟨hline, htext⟩ := Span.label_inj hlabel
  obtain ⟨hnames, htypes⟩ := typed_inj hname.2.1 hname'.2.1 htext
  have hshown : b.body.mapSpans Span.shown = b'.body.mapSpans Span.shown :=
    hbody (List.cons.inj hbelow).1
  rw [Branch.mapSpans, Branch.mapSpans, hnames, htypes, hshown, Span.shown, Span.shown, hline]

/-- Parts can be told from their outlines, if the expressions in them can. -/
theorem shown_part_eq {part part' : Part} (h : part.Legible) (h' : part'.Legible)
    (ih : ∀ e ∈ part.expr?, ∀ {e' : Expr}, e.Legible → e'.Legible →
      e.outline quote = e'.outline quote → e.shown = e'.shown)
    (heq : part.outline quote = part'.outline quote) : part.shown = part'.shown := by
  cases part with
  | self =>
    cases part' with
    | self => rfl
    | expr e' => exact absurd heq.symm e'.outline_ne_self
    | branch b' => exact absurd (Outline.node.inj heq).1.symm (Span.label_ne_self _ _)
  | expr e =>
    cases part' with
    | self => exact absurd heq e.outline_ne_self
    | expr e' => exact congrArg Part.expr (ih e rfl h h' heq)
    | branch b' => exact absurd heq (e.outline_ne_branch b')
  | branch b =>
    cases part' with
    | self => exact absurd (Outline.node.inj heq).1 (Span.label_ne_self _ _)
    | expr e' => exact absurd heq.symm (e'.outline_ne_branch b)
    | branch b' =>
      exact congrArg Part.branch
        (shown_branch_eq h.1 h'.1 (fun hbody => ih b.body rfl h.2.2 h'.2.2 hbody) heq)

/-- A legible expression can be told from its outline. -/
theorem Legible.outline_inj (hquote : IsQuoting quote) (h : e.Legible) (h' : e'.Legible)
    (houtline : e.outline quote = e'.outline quote) : e.shown = e'.shown := by
  induction e using Expr.induct generalizing e' with
  | h e ih =>
    rw [outline_eq, outline_eq, Outline.node.injEq] at houtline
    obtain ⟨hnote, hform, hdetails⟩ := h.line_inj h' houtline.1
    -- the parts of both lists correspond, as their outlines are the same
    have hparts : e.parts.map Part.shown = e'.parts.map Part.shown := by
      refine map_eq_map_of (fun part hpart part' hpart' heq => ?_) houtline.2
      exact shown_part_eq (h.part part hpart) (h'.part part' hpart')
        (fun e he _ hlegible => ih part hpart e he hlegible) heq
    apply eq_of_parts hquote.injective (hasNames_mapSpans.mpr h.1.hasNames)
      (hasNames_mapSpans.mpr h'.1.hasNames)
    · rw [note_mapSpans, note_mapSpans, hnote]
    · rw [form_mapSpans, form_mapSpans, hform]
    · rw [details_mapSpans, details_mapSpans, hdetails]
    · rw [parts_mapSpans, parts_mapSpans]
      exact hparts

end Expr

/-! ## Declarations -/

namespace Feature

variable {f f' : Feature}

theorem legible_init {a : Attribute} (h : (Feature.attr a).Legible) : ∀ e ∈ a.init, e.Legible := by
  obtain ⟨⟨-, -, hs⟩, hn⟩ := h
  rintro e he
  rw [notes, Option.mem_def.mp he] at hn
  rw [Option.mem_def.mp he] at hs
  exact ⟨hs, hn⟩

theorem init_inj (hquote : IsQuoting quote) {init init' : Option Expr}
    (h : ∀ e ∈ init, e.Legible) (h' : ∀ e ∈ init', e.Legible)
    (heq : Expr.outlineInit quote init = Expr.outlineInit quote init') :
    init.map Expr.shown = init'.map Expr.shown := by
  cases init with
  | none =>
    cases init' with
    | none => rfl
    | some e' => cases heq
  | some e =>
    cases init' with
    | none => cases heq
    | some e' =>
      exact congrArg some ((h e rfl).outline_inj hquote (h' e' rfl) (List.cons.inj heq).1)

theorem legible_body {m : Method} (h : (Feature.method m).Legible) : m.body.Legible :=
  ⟨h.1.2.2.2, h.2⟩

/-- The text in the line of an attribute is on one line. -/
theorem notMem_attr {a : Attribute} (h : (Feature.attr a).Legible) :
    '\n' ∉ ("attr " ++ a.name ++ " : " ++ a.type).toList := by
  obtain ⟨⟨hname, htype, -⟩, -⟩ := h
  exact notMem_typed (by decide) hname.2.1 htype.2.1 (by decide) (by decide)

/-- The text in the line of a method is on one line. -/
theorem notMem_method {m : Method} (h : (Feature.method m).Legible) :
    '\n' ∉ ("method " ++ m.name ++ "(" ++ ", ".intercalate (m.formals.map Formal.text) ++ ") : " ++
      m.returnType).toList := by
  obtain ⟨⟨hname, hformals, htype, -⟩, -⟩ := h
  have hlist := Formal.notMem_intercalate hformals (a := '\n') (by decide) (by decide) (by decide)
  simp only [String.toList_append, List.mem_append, not_or]
  exact ⟨⟨⟨⟨⟨by decide, notMem_of_all hname.2.1 (by decide)⟩, by decide⟩, hlist⟩, by decide⟩,
    notMem_of_all htype.2.1 (by decide)⟩

/-- The name, the formal parameters and the type of a method can be told from its line. -/
theorem method_line_inj {m m' : Method} (h : (Feature.method m).Legible)
    (h' : (Feature.method m').Legible)
    (htext : "method " ++ m.name ++ "(" ++ ", ".intercalate (m.formals.map Formal.text) ++ ") : " ++
      m.returnType = "method " ++ m'.name ++ "(" ++
      ", ".intercalate (m'.formals.map Formal.text) ++ ") : " ++ m'.returnType) :
    m.name = m'.name ∧ m.formals.map Formal.shown = m'.formals.map Formal.shown ∧
      m.returnType = m'.returnType := by
  obtain ⟨⟨hname, hformals, -, -⟩, -⟩ := h
  obtain ⟨⟨hname', hformals', -, -⟩, -⟩ := h'
  have hchars := congrArg String.toList htext
  simp only [String.append_assoc, String.toList_append] at hchars
  obtain ⟨hnames, hbehind⟩ := Text.append_cons_inj (notMem_of_all hname.2.1 (by decide))
    (notMem_of_all hname'.2.1 (by decide)) (List.append_cancel_left hchars)
  obtain ⟨hlists, htypes⟩ := Text.append_cons_inj
    (Formal.notMem_intercalate hformals (by decide) (by decide) (by decide))
    (Formal.notMem_intercalate hformals' (by decide) (by decide) (by decide)) hbehind
  exact ⟨String.toList_injective hnames,
    Formal.intercalate_inj hformals hformals' (String.toList_injective hlists),
    String.toList_injective (List.append_cancel_left htypes)⟩

/-- The outline of a legible declaration consists of lines. -/
theorem Legible.proper (hquote : IsQuoting quote) (h : f.Legible) :
    (f.outline quote).Proper := by
  cases f with
  | attr a =>
    refine Outline.proper_node (Span.isLine_label (notMem_attr h) _) ?_
    rw [Expr.outlineInit_eq]
    intro o ho
    obtain ⟨e, he, rfl⟩ := List.mem_map.mp ho
    exact (legible_init h e (Option.mem_toList.mp he)).proper hquote
  | method m =>
    exact Outline.proper_node (Span.isLine_label (notMem_method h) _)
      (List.forall_mem_singleton.mpr ((legible_body h).proper hquote))

theorem attr_ne_method (a : Attribute) (m : Method) :
    (Feature.attr a).outline quote ≠ (Feature.method m).outline quote := by
  intro h
  obtain ⟨-, htext⟩ := Span.label_inj (Outline.node.inj h).1
  have hhead := congrArg List.head? (congrArg String.toList htext)
  simp at hhead

/-- A legible declaration can be told from its outline. -/
theorem Legible.outline_inj (hquote : IsQuoting quote) (h : f.Legible) (h' : f'.Legible)
    (houtline : f.outline quote = f'.outline quote) : f.shown = f'.shown := by
  cases f with
  | attr a =>
    cases f' with
    | attr a' =>
      obtain ⟨hlabel, hinit⟩ := Outline.node.inj houtline
      obtain ⟨hline, htext⟩ := Span.label_inj hlabel
      obtain ⟨hname, htype⟩ := typed_inj h.1.1.2.1 h'.1.1.2.1 htext
      have hinits := init_inj hquote (legible_init h) (legible_init h') hinit
      rw [shown, shown, hname, htype, hinits, Span.shown, Span.shown, hline]
    | method m' => exact absurd houtline (attr_ne_method a m')
  | method m =>
    cases f' with
    | attr a' => exact absurd houtline.symm (attr_ne_method a' m)
    | method m' =>
      obtain ⟨hlabel, hbody⟩ := Outline.node.inj houtline
      obtain ⟨hline, htext⟩ := Span.label_inj hlabel
      obtain ⟨hname, hformals, htype⟩ := method_line_inj h h' htext
      have hbodies :=
        (legible_body h).outline_inj hquote (legible_body h') (List.cons.inj hbody).1
      rw [shown, shown, hname, hformals, htype, hbodies, Span.shown, Span.shown, hline]

end Feature

namespace ClassDecl

variable {c c' : ClassDecl}

/-- The text in the line of a class is on one line. -/
theorem Legible.notMem_text (h : c.Legible) : '\n' ∉
    ("class " ++ c.name ++ " inherits " ++ c.parent ++ " (" ++ c.file ++ ")").toList := by
  obtain ⟨hname, hparent, hfile, -⟩ := h
  simp only [String.toList_append, List.mem_append, not_or]
  exact ⟨⟨⟨⟨⟨⟨by decide, notMem_of_all hname.2.1 (by decide)⟩, by decide⟩,
    notMem_of_all hparent.2.1 (by decide)⟩, by decide⟩, hfile⟩, by decide⟩

/-- The name, the parent and the file can be told from the line of a class. The name of the file
may be any, as only a parenthesis stands behind it. -/
theorem Legible.line_inj (h : c.Legible) (h' : c'.Legible)
    (htext : "class " ++ c.name ++ " inherits " ++ c.parent ++ " (" ++ c.file ++ ")" =
      "class " ++ c'.name ++ " inherits " ++ c'.parent ++ " (" ++ c'.file ++ ")") :
    c.name = c'.name ∧ c.parent = c'.parent ∧ c.file = c'.file := by
  have hchars := congrArg String.toList htext
  simp only [String.append_assoc, String.toList_append, List.append_right_inj] at hchars
  obtain ⟨hname, hbehind⟩ := Text.append_cons_inj (notMem_of_all h.1.2.1 (by decide))
    (notMem_of_all h'.1.2.1 (by decide)) hchars
  obtain ⟨hparent, hfile⟩ := Text.append_cons_inj (notMem_of_all h.2.1.2.1 (by decide))
    (notMem_of_all h'.2.1.2.1 (by decide)) (List.append_cancel_left hbehind)
  exact ⟨String.toList_injective hname, String.toList_injective hparent,
    String.toList_injective (List.append_cancel_right (List.append_cancel_left hfile))⟩

theorem Legible.proper (hquote : IsQuoting quote) (h : c.Legible) :
    (c.outline quote).Proper := by
  refine Outline.proper_node (Span.isLine_label h.notMem_text _) ?_
  intro o ho
  obtain ⟨f, hf, rfl⟩ := List.mem_map.mp ho
  exact (h.2.2.2 f hf).proper hquote

/-- A legible class can be told from its outline. -/
theorem Legible.outline_inj (hquote : IsQuoting quote) (h : c.Legible) (h' : c'.Legible)
    (houtline : c.outline quote = c'.outline quote) : c.shown = c'.shown := by
  obtain ⟨hlabel, hbelow⟩ := Outline.node.inj houtline
  obtain ⟨hline, htext⟩ := Span.label_inj hlabel
  obtain ⟨hname, hparent, hfile⟩ := h.line_inj h' htext
  have hfeatures : c.features.map Feature.shown = c'.features.map Feature.shown :=
    map_eq_map_of (fun f hf f' hf' => (h.2.2.2 f hf).outline_inj hquote (h'.2.2.2 f' hf')) hbelow
  rw [shown, shown, hname, hparent, hfile, hfeatures, Span.shown, Span.shown, hline]

end ClassDecl

/-! ## What is not shown -/

theorem Span.line_shown (span : Span) : span.shown.line = span.line := rfl

theorem Expr.outline_shown (e : Expr) : e.shown.outline quote = e.outline quote :=
  outline_mapSpans quote Span.line_shown e

theorem Feature.outline_shown (f : Feature) : f.shown.outline quote = f.outline quote := by
  cases f with
  | attr a =>
    have hinit :
        Expr.outlineInit quote (a.init.map Expr.shown) = Expr.outlineInit quote a.init := by
      cases a.init with
      | none => rfl
      | some e => exact congrArg ([·]) e.outline_shown
    exact congrArg (Outline.node _) hinit
  | method m =>
    have hformals : (m.formals.map Formal.shown).map Formal.text = m.formals.map Formal.text := by
      rw [List.map_map]
      rfl
    show Outline.node (m.span.label (_ ++ ", ".intercalate
      ((m.formals.map Formal.shown).map Formal.text) ++ _ ++ _)) [m.body.shown.outline quote] = _
    rw [hformals, Expr.outline_shown]
    rfl

theorem ClassDecl.outline_shown (c : ClassDecl) : c.shown.outline quote = c.outline quote := by
  have hfeatures : (c.features.map Feature.shown).map (Feature.outline quote) =
      c.features.map (Feature.outline quote) := by
    rw [List.map_map]
    exact List.map_congr_left fun f _ => f.outline_shown
  exact congrArg (Outline.node _) hfeatures

theorem Program.dump_shown (p : Program) : p.shown.dump quote = p.dump quote := by
  have hclasses : (p.classes.map ClassDecl.shown).map (ClassDecl.outline quote) =
      p.classes.map (ClassDecl.outline quote) := by
    rw [List.map_map]
    exact List.map_congr_left fun c _ => c.outline_shown
  exact congrArg (Outline.renderAll 0) hclasses

theorem Program.Legible.proper {p : Program} (hquote : IsQuoting quote) (h : p.Legible) :
    ∀ o ∈ p.classes.map (ClassDecl.outline quote), o.Proper := by
  intro o ho
  obtain ⟨c, hc, rfl⟩ := List.mem_map.mp ho
  exact (h c hc).proper hquote

/-- Legible programs have equal dumps if and only if they differ in nothing that is shown. -/
theorem Program.Legible.dump_eq_iff {p q : Program} (hquote : IsQuoting quote) (hp : p.Legible)
    (hq : q.Legible) : p.dump quote = q.dump quote ↔ p.shown = q.shown := by
  constructor
  · intro h
    have houtlines := Outline.renderAll_inj (hp.proper hquote) (hq.proper hquote) h
    exact congrArg Program.mk
      (map_eq_map_of (fun c hc c' hc' => (hp c hc).outline_inj hquote (hq c' hc')) houtlines)
  · intro h
    rw [← p.dump_shown, ← q.dump_shown, h]

/-! ## How many lines there are -/

namespace Expr

/-- The branches of a `case`. -/
def branches : Expr → List Branch
  | typeCase _ _ branches => branches
  | _ => []

/-- A call without a receiver. -/
def isSelfDispatch : Expr → Bool
  | selfDispatch .. => true
  | _ => false

end Expr

/-- The lines of a part beside those of the expression in it. -/
def Part.ownLines : Part → Nat
  | .self | .branch _ => 1
  | .expr _ => 0

theorem Expr.sum_ownLines (e : Expr) : (e.parts.map Part.ownLines).sum =
    e.branches.length + if e.isSelfDispatch then 1 else 0 := by
  cases e <;> simp [parts, branches, isSelfDispatch, Part.ownLines, Function.comp_def]

/-- The lines that an expression adds to those of the expressions inside of it. -/
def Expr.ownLines (e : Expr) : Nat :=
  1 + (e.branches.length + if e.isSelfDispatch then 1 else 0)

/-- The lines of a part are its own and those of the expressions in it. -/
theorem Part.length_rows {part : Part} {depth : Nat}
    (ih : ∀ e ∈ part.expr?, ∀ depth, ((e.outline quote).rows depth).length =
      (e.subexprs.map Expr.ownLines).sum) : ((part.outline quote).rows depth).length =
    part.ownLines + (part.subexprs.map Expr.ownLines).sum := by
  cases part with
  | self => rfl
  | expr e =>
    rw [outline, ih e rfl, ownLines, Nat.zero_add, subexprs, expr?, Option.toList_some,
      List.flatMap_singleton]
  | branch b =>
    rw [outline, Outline.rows, Outline.rowsAll_eq, List.flatMap_singleton, List.length_cons,
      ih b.body rfl, ownLines, Nat.add_comm, subexprs, expr?, Option.toList_some,
      List.flatMap_singleton]

theorem sum_map_flatMap {α β : Type} (g : α → List β) (f : β → Nat) (xs : List α) :
    ((xs.flatMap g).map f).sum = (xs.map fun x => ((g x).map f).sum).sum := by
  rw [List.map_flatMap, List.flatMap_def, List.sum_flatten, List.map_map]
  rfl

/-- The outline of an expression has the lines of all expressions within it. -/
theorem Expr.length_rows (e : Expr) (depth : Nat) :
    ((e.outline quote).rows depth).length = (e.subexprs.map ownLines).sum := by
  induction e using Expr.induct generalizing depth with
  | h e ih =>
    have hparts : (e.parts.map fun part => ((part.outline quote).rows (depth + 1)).length) =
        e.parts.map fun part => part.ownLines + (part.subexprs.map ownLines).sum :=
      List.map_congr_left fun part hpart => Part.length_rows (ih part hpart)
    calc ((e.outline quote).rows depth).length
        = (e.parts.map fun part => ((part.outline quote).rows (depth + 1)).length).sum + 1 := by
          rw [outline_eq, Outline.rows, Outline.rowsAll_eq, List.length_cons, List.length_flatMap,
            List.map_map]
          rfl
      _ = (e.parts.map Part.ownLines).sum +
            (e.parts.map fun part => (part.subexprs.map ownLines).sum).sum + 1 := by
          rw [hparts, List.sum_map_add]
      _ = e.ownLines + (e.inside.map ownLines).sum := by
          rw [sum_ownLines, inside_eq, sum_map_flatMap, ownLines]
          omega
      _ = (e.subexprs.map ownLines).sum := rfl

theorem Expr.sum_map_ownLines (es : List Expr) : (es.map ownLines).sum =
    es.length + (es.flatMap branches).length + es.countP isSelfDispatch := by
  induction es with
  | nil => rfl
  | cons e es ih =>
    rw [List.map_cons, List.sum_cons, ih, List.length_cons, List.flatMap_cons, List.length_append,
      List.countP_cons, ownLines]
    omega

/-- The expressions in a declaration. -/
def Feature.exprs : Feature → List Expr
  | .attr a => a.init.toList.flatMap Expr.subexprs
  | .method m => m.body.subexprs

/-- All expressions in a program. -/
def Program.exprs (p : Program) : List Expr :=
  p.features.flatMap Feature.exprs

theorem Feature.length_rows (f : Feature) (depth : Nat) :
    ((f.outline quote).rows depth).length = 1 + (f.exprs.map Expr.ownLines).sum := by
  cases f with
  | attr a =>
    rw [outline, Outline.rows, Outline.rowsAll_eq, Expr.outlineInit_eq, exprs]
    cases a.init with
    | none => rfl
    | some e =>
      simp only [Option.toList_some, List.map_singleton, List.flatMap_singleton, List.length_cons]
      rw [Expr.length_rows, Nat.add_comm]
  | method m =>
    rw [outline, Outline.rows, Outline.rowsAll_eq, List.flatMap_singleton, List.length_cons,
      Expr.length_rows, Nat.add_comm]
    rfl

theorem ClassDecl.length_rows (c : ClassDecl) (depth : Nat) :
    ((c.outline quote).rows depth).length =
      1 + (c.features.length + ((c.features.flatMap Feature.exprs).map Expr.ownLines).sum) := by
  have hfeatures : (c.features.map fun f => ((f.outline quote).rows (depth + 1)).length) =
      c.features.map fun f => 1 + (f.exprs.map Expr.ownLines).sum :=
    List.map_congr_left fun f _ => f.length_rows (depth + 1)
  rw [outline, Outline.rows, Outline.rowsAll_eq, List.length_cons, List.length_flatMap,
    List.map_map]
  show (c.features.map fun f => ((f.outline quote).rows (depth + 1)).length).sum + 1 = _
  rw [hfeatures, List.sum_map_add, sum_map_flatMap, Nat.add_comm]
  simp

/-- A dump has a line for each class, feature, expression, branch and receiver that is not
written. -/
theorem Program.length_rows (p : Program) :
    (Outline.rowsAll 0 (p.classes.map (ClassDecl.outline quote))).length =
      p.classes.length + p.features.length + p.exprs.length +
        (p.exprs.flatMap Expr.branches).length + p.exprs.countP Expr.isSelfDispatch := by
  have hclasses : (p.classes.map fun c => ((c.outline quote).rows 0).length) =
      p.classes.map fun c =>
        1 + (c.features.length + ((c.features.flatMap Feature.exprs).map Expr.ownLines).sum) :=
    List.map_congr_left fun c _ => c.length_rows 0
  rw [Outline.rowsAll_eq, List.length_flatMap, List.map_map]
  show (p.classes.map fun c => ((c.outline quote).rows 0).length).sum = _
  rw [hclasses, List.sum_map_add, List.sum_map_add]
  have hones : (p.classes.map fun _ => 1).sum = p.classes.length := by simp
  have hfeatures : (p.classes.map fun c => c.features.length).sum = p.features.length := by
    rw [features, List.length_flatMap]
  have hexprs : (p.classes.map fun c =>
      ((c.features.flatMap Feature.exprs).map Expr.ownLines).sum).sum =
      (p.exprs.map Expr.ownLines).sum := by
    rw [exprs, features, List.flatMap_assoc, sum_map_flatMap]
  rw [hones, hfeatures, hexprs, Expr.sum_map_ownLines]
  omega

end Cool
