import Cool.Proofs.Tree.Moved
import Cool.Proofs.Tree.Outline

/-!
# What an expression is made of

Right below an expression there are other expressions, the branches of a `case` and, in a call
without a receiver, the place of the receiver. With the words of its own line and its note they
determine the expression, so that what holds of its outline follows from what holds of theirs.

* `Part`, `Expr.parts` : what is right below an expression;
* `Expr.induct` : induction over the parts;
* `Expr.form`, `Expr.details`, `Expr.outline_eq` : the words of the line, and the outline;
* `Expr.outline_mapSpans` : an outline shows of a span nothing but the line;
* `Expr.eq_of_parts` : they determine the expression;
* `Expr.subexprs`, `Expr.inside_eq` : all expressions within an expression.
-/

namespace Cool

variable (quote : String → String)

/-! ## Parts -/

/-- What can stand right below an expression. -/
inductive Part where
  /-- The receiver of a call that has none written. -/
  | self
  | expr (e : Expr)
  | branch (b : Branch)

namespace Part

/-- The expression in a part. -/
def expr? : Part → Option Expr
  | self => none
  | expr e => some e
  | branch b => some b.body

def outline : Part → Outline
  | self => .node "(self)" []
  | expr e => e.outline quote
  | branch b => .node (b.span.label ("branch " ++ b.name ++ " : " ++ b.type)) [b.body.outline quote]

def mapSpans (f : Span → Span) : Part → Part
  | self => self
  | expr e => expr (e.mapSpans f)
  | branch b => branch (b.mapSpans f)

end Part

namespace Expr

/-- The parts of an expression in the order of its outline. -/
def parts : Expr → List Part
  | int .. | string .. | bool .. | object .. | new .. => []
  | assign _ _ operand | unary _ _ operand | isVoid _ operand => [.expr operand]
  | selfDispatch _ _ args => .self :: args.map .expr
  | dispatch _ receiver _ args | staticDispatch _ receiver _ _ args =>
    .expr receiver :: args.map .expr
  | cond _ predicate thenBranch elseBranch =>
    [.expr predicate, .expr thenBranch, .expr elseBranch]
  | loop _ left right | binary _ _ left right => [.expr left, .expr right]
  | block _ body => body.map .expr
  | letIn _ _ _ init body => init.toList.map .expr ++ [.expr body]
  | typeCase _ scrutinee branches => .expr scrutinee :: branches.map .branch

end Expr

section Induction

variable {P : Expr → Prop}

mutual

/-- What holds of an expression whenever it holds of all expressions in its parts holds of every
expression. -/
theorem Expr.induct (h : ∀ e : Expr, (∀ part ∈ e.parts, ∀ e' ∈ part.expr?, P e') → P e) :
    ∀ e : Expr, P e
  | .int .. | .string .. | .bool .. | .object .. | .new .. =>
    h _ (List.forall_mem_nil _)
  | .assign _ _ operand | .unary _ _ operand | .isVoid _ operand => by
    apply h
    simpa [Expr.parts, Part.expr?] using Expr.induct h operand
  | .selfDispatch _ _ args => by
    apply h
    simpa [Expr.parts, Part.expr?] using Expr.inductAll h args
  | .dispatch _ receiver _ args | .staticDispatch _ receiver _ _ args => by
    apply h
    simpa [Expr.parts, Part.expr?] using And.intro (Expr.induct h receiver) (Expr.inductAll h args)
  | .cond _ predicate thenBranch elseBranch => by
    apply h
    simpa [Expr.parts, Part.expr?] using And.intro (Expr.induct h predicate)
      (And.intro (Expr.induct h thenBranch) (Expr.induct h elseBranch))
  | .loop _ left right | .binary _ _ left right => by
    apply h
    simpa [Expr.parts, Part.expr?] using And.intro (Expr.induct h left) (Expr.induct h right)
  | .block _ body => by
    apply h
    simpa [Expr.parts, Part.expr?] using Expr.inductAll h body
  | .letIn _ _ _ none body => by
    apply h
    simpa [Expr.parts, Part.expr?] using Expr.induct h body
  | .letIn _ _ _ (some init) body => by
    apply h
    simpa [Expr.parts, Part.expr?] using And.intro (Expr.induct h init) (Expr.induct h body)
  | .typeCase _ scrutinee branches => by
    apply h
    simpa [Expr.parts, Part.expr?] using
      And.intro (Expr.induct h scrutinee) (Branch.inductAll h branches)

theorem Expr.inductAll
    (h : ∀ e : Expr, (∀ part ∈ e.parts, ∀ e' ∈ part.expr?, P e') → P e) :
    ∀ es : List Expr, ∀ e ∈ es, P e
  | [] => List.forall_mem_nil _
  | e :: es => List.forall_mem_cons.mpr ⟨Expr.induct h e, Expr.inductAll h es⟩

theorem Branch.inductAll
    (h : ∀ e : Expr, (∀ part ∈ e.parts, ∀ e' ∈ part.expr?, P e') → P e) :
    ∀ bs : List Branch, ∀ b ∈ bs, P b.body
  | [] => List.forall_mem_nil _
  | ⟨_, _, body, _⟩ :: bs => List.forall_mem_cons.mpr ⟨Expr.induct h body, Branch.inductAll h bs⟩

end

end Induction

/-! ## Lines -/

/-- The forms of expressions that have different words at the start of their lines. -/
inductive Form where
  | int
  | string
  | bool
  | object
  | assign
  | dispatch
  | staticDispatch
  | new
  | cond
  | loop
  | block
  | letIn
  | typeCase
  | binary (op : BinaryOp)
  | unary (op : UnaryOp)
  | isVoid
  deriving DecidableEq

namespace Form

def word : Form → String
  | int => "int"
  | string => "string"
  | bool => "bool"
  | object => "object"
  | assign => "assign"
  | dispatch => "dispatch"
  | staticDispatch => "static_dispatch"
  | new => "new"
  | cond => "if"
  | loop => "while"
  | block => "block"
  | letIn => "let"
  | typeCase => "case"
  | binary op => op.symbol
  | unary op => op.symbol
  | isVoid => "isvoid"

def all : List Form :=
  [int, string, bool, object, assign, dispatch, staticDispatch, new, cond, loop, block, letIn,
    typeCase, binary .add, binary .sub, binary .mul, binary .div, binary .lt, binary .le,
    binary .eq, unary .negate, unary .not, isVoid]

theorem mem_all (f : Form) : f ∈ all := by
  cases f with
  | binary op => cases op <;> decide
  | unary op => cases op <;> decide
  | _ => decide

/-- The words of different forms are different. -/
theorem word_injective : Function.Injective word := by
  have h : ∀ f ∈ all, ∀ g ∈ all, f.word = g.word → f = g := by decide
  exact fun f g => h f f.mem_all g g.mem_all

/-- A word has no blank and no line end in it, and it is not that of a branch. -/
theorem word_spec (f : Form) :
    ' ' ∉ f.word.toList ∧ '\n' ∉ f.word.toList ∧ f.word ≠ "branch" := by
  have h : ∀ f ∈ all, ' ' ∉ f.word.toList ∧ '\n' ∉ f.word.toList ∧ f.word ≠ "branch" := by decide
  exact h f f.mem_all

end Form

namespace Expr

def form : Expr → Form
  | int .. => .int
  | string .. => .string
  | bool .. => .bool
  | object .. => .object
  | assign .. => .assign
  | selfDispatch .. | dispatch .. => .dispatch
  | staticDispatch .. => .staticDispatch
  | new .. => .new
  | cond .. => .cond
  | loop .. => .loop
  | block .. => .block
  | letIn .. => .letIn
  | typeCase .. => .typeCase
  | binary _ op _ _ => .binary op
  | unary _ op _ => .unary op
  | isVoid .. => .isVoid

/-- What the line of an expression says behind its first word, but for the type. -/
def details : Expr → String
  | int _ value => " " ++ toString value
  | string _ value => " " ++ quote value
  | bool _ value => " " ++ if value then "true" else "false"
  | object _ name | assign _ name _ | new _ name => " " ++ name
  | selfDispatch _ method _ | dispatch _ _ method _ => " " ++ method
  | staticDispatch _ _ type method _ => " " ++ type ++ "." ++ method
  | letIn _ name type _ _ => " " ++ name ++ " : " ++ type
  | cond .. | loop .. | block .. | typeCase .. | binary .. | unary .. | isVoid .. => ""

theorem outlines_eq : ∀ es : List Expr, outlines quote es = es.map (outline quote)
  | [] => rfl
  | e :: es => congrArg (e.outline quote :: ·) (outlines_eq es)

theorem outlines_branches : ∀ bs : List Branch,
    Branch.outlines quote bs = bs.map fun b => (Part.branch b).outline quote
  | [] => rfl
  | ⟨_, _, _, _⟩ :: bs => congrArg (_ :: ·) (outlines_branches bs)

theorem outlineInit_eq (init : Option Expr) :
    outlineInit quote init = init.toList.map (outline quote) := by
  cases init <;> rfl

/-- The outline of an expression is its line with the outlines of its parts below. -/
theorem outline_eq (e : Expr) :
    e.outline quote =
      .node (e.note.label (e.form.word ++ e.details quote)) (e.parts.map (Part.outline quote)) := by
  cases e <;> simp [outline, note, form, Form.word, details, parts, Part.outline, outlines_eq,
    outlines_branches, outlineInit_eq, Function.comp_def, ← String.append_assoc]

/-! ## Other spans -/

section

variable (f : Span → Span)

theorem note_mapSpans (e : Expr) : (e.mapSpans f).note = e.note.mapSpan f := by
  cases e <;> rfl

theorem form_mapSpans (e : Expr) : (e.mapSpans f).form = e.form := by
  cases e <;> rfl

theorem details_mapSpans (e : Expr) : (e.mapSpans f).details quote = e.details quote := by
  cases e <;> rfl

theorem mapSpansInit_eq (init : Option Expr) : mapSpansInit f init = init.map (mapSpans f) := by
  cases init <;> rfl

theorem parts_mapSpans (e : Expr) : (e.mapSpans f).parts = e.parts.map (Part.mapSpans f) := by
  cases e <;> simp [parts, Part.mapSpans, mapSpansAll_eq, Branch.mapSpansAll_eq, mapSpansInit_eq,
    Function.comp_def, Option.toList_map]

end

variable {f : Span → Span}

theorem label_mapSpan (hf : ∀ span, (f span).line = span.line) (note : Note) (text : String) :
    (note.mapSpan f).label text = note.label text := by
  simp only [Note.label, Span.label, Note.mapSpan, hf]

/-- An outline shows of a span nothing but the line. -/
theorem outline_mapSpans (hf : ∀ span, (f span).line = span.line) (e : Expr) :
    (e.mapSpans f).outline quote = e.outline quote := by
  induction e using Expr.induct with
  | h e ih =>
    rw [outline_eq, outline_eq, note_mapSpans, form_mapSpans, details_mapSpans, parts_mapSpans,
      label_mapSpan hf, List.map_map]
    congr 1
    refine List.map_congr_left fun part hpart => ?_
    have hpart' := ih part hpart
    cases part with
    | self => rfl
    | expr e => exact hpart' e rfl
    | branch b =>
      show Outline.node ((f b.span).label _) [(b.body.mapSpans f).outline quote] = _
      rw [hpart' b.body rfl, Span.label, hf]
      rfl

end Expr

/-! ## What determines an expression -/

variable {quote}

theorem notMem_of_all {name : String} {a : Char} (h : name.toList.all isWordChar = true)
    (ha : isWordChar a = false) : a ∉ name.toList := by
  intro hmem
  rw [List.all_eq_true.mp h a hmem] at ha
  cases ha

/-- A name can be told from what stands behind it, and a type behind a colon too. -/
theorem typed_inj {word name name' type type' : String} (h : name.toList.all isWordChar = true)
    (h' : name'.toList.all isWordChar = true)
    (htext : word ++ name ++ " : " ++ type = word ++ name' ++ " : " ++ type') :
    name = name' ∧ type = type' := by
  have hchars := congrArg String.toList htext
  simp only [String.append_assoc, String.toList_append, List.append_right_inj] at hchars
  obtain ⟨hname, htype⟩ := Text.append_cons_inj (notMem_of_all h (by decide))
    (notMem_of_all h' (by decide)) hchars
  exact ⟨String.toList_injective hname, String.toList_injective (List.append_cancel_left htype)⟩

/-- A class can be told from the method behind the point. -/
theorem qualified_inj {word type type' method method' : String}
    (h : type.toList.all isWordChar = true) (h' : type'.toList.all isWordChar = true)
    (htext : word ++ type ++ "." ++ method = word ++ type' ++ "." ++ method') :
    type = type' ∧ method = method' := by
  have hchars := congrArg String.toList htext
  simp only [String.append_assoc, String.toList_append, List.append_right_inj] at hchars
  obtain ⟨htype, hmethod⟩ := Text.append_cons_inj (notMem_of_all h (by decide))
    (notMem_of_all h' (by decide)) hchars
  exact ⟨String.toList_injective htype, String.toList_injective hmethod⟩

theorem Part.map_expr_inj {es es' : List Expr} :
    es.map Part.expr = es'.map Part.expr ↔ es = es' :=
  (List.map_injective_iff.mpr fun _ _ => Part.expr.inj).eq_iff

theorem Part.map_branch_inj {bs bs' : List Branch} :
    bs.map Part.branch = bs'.map Part.branch ↔ bs = bs' :=
  (List.map_injective_iff.mpr fun _ _ => Part.branch.inj).eq_iff

namespace Expr

/-- The names in the line of an expression end where something else follows. -/
def HasNames : Expr → Prop
  | staticDispatch _ _ type _ _ => type.toList.all isWordChar = true
  | letIn _ name _ _ _ => name.toList.all isWordChar = true
  | _ => True

theorem hasNames_mapSpans {f : Span → Span} {e : Expr} :
    (e.mapSpans f).HasNames ↔ e.HasNames := by
  cases e <;> rfl

theorem Spelled.hasNames {e : Expr} (h : e.Spelled) : e.HasNames := by
  cases e with
  | staticDispatch => exact h.2.1.2.1
  | letIn => exact h.1.2.1
  | _ => trivial

/-- An expression is determined by its note, the words of its line and its parts, if constants can
be told from their quotings. -/
theorem eq_of_parts (hquote : Function.Injective quote) {e e' : Expr} (h : e.HasNames)
    (h' : e'.HasNames) (hnote : e.note = e'.note) (hform : e.form = e'.form)
    (hdetails : e.details quote = e'.details quote) (hparts : e.parts = e'.parts) : e = e' := by
  -- the form leaves one constructor, but for the calls, which differ in their first part
  cases e with
  | int note value =>
    cases e' with
    | int =>
      rw [details, details, String.append_right_inj] at hdetails
      exact congrArg₂ int hnote (Nat.repr_injective hdetails)
    | _ => cases hform
  | string =>
    cases e' with
    | string =>
      rw [details, details, String.append_right_inj] at hdetails
      exact congrArg₂ string hnote (hquote hdetails)
    | _ => cases hform
  | bool _ value =>
    cases e' with
    | bool _ value' =>
      rw [details, details, String.append_right_inj] at hdetails
      have hvalue : value = value' := by
        cases value <;> cases value' <;> first | rfl | exact absurd hdetails (by decide)
      exact congrArg₂ bool hnote hvalue
    | _ => cases hform
  | object =>
    cases e' with
    | object =>
      rw [details, details, String.append_right_inj] at hdetails
      exact congrArg₂ object hnote hdetails
    | _ => cases hform
  | assign =>
    cases e' with
    | assign =>
      rw [details, details, String.append_right_inj] at hdetails
      cases hnote
      cases hdetails
      cases hparts
      rfl
    | _ => cases hform
  | selfDispatch =>
    cases e' with
    | selfDispatch =>
      rw [details, details, String.append_right_inj] at hdetails
      rw [parts, parts, List.cons.injEq, Part.map_expr_inj] at hparts
      cases hnote
      cases hdetails
      rw [hparts.2]
    | dispatch => cases (List.cons.inj hparts).1
    | _ => cases hform
  | dispatch =>
    cases e' with
    | dispatch =>
      rw [details, details, String.append_right_inj] at hdetails
      rw [parts, parts, List.cons.injEq, Part.map_expr_inj, Part.expr.injEq] at hparts
      cases hnote
      cases hdetails
      rw [hparts.1, hparts.2]
    | selfDispatch => cases (List.cons.inj hparts).1
    | _ => cases hform
  | staticDispatch =>
    cases e' with
    | staticDispatch =>
      rw [parts, parts, List.cons.injEq, Part.map_expr_inj, Part.expr.injEq] at hparts
      obtain ⟨rfl, rfl⟩ := qualified_inj h h' hdetails
      cases hnote
      rw [hparts.1, hparts.2]
    | _ => cases hform
  | new =>
    cases e' with
    | new =>
      rw [details, details, String.append_right_inj] at hdetails
      exact congrArg₂ new hnote hdetails
    | _ => cases hform
  | cond =>
    cases e' with
    | cond =>
      cases hnote
      cases hparts
      rfl
    | _ => cases hform
  | loop =>
    cases e' with
    | loop =>
      cases hnote
      cases hparts
      rfl
    | _ => cases hform
  | block =>
    cases e' with
    | block => exact congrArg₂ block hnote (Part.map_expr_inj.mp hparts)
    | _ => cases hform
  | letIn _ _ _ init =>
    cases e' with
    | letIn _ _ _ init' =>
      obtain ⟨hinit, hbody⟩ := List.append_inj' hparts rfl
      have hhead := congrArg List.head? (Part.map_expr_inj.mp hinit)
      rw [Option.head?_toList, Option.head?_toList] at hhead
      obtain ⟨rfl, rfl⟩ := typed_inj h h' hdetails
      cases hnote
      cases hbody
      rw [hhead]
    | _ => cases hform
  | typeCase =>
    cases e' with
    | typeCase =>
      rw [parts, parts, List.cons.injEq, Part.map_branch_inj, Part.expr.injEq] at hparts
      cases hnote
      rw [hparts.1, hparts.2]
    | _ => cases hform
  | binary =>
    cases e' with
    | binary =>
      cases hform
      cases hnote
      cases hparts
      rfl
    | _ => cases hform
  | unary =>
    cases e' with
    | unary =>
      cases hform
      cases hnote
      cases hparts
      rfl
    | _ => cases hform
  | isVoid =>
    cases e' with
    | isVoid =>
      cases hnote
      cases hparts
      rfl
    | _ => cases hform

end Expr

/-! ## All expressions within one -/

mutual

/-- The expressions inside of an expression, each before those inside of it. -/
def Expr.inside : Expr → List Expr
  | .int .. | .string .. | .bool .. | .object .. | .new .. => []
  | .assign _ _ operand | .unary _ _ operand | .isVoid _ operand => operand :: operand.inside
  | .selfDispatch _ _ args => Expr.insideAll args
  | .dispatch _ receiver _ args | .staticDispatch _ receiver _ _ args =>
    receiver :: (receiver.inside ++ Expr.insideAll args)
  | .cond _ predicate thenBranch elseBranch =>
    predicate :: (predicate.inside ++
      thenBranch :: (thenBranch.inside ++ elseBranch :: elseBranch.inside))
  | .loop _ left right | .binary _ _ left right =>
    left :: (left.inside ++ right :: right.inside)
  | .block _ body => Expr.insideAll body
  | .letIn _ _ _ init body => Expr.insideInit init ++ body :: body.inside
  | .typeCase _ scrutinee branches => scrutinee :: (scrutinee.inside ++ Branch.insideAll branches)

def Expr.insideAll : List Expr → List Expr
  | [] => []
  | e :: es => e :: (e.inside ++ Expr.insideAll es)

def Expr.insideInit : Option Expr → List Expr
  | none => []
  | some e => e :: e.inside

def Branch.insideAll : List Branch → List Expr
  | [] => []
  | ⟨_, _, body, _⟩ :: bs => body :: (body.inside ++ Branch.insideAll bs)

end

/-- An expression and all inside of it. -/
def Expr.subexprs (e : Expr) : List Expr :=
  e :: e.inside

/-- The expressions in a part. -/
def Part.subexprs (part : Part) : List Expr :=
  part.expr?.toList.flatMap Expr.subexprs

namespace Expr

theorem insideAll_eq : ∀ es : List Expr, insideAll es = es.flatMap subexprs
  | [] => rfl
  | e :: es => congrArg (fun more => e :: (e.inside ++ more)) (insideAll_eq es)

theorem insideInit_eq (init : Option Expr) : insideInit init = init.toList.flatMap subexprs := by
  cases init with
  | none => rfl
  | some e => exact (List.append_nil e.subexprs).symm

theorem insideAll_branches : ∀ bs : List Branch,
    Branch.insideAll bs = bs.flatMap fun b => b.body.subexprs
  | [] => rfl
  | ⟨_, _, body, _⟩ :: bs =>
    congrArg (fun more => body :: (body.inside ++ more)) (insideAll_branches bs)

/-- What is inside of an expression is in its parts. -/
theorem inside_eq (e : Expr) : e.inside = e.parts.flatMap Part.subexprs := by
  have hsubexprs : subexprs = fun e => e :: e.inside := rfl
  cases e <;> simp [inside, parts, Part.subexprs, Part.expr?, insideAll_eq, insideInit_eq,
    insideAll_branches, List.flatMap_map, hsubexprs]

end Expr

end Cool
