import Cool.Proofs.Tree.Printed
import Mathlib.Data.List.Forall2

/-!
# Trees and their tokens

Which tokens a tree may be written in, parentheses aside. A `let` in the body of a `let` may give
its bindings behind a comma, and a class that inherits from `Object` need not say so; all else can
be written in one way only.

* `Kind.bare` : tokens without their parentheses;
* `Expr.Written`, `Program.Written` : a tree may be written in these tokens;
* `Expr.spelled_of_written`, `Program.spelled_of_written` : names and constants are those of the
  tokens.
-/

namespace Cool

namespace Kind

/-- The tokens without the parentheses. -/
def bare (ks : List Kind) : List Kind :=
  ks.filter fun k => k ≠ .symbol .parenOpen ∧ k ≠ .symbol .parenClose

variable {ks ks' : List Kind}

@[simp]
theorem bare_nil : bare [] = [] :=
  rfl

@[simp]
theorem bare_append : bare (ks ++ ks') = bare ks ++ bare ks' :=
  List.filter_append ks ks'

@[simp]
theorem bare_keyword (word : Keyword) : bare (.keyword word :: ks) = .keyword word :: bare ks :=
  List.filter_cons_of_pos (by simp)

@[simp]
theorem bare_typeId (name : String) : bare (.typeId name :: ks) = .typeId name :: bare ks :=
  List.filter_cons_of_pos (by simp)

@[simp]
theorem bare_objectId (name : String) : bare (.objectId name :: ks) = .objectId name :: bare ks :=
  List.filter_cons_of_pos (by simp)

@[simp]
theorem bare_symbol (sign : Symbol) : bare (.symbol sign :: ks) =
    if sign = .parenOpen ∨ sign = .parenClose then bare ks else .symbol sign :: bare ks := by
  cases sign <;> rfl

@[simp]
theorem bare_commaList : ∀ items, bare (commaList items) = commas (items.map bare)
  | [] => rfl
  | first :: more => by
    simp [commaList, commas, parenthesized, bare, List.filter_flatMap, List.flatMap_map]

@[simp]
theorem bare_semicolonList (items : List (List Kind)) :
    bare (semicolonList items) = semicolonList (items.map bare) := by
  simp [semicolonList, bare, List.filter_flatMap, List.flatMap_map]

variable {k : Kind} {items : List (List Kind)}

theorem mem_of_mem_bare (h : k ∈ bare ks) : k ∈ ks :=
  List.mem_of_mem_filter h

theorem mem_commas : ∀ {items : List (List Kind)}, ks ∈ items → k ∈ ks → k ∈ commas items
  | first :: more, hks, hk => by
    rcases List.mem_cons.mp hks with rfl | hks
    · exact List.mem_append_left _ hk
    · exact List.mem_append_right _ (List.mem_flatMap.mpr ⟨ks, hks, List.mem_cons_of_mem _ hk⟩)

theorem mem_semicolonList (hks : ks ∈ items) (hk : k ∈ ks) : k ∈ semicolonList items :=
  List.mem_flatMap.mpr ⟨ks, hks, List.mem_append_left _ hk⟩

end Kind

mutual

/-- An expression may be written in these tokens, once their parentheses are left out. -/
inductive Expr.Written : List Kind → Expr → Prop
  | int {note : Note} {value : Nat} : Expr.Written [.int value] (.int note value)
  | string {note : Note} {value : String} : Expr.Written [.string value] (.string note value)
  | bool {note : Note} {value : Bool} : Expr.Written [.bool value] (.bool note value)
  | object {note : Note} {name : String} : Expr.Written [.objectId name] (.object note name)
  | assign {note : Note} {name : String} {value : Expr} {ks : List Kind}
    (hvalue : Expr.Written ks value) :
    Expr.Written (.objectId name :: .symbol .assign :: ks) (.assign note name value)
  | selfDispatch {note : Note} {method : String} {args : List Expr} {kss : List (List Kind)}
    (hargs : List.Forall₂ Expr.Written kss args) :
    Expr.Written (.objectId method :: Kind.commas kss) (.selfDispatch note method args)
  | dispatch {note : Note} {receiver : Expr} {method : String} {args : List Expr}
    {ks : List Kind} {kss : List (List Kind)} (hreceiver : Expr.Written ks receiver)
    (hargs : List.Forall₂ Expr.Written kss args) :
    Expr.Written (ks ++ .symbol .dot :: .objectId method :: Kind.commas kss)
      (.dispatch note receiver method args)
  | staticDispatch {note : Note} {receiver : Expr} {type method : String} {args : List Expr}
    {ks : List Kind} {kss : List (List Kind)} (hreceiver : Expr.Written ks receiver)
    (hargs : List.Forall₂ Expr.Written kss args) :
    Expr.Written (ks ++ .symbol .atSign :: .typeId type :: .symbol .dot :: .objectId method ::
      Kind.commas kss) (.staticDispatch note receiver type method args)
  | new {note : Note} {type : String} :
    Expr.Written [.keyword .newKw, .typeId type] (.new note type)
  | cond {note : Note} {predicate thenBranch elseBranch : Expr} {ks ks' ks'' : List Kind}
    (hpredicate : Expr.Written ks predicate) (hthen : Expr.Written ks' thenBranch)
    (helse : Expr.Written ks'' elseBranch) :
    Expr.Written (.keyword .ifKw :: (ks ++ .keyword .thenKw :: (ks' ++ .keyword .elseKw ::
      (ks'' ++ [.keyword .fiKw])))) (.cond note predicate thenBranch elseBranch)
  | loop {note : Note} {predicate body : Expr} {ks ks' : List Kind}
    (hpredicate : Expr.Written ks predicate) (hbody : Expr.Written ks' body) :
    Expr.Written (.keyword .whileKw :: (ks ++ .keyword .loopKw :: (ks' ++ [.keyword .poolKw])))
      (.loop note predicate body)
  | block {note : Note} {body : List Expr} {kss : List (List Kind)}
    (hbody : List.Forall₂ Expr.Written kss body) :
    Expr.Written (.symbol .braceOpen :: (Kind.semicolonList kss ++ [.symbol .braceClose]))
      (.block note body)
  | letIn {e : Expr} {ks : List Kind} (h : Expr.Binds ks e) : Expr.Written (.keyword .letKw :: ks) e
  | typeCase {note : Note} {scrutinee : Expr} {branches : List Branch} {ks : List Kind}
    {kss : List (List Kind)} (hscrutinee : Expr.Written ks scrutinee)
    (hbranches : List.Forall₂ Branch.Written kss branches) :
    Expr.Written (.keyword .caseKw :: (ks ++ .keyword .ofKw :: (Kind.semicolonList kss ++
      [.keyword .esacKw]))) (.typeCase note scrutinee branches)
  | binary {note : Note} {op : BinaryOp} {left right : Expr} {ks ks' : List Kind}
    (hleft : Expr.Written ks left) (hright : Expr.Written ks' right) :
    Expr.Written (ks ++ .symbol op.sign :: ks') (.binary note op left right)
  | negate {note : Note} {operand : Expr} {ks : List Kind} (hoperand : Expr.Written ks operand) :
    Expr.Written (.symbol .tilde :: ks) (.unary note .negate operand)
  | not {note : Note} {operand : Expr} {ks : List Kind} (hoperand : Expr.Written ks operand) :
    Expr.Written (.keyword .notKw :: ks) (.unary note .not operand)
  | isVoid {note : Note} {operand : Expr} {ks : List Kind} (hoperand : Expr.Written ks operand) :
    Expr.Written (.keyword .isvoidKw :: ks) (.isVoid note operand)

/-- The tokens of a `let` behind its first word. -/
inductive Expr.Binds : List Kind → Expr → Prop
  | inBody {note : Note} {name type : String} {init : Option Expr} {body : Expr}
    {ks ks' : List Kind} (hinit : Expr.InitWritten ks init) (hbody : Expr.Written ks' body) :
    Expr.Binds (.objectId name :: .symbol .colon :: .typeId type :: (ks ++ .keyword .inKw :: ks'))
      (.letIn note name type init body)
  | inList {note : Note} {name type : String} {init : Option Expr} {body : Expr}
    {ks ks' : List Kind} (hinit : Expr.InitWritten ks init) (hbody : Expr.Binds ks' body) :
    Expr.Binds (.objectId name :: .symbol .colon :: .typeId type :: (ks ++ .symbol .comma :: ks'))
      (.letIn note name type init body)

/-- The tokens of an initial value, if there is one. -/
inductive Expr.InitWritten : List Kind → Option Expr → Prop
  | none : Expr.InitWritten [] none
  | some {e : Expr} {ks : List Kind} (h : Expr.Written ks e) :
    Expr.InitWritten (.symbol .assign :: ks) (some e)

inductive Branch.Written : List Kind → Branch → Prop
  | intro {name type : String} {body : Expr} {span : Span} {ks : List Kind}
    (hbody : Expr.Written ks body) :
    Branch.Written (.objectId name :: .symbol .colon :: .typeId type :: .symbol .arrow :: ks)
      ⟨name, type, body, span⟩

end

inductive Feature.Written : List Kind → Feature → Prop
  | attr {a : Attribute} {ks : List Kind} (hinit : Expr.InitWritten ks a.init) :
    Feature.Written (.objectId a.name :: .symbol .colon :: .typeId a.type :: ks) (.attr a)
  | method {m : Method} {ks : List Kind} (hbody : m.body.Written ks) :
    Feature.Written (.objectId m.name :: (Kind.commas (m.formals.map Formal.kinds) ++
      .symbol .colon :: .typeId m.returnType :: .symbol .braceOpen ::
        (ks ++ [.symbol .braceClose]))) (.method m)

inductive ClassDecl.Written : List Kind → ClassDecl → Prop
  | inherits {c : ClassDecl} {kss : List (List Kind)}
    (h : List.Forall₂ Feature.Written kss c.features) :
    ClassDecl.Written (.keyword .classKw :: .typeId c.name :: .keyword .inheritsKw ::
      .typeId c.parent :: .symbol .braceOpen :: (Kind.semicolonList kss ++ [.symbol .braceClose])) c
  | object {c : ClassDecl} {kss : List (List Kind)} (hparent : c.parent = Names.object)
    (h : List.Forall₂ Feature.Written kss c.features) :
    ClassDecl.Written (.keyword .classKw :: .typeId c.name :: .symbol .braceOpen ::
      (Kind.semicolonList kss ++ [.symbol .braceClose])) c

/-- A program may be written in these tokens, once their parentheses are left out. -/
inductive Program.Written : List Kind → Program → Prop
  | intro {p : Program} {kss : List (List Kind)}
    (h : List.Forall₂ ClassDecl.Written kss p.classes) :
    Program.Written (Kind.semicolonList kss) p

/-! ## Names and constants -/

mutual

/-- The names and constants of a tree are those of the tokens that it is written in. -/
theorem Expr.spelled_of_written : ∀ {e : Expr} {ks : List Kind}, e.Written ks →
    (∀ k ∈ ks, k.Spelled) → e.Spelled
  | .int .., _, .int, hks | .string .., _, .string, hks | .bool .., _, .bool, hks
  | .object .., _, .object, hks => hks _ List.mem_cons_self
  | .assign .., _, .assign hvalue, hks => by
    simp only [List.forall_mem_cons] at hks
    exact ⟨hks.1, Expr.spelled_of_written hvalue hks.2.2⟩
  | .selfDispatch .., _, .selfDispatch hargs, hks => by
    simp only [List.forall_mem_cons] at hks
    exact ⟨hks.1, Expr.spelledAll_of_written hargs fun _ h k hk => hks.2 k (Kind.mem_commas h hk)⟩
  | .dispatch .., _, .dispatch hreceiver hargs, hks => by
    simp only [List.forall_mem_append, List.forall_mem_cons] at hks
    obtain ⟨hr, -, hmethod, hcommas⟩ := hks
    exact ⟨Expr.spelled_of_written hreceiver hr, hmethod,
      Expr.spelledAll_of_written hargs fun _ h k hk => hcommas k (Kind.mem_commas h hk)⟩
  | .staticDispatch .., _, .staticDispatch hreceiver hargs, hks => by
    simp only [List.forall_mem_append, List.forall_mem_cons] at hks
    obtain ⟨hr, -, htype, -, hmethod, hcommas⟩ := hks
    exact ⟨Expr.spelled_of_written hreceiver hr, htype, hmethod,
      Expr.spelledAll_of_written hargs fun _ h k hk => hcommas k (Kind.mem_commas h hk)⟩
  | .new .., _, .new, hks => hks _ (List.mem_cons_of_mem _ List.mem_cons_self)
  | .cond .., _, .cond hpredicate hthen helse, hks => by
    simp only [List.forall_mem_append, List.forall_mem_cons] at hks
    obtain ⟨-, hp, -, ht, -, he, -⟩ := hks
    exact ⟨Expr.spelled_of_written hpredicate hp, Expr.spelled_of_written hthen ht,
      Expr.spelled_of_written helse he⟩
  | .loop .., _, .loop hpredicate hbody, hks => by
    simp only [List.forall_mem_append, List.forall_mem_cons] at hks
    obtain ⟨-, hp, -, hb, -⟩ := hks
    exact ⟨Expr.spelled_of_written hpredicate hp, Expr.spelled_of_written hbody hb⟩
  | .block .., _, .block hbody, hks => by
    simp only [List.forall_mem_append, List.forall_mem_cons] at hks
    exact Expr.spelledAll_of_written hbody fun _ h k hk =>
      hks.2.1 k (Kind.mem_semicolonList h hk)
  | .letIn .., _, .letIn (.inBody hinit hbody), hks => by
    simp only [List.forall_mem_append, List.forall_mem_cons] at hks
    obtain ⟨-, hname, -, htype, hi, -, hb⟩ := hks
    exact ⟨hname, htype, Expr.spelledInit_of_written hinit hi, Expr.spelled_of_written hbody hb⟩
  | .letIn .., _, .letIn (.inList hinit hbody), hks => by
    simp only [List.forall_mem_append, List.forall_mem_cons] at hks
    obtain ⟨hlet, hname, -, htype, hi, -, hb⟩ := hks
    exact ⟨hname, htype, Expr.spelledInit_of_written hinit hi,
      Expr.spelled_of_written (.letIn hbody) (List.forall_mem_cons.mpr ⟨hlet, hb⟩)⟩
  | .typeCase .., _, .typeCase hscrutinee hbranches, hks => by
    simp only [List.forall_mem_append, List.forall_mem_cons] at hks
    obtain ⟨-, hs, -, hb, -⟩ := hks
    exact ⟨Expr.spelled_of_written hscrutinee hs,
      Branch.spelledAll_of_written hbranches fun _ h k hk => hb k (Kind.mem_semicolonList h hk)⟩
  | .binary .., _, .binary hleft hright, hks => by
    simp only [List.forall_mem_append, List.forall_mem_cons] at hks
    exact ⟨Expr.spelled_of_written hleft hks.1, Expr.spelled_of_written hright hks.2.2⟩
  | .unary .., _, .negate hoperand, hks | .unary .., _, .not hoperand, hks => by
    have hspelled := Expr.spelled_of_written hoperand (List.forall_mem_cons.mp hks).2
    exact hspelled
  | .isVoid .., _, .isVoid hoperand, hks => by
    have hspelled := Expr.spelled_of_written hoperand (List.forall_mem_cons.mp hks).2
    exact hspelled

theorem Expr.spelledAll_of_written : ∀ {es : List Expr} {kss : List (List Kind)},
    List.Forall₂ Expr.Written kss es → (∀ ks ∈ kss, ∀ k ∈ ks, k.Spelled) → Expr.SpelledAll es
  | [], _, _, _ => trivial
  | _ :: _, _, .cons he hes, h => by
    obtain ⟨hks, hkss⟩ := List.forall_mem_cons.mp h
    exact ⟨Expr.spelled_of_written he hks, Expr.spelledAll_of_written hes hkss⟩

theorem Expr.spelledInit_of_written : ∀ {init : Option Expr} {ks : List Kind},
    Expr.InitWritten ks init → (∀ k ∈ ks, k.Spelled) → Expr.SpelledInit init
  | none, _, _, _ => trivial
  | some _, _, .some he, hks => Expr.spelled_of_written he (List.forall_mem_cons.mp hks).2

theorem Branch.spelledAll_of_written : ∀ {bs : List Branch} {kss : List (List Kind)},
    List.Forall₂ Branch.Written kss bs → (∀ ks ∈ kss, ∀ k ∈ ks, k.Spelled) → Branch.SpelledAll bs
  | [], _, _, _ => trivial
  | ⟨_, _, _, _⟩ :: _, _, .cons (.intro hbody) hbs, h => by
    obtain ⟨hks, hkss⟩ := List.forall_mem_cons.mp h
    simp only [List.forall_mem_cons] at hks
    obtain ⟨hname, -, htype, -, hb⟩ := hks
    exact ⟨hname, htype, Expr.spelled_of_written hbody hb, Branch.spelledAll_of_written hbs hkss⟩

end

theorem Feature.spelled_of_written : ∀ {f : Feature} {ks : List Kind}, f.Written ks →
    (∀ k ∈ ks, k.Spelled) → f.Spelled
  | .attr a, _, .attr hinit, hks => by
    simp only [List.forall_mem_cons] at hks
    obtain ⟨hname, -, htype, hi⟩ := hks
    exact ⟨hname, htype, Expr.spelledInit_of_written hinit hi⟩
  | .method m, _, .method hbody, hks => by
    simp only [List.forall_mem_append, List.forall_mem_cons] at hks
    obtain ⟨hname, hformals, -, htype, -, hb, -⟩ := hks
    refine ⟨hname, fun f hf => ?_, htype, Expr.spelled_of_written hbody hb⟩
    have hkinds : ∀ k ∈ f.kinds, k.Spelled :=
      fun k hk => hformals k (Kind.mem_commas (List.mem_map_of_mem hf) hk)
    simp only [Formal.kinds, List.forall_mem_cons] at hkinds
    exact ⟨hkinds.1, hkinds.2.2.1⟩

/-- A property is handed from one list to another. -/
theorem forall_of_forall₂ {α β : Type} {R : α → β → Prop} {P : α → Prop} {Q : β → Prop}
    {xs : List α} {ys : List β} (h : List.Forall₂ R xs ys) (hR : ∀ x y, R x y → P x → Q y) :
    (∀ x ∈ xs, P x) → ∀ y ∈ ys, Q y := by
  induction h with
  | nil => exact fun _ => List.forall_mem_nil _
  | cons hxy _ ih =>
    intro hP
    obtain ⟨hx, hxs⟩ := List.forall_mem_cons.mp hP
    exact List.forall_mem_cons.mpr ⟨hR _ _ hxy hx, ih hxs⟩

theorem isTypeName_object : IsTypeName Names.object := by
  decide

theorem ClassDecl.spelled_of_written {c : ClassDecl} {ks : List Kind} (h : c.Written ks)
    (hks : ∀ k ∈ ks, k.Spelled) : c.Spelled := by
  cases h with
  | inherits h =>
    simp only [List.forall_mem_append, List.forall_mem_cons] at hks
    obtain ⟨-, hname, -, hparent, -, hfeatures, -⟩ := hks
    refine ⟨hname, hparent, forall_of_forall₂ h (fun _ _ => Feature.spelled_of_written) ?_⟩
    exact fun _ h k hk => hfeatures k (Kind.mem_semicolonList h hk)
  | object hparent h =>
    simp only [List.forall_mem_append, List.forall_mem_cons] at hks
    obtain ⟨-, hname, -, hfeatures, -⟩ := hks
    refine ⟨hname, hparent ▸ isTypeName_object,
      forall_of_forall₂ h (fun _ _ => Feature.spelled_of_written) ?_⟩
    exact fun _ h k hk => hfeatures k (Kind.mem_semicolonList h hk)

theorem Program.spelled_of_written {p : Program} {ks : List Kind} (h : p.Written ks)
    (hks : ∀ k ∈ ks, k.Spelled) : ∀ c ∈ p.classes, c.Spelled := by
  cases h with
  | intro h =>
    refine forall_of_forall₂ h (fun _ _ => ClassDecl.spelled_of_written) ?_
    exact fun _ h k hk => hks k (Kind.mem_semicolonList h hk)

end Cool
