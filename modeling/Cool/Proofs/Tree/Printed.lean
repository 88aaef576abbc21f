import Cool.Proofs.Tree.Notes
import Cool.Token.Lexeme

/-!
# Trees in print

The tokens of a tree. An expression is put in parentheses only where it would otherwise be read as
something else, which is a matter of levels: each place asks for expressions of at least a level.

* `Expr.unplaced`, `Program.unplaced` : the tree without the places that it was read from;
* `Expr.level` : how tightly an expression holds together;
* `Expr.level_lt_leftLevel_iff`, `Expr.level_lt_five_iff`, ... : the expressions in parentheses;
* `Expr.kinds`, `Program.kinds` : the tokens of a tree;
* `IsTypeName`, `IsObjectName`, `IsStringValue` : names and values that can be written;
* `Kind.Spelled`, `Expr.Spelled`, `ClassDecl.Spelled` : tokens and trees that can be written;
* `Expr.spelled_kinds`, `Program.spelled_kinds` : such a tree is made of such tokens.
-/

namespace Cool

/-! ## Places -/

/-- A note without its span. -/
def Note.unplaced (note : Note) : Note :=
  ⟨default, note.type?⟩

mutual

/-- The expression without its spans. -/
@[simp]
def Expr.unplaced : Expr → Expr
  | .int note value => .int note.unplaced value
  | .string note value => .string note.unplaced value
  | .bool note value => .bool note.unplaced value
  | .object note name => .object note.unplaced name
  | .assign note name value => .assign note.unplaced name value.unplaced
  | .selfDispatch note method args => .selfDispatch note.unplaced method (Expr.unplacedAll args)
  | .dispatch note receiver method args =>
    .dispatch note.unplaced receiver.unplaced method (Expr.unplacedAll args)
  | .staticDispatch note receiver type method args =>
    .staticDispatch note.unplaced receiver.unplaced type method (Expr.unplacedAll args)
  | .new note type => .new note.unplaced type
  | .cond note predicate thenBranch elseBranch =>
    .cond note.unplaced predicate.unplaced thenBranch.unplaced elseBranch.unplaced
  | .loop note predicate body => .loop note.unplaced predicate.unplaced body.unplaced
  | .block note body => .block note.unplaced (Expr.unplacedAll body)
  | .letIn note name type init body =>
    .letIn note.unplaced name type (Expr.unplacedInit init) body.unplaced
  | .typeCase note scrutinee branches =>
    .typeCase note.unplaced scrutinee.unplaced (Branch.unplacedAll branches)
  | .binary note op left right => .binary note.unplaced op left.unplaced right.unplaced
  | .unary note op operand => .unary note.unplaced op operand.unplaced
  | .isVoid note operand => .isVoid note.unplaced operand.unplaced

def Expr.unplacedAll : List Expr → List Expr
  | [] => []
  | e :: es => e.unplaced :: Expr.unplacedAll es

def Expr.unplacedInit : Option Expr → Option Expr
  | none => none
  | some e => some e.unplaced

def Branch.unplacedAll : List Branch → List Branch
  | [] => []
  | ⟨name, type, body, _⟩ :: branches =>
    ⟨name, type, body.unplaced, default⟩ :: Branch.unplacedAll branches

end

def Branch.unplaced (b : Branch) : Branch :=
  ⟨b.name, b.type, b.body.unplaced, default⟩

def Formal.unplaced (f : Formal) : Formal :=
  { f with span := default }

def Feature.unplaced : Feature → Feature
  | .attr a => .attr { a with init := Expr.unplacedInit a.init, span := default }
  | .method m =>
    .method { m with
      formals := m.formals.map Formal.unplaced, body := m.body.unplaced, span := default }

def ClassDecl.unplaced (c : ClassDecl) : ClassDecl :=
  { c with features := c.features.map Feature.unplaced, span := default }

/-- The program without its spans. -/
def Program.unplaced (p : Program) : Program :=
  ⟨p.classes.map ClassDecl.unplaced⟩

theorem Expr.unplacedAll_eq : ∀ es, Expr.unplacedAll es = es.map Expr.unplaced
  | [] => rfl
  | e :: es => congrArg (e.unplaced :: ·) (Expr.unplacedAll_eq es)

theorem Branch.unplacedAll_eq : ∀ bs, Branch.unplacedAll bs = bs.map Branch.unplaced
  | [] => rfl
  | ⟨_, _, _, _⟩ :: bs => by
    rw [Branch.unplacedAll, Branch.unplacedAll_eq bs]
    rfl

/-! ## Levels -/

/-- How tightly an expression holds together: not at all if it reaches as far to the right as it
can, as its operator does if it has one, or else most tightly. -/
def Expr.level : Expr → Nat
  | .assign .. | .letIn .. | .unary _ .not _ => 0
  | .binary _ op _ _ => op.level
  | .unary _ .negate _ | .isVoid .. => 4
  | _ => 5

/-- The least level of the left operand. Operators of one level group to the left, but comparisons
do not group. -/
def BinaryOp.leftLevel (op : BinaryOp) : Nat :=
  if op.isComparison then op.level + 1 else op.level

/-- The least level of the right operand. -/
def BinaryOp.rightLevel (op : BinaryOp) : Nat :=
  op.level + 1

/-! Which expressions are put in parentheses: left and right of an operator, behind `~` and
`isvoid`, and as the receiver of a call. -/

/-- An expression that reaches as far to the right as it can. -/
def Expr.IsOpen : Expr → Prop
  | .assign .. | .letIn .. | .unary _ .not _ => True
  | _ => False

/-- The operator of a binary operation. -/
def Expr.operator? : Expr → Option BinaryOp
  | .binary _ op _ _ => some op
  | _ => none

theorem Expr.level_lt_leftLevel_iff {e : Expr} {op : BinaryOp} : e.level < op.leftLevel ↔
    e.IsOpen ∨ ∃ op' ∈ e.operator?,
      op'.level < op.level ∨ op'.isComparison = true ∧ op.isComparison = true := by
  cases e with
  | binary _ op' _ _ => cases op <;> cases op' <;> simp [level, IsOpen, operator?] <;> decide
  | unary _ op' _ => cases op <;> cases op' <;> simp [level, IsOpen, operator?] <;> decide
  | _ => cases op <;> simp [level, IsOpen, operator?] <;> decide

theorem Expr.level_lt_rightLevel_iff {e : Expr} {op : BinaryOp} : e.level < op.rightLevel ↔
    e.IsOpen ∨ ∃ op' ∈ e.operator?, op'.level ≤ op.level := by
  cases e with
  | binary _ op' _ _ =>
    rw [level, BinaryOp.rightLevel, Nat.lt_add_one_iff]
    simp [IsOpen, operator?]
  | unary _ op' _ => cases op <;> cases op' <;> simp [level, IsOpen, operator?] <;> decide
  | _ => cases op <;> simp [level, IsOpen, operator?] <;> decide

theorem Expr.level_lt_four_iff {e : Expr} : e.level < 4 ↔ e.IsOpen ∨ e.operator?.isSome = true := by
  cases e with
  | binary _ op _ _ => cases op <;> simp [level, IsOpen, operator?] <;> decide
  | unary _ op _ => cases op <;> simp [level, IsOpen, operator?]
  | _ => simp [level, IsOpen, operator?]

theorem Expr.level_lt_five_iff {e : Expr} : e.level < 5 ↔
    e.level < 4 ∨ (∃ note operand, e = .unary note .negate operand) ∨
      ∃ note operand, e = .isVoid note operand := by
  cases e with
  | binary _ op _ _ => cases op <;> simp [level] <;> decide
  | unary _ op _ => cases op <;> simp [level]
  | _ => simp [level]

def BinaryOp.sign : BinaryOp → Symbol
  | .add => .plus
  | .sub => .minus
  | .mul => .star
  | .div => .slash
  | .lt => .lt
  | .le => .le
  | .eq => .eq

/-! ## Tokens -/

namespace Kind

def parenthesized (ks : List Kind) : List Kind :=
  .symbol .parenOpen :: (ks ++ [.symbol .parenClose])

/-- The tokens of an expression in a place that asks for a level. -/
def guarded (least level : Nat) (ks : List Kind) : List Kind :=
  if level < least then parenthesized ks else ks

/-- Items with commas between them. -/
def commas : List (List Kind) → List Kind
  | [] => []
  | first :: more => first ++ more.flatMap fun ks => .symbol .comma :: ks

/-- Items with commas between them, in parentheses. -/
def commaList (items : List (List Kind)) : List Kind :=
  parenthesized (commas items)

/-- Items with a semicolon behind each. -/
def semicolonList (items : List (List Kind)) : List Kind :=
  items.flatMap fun ks => ks ++ [.symbol .semicolon]

end Kind

mutual

/-- The tokens of an expression. -/
def Expr.kinds : Expr → List Kind
  | .int _ value => [.int value]
  | .string _ value => [.string value]
  | .bool _ value => [.bool value]
  | .object _ name => [.objectId name]
  | .assign _ name value => .objectId name :: .symbol .assign :: value.kinds
  | .selfDispatch _ method args => .objectId method :: Kind.commaList (Expr.kindsAll args)
  | .dispatch _ receiver method args =>
    Kind.guarded 5 receiver.level receiver.kinds ++
      .symbol .dot :: .objectId method :: Kind.commaList (Expr.kindsAll args)
  | .staticDispatch _ receiver type method args =>
    Kind.guarded 5 receiver.level receiver.kinds ++
      .symbol .atSign :: .typeId type :: .symbol .dot :: .objectId method ::
        Kind.commaList (Expr.kindsAll args)
  | .new _ type => [.keyword .newKw, .typeId type]
  | .cond _ predicate thenBranch elseBranch =>
    .keyword .ifKw :: (predicate.kinds ++ .keyword .thenKw :: (thenBranch.kinds ++
      .keyword .elseKw :: (elseBranch.kinds ++ [.keyword .fiKw])))
  | .loop _ predicate body =>
    .keyword .whileKw :: (predicate.kinds ++ .keyword .loopKw :: (body.kinds ++
      [.keyword .poolKw]))
  | .block _ body =>
    .symbol .braceOpen :: (Kind.semicolonList (Expr.kindsAll body) ++ [.symbol .braceClose])
  | .letIn _ name type init body =>
    .keyword .letKw :: .objectId name :: .symbol .colon :: .typeId type ::
      (Expr.kindsInit init ++ .keyword .inKw :: body.kinds)
  | .typeCase _ scrutinee branches =>
    .keyword .caseKw :: (scrutinee.kinds ++ .keyword .ofKw ::
      (Kind.semicolonList (Branch.kindsAll branches) ++ [.keyword .esacKw]))
  | .binary _ op left right =>
    Kind.guarded op.leftLevel left.level left.kinds ++
      .symbol op.sign :: Kind.guarded op.rightLevel right.level right.kinds
  | .unary _ .not operand => .keyword .notKw :: operand.kinds
  | .unary _ .negate operand => .symbol .tilde :: Kind.guarded 4 operand.level operand.kinds
  | .isVoid _ operand => .keyword .isvoidKw :: Kind.guarded 4 operand.level operand.kinds

/-- The tokens of each expression. -/
def Expr.kindsAll : List Expr → List (List Kind)
  | [] => []
  | e :: es => e.kinds :: Expr.kindsAll es

/-- The tokens of an initial value, if there is one. -/
def Expr.kindsInit : Option Expr → List Kind
  | none => []
  | some e => .symbol .assign :: e.kinds

/-- The tokens of each branch. -/
def Branch.kindsAll : List Branch → List (List Kind)
  | [] => []
  | ⟨name, type, body, _⟩ :: branches =>
    (.objectId name :: .symbol .colon :: .typeId type :: .symbol .arrow :: body.kinds) ::
      Branch.kindsAll branches

end

/-- The tokens of a branch. -/
def Branch.kinds (b : Branch) : List Kind :=
  .objectId b.name :: .symbol .colon :: .typeId b.type :: .symbol .arrow :: b.body.kinds

def Formal.kinds (f : Formal) : List Kind :=
  [.objectId f.name, .symbol .colon, .typeId f.type]

def Feature.kinds : Feature → List Kind
  | .attr a => .objectId a.name :: .symbol .colon :: .typeId a.type :: Expr.kindsInit a.init
  | .method m =>
    .objectId m.name :: (Kind.commaList (m.formals.map Formal.kinds) ++ .symbol .colon ::
      .typeId m.returnType :: .symbol .braceOpen :: (m.body.kinds ++ [.symbol .braceClose]))

def ClassDecl.kinds (c : ClassDecl) : List Kind :=
  .keyword .classKw :: .typeId c.name :: .keyword .inheritsKw :: .typeId c.parent ::
    .symbol .braceOpen ::
      (Kind.semicolonList (c.features.map Feature.kinds) ++ [.symbol .braceClose])

/-- The tokens of a program. -/
def Program.kinds (p : Program) : List Kind :=
  Kind.semicolonList (p.classes.map ClassDecl.kinds)

theorem Expr.kindsAll_eq : ∀ es, Expr.kindsAll es = es.map Expr.kinds
  | [] => rfl
  | e :: es => congrArg (e.kinds :: ·) (Expr.kindsAll_eq es)

theorem Branch.kindsAll_eq : ∀ bs, Branch.kindsAll bs = bs.map Branch.kinds
  | [] => rfl
  | ⟨_, _, _, _⟩ :: bs => by
    rw [Branch.kindsAll, Branch.kindsAll_eq bs]
    rfl

namespace Kind

theorem length_flatMap {f : List Kind → List Kind} (hf : ∀ ks, (f ks).length = ks.length + 1) :
    ∀ items : List (List Kind), items.length ≤ (items.flatMap f).length ∧
      ∀ ks ∈ items, ks.length + items.length ≤ (items.flatMap f).length
  | [] => ⟨Nat.le_refl 0, List.forall_mem_nil _⟩
  | first :: more => by
    obtain ⟨hmore, hall⟩ := length_flatMap hf more
    rw [List.flatMap_cons, List.length_append, List.length_cons, hf, List.forall_mem_cons]
    refine ⟨by omega, by omega, fun ks hks => ?_⟩
    have := hall ks hks
    omega

/-- A list is longer than its number of items, and also with the length of one of them added. -/
theorem length_commaList : ∀ items : List (List Kind), items.length < (commaList items).length ∧
    ∀ ks ∈ items, ks.length + items.length < (commaList items).length
  | [] => ⟨Nat.two_pos, List.forall_mem_nil _⟩
  | first :: more => by
    obtain ⟨hmore, hall⟩ := length_flatMap (f := fun ks => .symbol .comma :: ks) (fun _ => rfl) more
    rw [commaList, commas, parenthesized]
    simp only [List.length_cons, List.length_append, List.length_nil, List.forall_mem_cons]
    refine ⟨by omega, by omega, fun ks hks => ?_⟩
    have := hall ks hks
    omega

theorem length_semicolonList (items : List (List Kind)) :
    items.length ≤ (semicolonList items).length ∧
      ∀ ks ∈ items, ks.length + items.length ≤ (semicolonList items).length :=
  length_flatMap (fun _ => List.length_append) items

end Kind

/-! ## What can be written -/

/-- A word that no keyword has for its spelling, in whatever letter case. -/
def IsFreeWord (word : String) : Prop :=
  ∀ k ∈ Keyword.all, word.toList.map Char.toLower ≠ k.spelling.toList

/-- A name of a class or a type: an identifier with a capital letter in front, and no keyword. -/
def IsTypeName (name : String) : Prop :=
  name.toList.head?.any Char.isUpper = true ∧ name.toList.all isWordChar = true ∧
    IsFreeWord name

/-- Any other name: an identifier with a small letter in front, and no keyword or truth value. -/
def IsObjectName (name : String) : Prop :=
  name.toList.head?.any Char.isLower = true ∧ name.toList.all isWordChar = true ∧
    IsFreeWord name ∧ ∀ b ∈ ["true", "false"], name.toList.map Char.toLower ≠ b.toList

/-- The value of a string constant. -/
def IsStringValue (value : String) : Prop :=
  '\x00' ∉ value.toList ∧ Text.bytes value.toList ≤ maxStringBytes

instance (word : String) : Decidable (IsFreeWord word) :=
  inferInstanceAs (Decidable (∀ k ∈ Keyword.all, _))

instance (name : String) : Decidable (IsTypeName name) :=
  inferInstanceAs (Decidable (_ ∧ _ ∧ _))

instance (name : String) : Decidable (IsObjectName name) :=
  inferInstanceAs (Decidable (_ ∧ _ ∧ _ ∧ _))

instance (value : String) : Decidable (IsStringValue value) :=
  inferInstanceAs (Decidable (_ ∧ _))

/-- The value that a token carries can be written. The end of a text cannot. -/
def Kind.Spelled : Kind → Prop
  | .int value => value ≤ maxInteger
  | .string value => IsStringValue value
  | .typeId name => IsTypeName name
  | .objectId name => IsObjectName name
  | .keyword _ | .symbol _ | .bool _ => True
  | .endOfFile => False

mutual

/-- All names and constants can be written. -/
def Expr.Spelled : Expr → Prop
  | .int _ value => value ≤ maxInteger
  | .string _ value => IsStringValue value
  | .bool _ _ => True
  | .object _ name => IsObjectName name
  | .assign _ name value => IsObjectName name ∧ value.Spelled
  | .selfDispatch _ method args => IsObjectName method ∧ Expr.SpelledAll args
  | .dispatch _ receiver method args =>
    receiver.Spelled ∧ IsObjectName method ∧ Expr.SpelledAll args
  | .staticDispatch _ receiver type method args =>
    receiver.Spelled ∧ IsTypeName type ∧ IsObjectName method ∧ Expr.SpelledAll args
  | .new _ type => IsTypeName type
  | .cond _ predicate thenBranch elseBranch =>
    predicate.Spelled ∧ thenBranch.Spelled ∧ elseBranch.Spelled
  | .loop _ predicate body => predicate.Spelled ∧ body.Spelled
  | .block _ body => Expr.SpelledAll body
  | .letIn _ name type init body =>
    IsObjectName name ∧ IsTypeName type ∧ Expr.SpelledInit init ∧ body.Spelled
  | .typeCase _ scrutinee branches => scrutinee.Spelled ∧ Branch.SpelledAll branches
  | .binary _ _ left right => left.Spelled ∧ right.Spelled
  | .unary _ _ operand | .isVoid _ operand => operand.Spelled

def Expr.SpelledAll : List Expr → Prop
  | [] => True
  | e :: es => e.Spelled ∧ Expr.SpelledAll es

def Expr.SpelledInit : Option Expr → Prop
  | none => True
  | some e => e.Spelled

def Branch.SpelledAll : List Branch → Prop
  | [] => True
  | ⟨name, type, body, _⟩ :: branches =>
    IsObjectName name ∧ IsTypeName type ∧ body.Spelled ∧ Branch.SpelledAll branches

end

def Formal.Spelled (f : Formal) : Prop :=
  IsObjectName f.name ∧ IsTypeName f.type

def Feature.Spelled : Feature → Prop
  | .attr a => IsObjectName a.name ∧ IsTypeName a.type ∧ Expr.SpelledInit a.init
  | .method m =>
    IsObjectName m.name ∧ (∀ f ∈ m.formals, f.Spelled) ∧ IsTypeName m.returnType ∧ m.body.Spelled

/-- All names and constants of a class can be written. -/
def ClassDecl.Spelled (c : ClassDecl) : Prop :=
  IsTypeName c.name ∧ IsTypeName c.parent ∧ ∀ f ∈ c.features, f.Spelled

/-! ## The tokens of a tree that can be written -/

namespace Kind

variable {ks : List Kind} {items : List (List Kind)}

theorem spelled_parenthesized (h : ∀ k ∈ ks, k.Spelled) : ∀ k ∈ parenthesized ks, k.Spelled :=
  List.forall_mem_cons.mpr ⟨trivial, List.forall_mem_append.mpr
    ⟨h, List.forall_mem_singleton.mpr trivial⟩⟩

theorem spelled_guarded {least level : Nat} (h : ∀ k ∈ ks, k.Spelled) :
    ∀ k ∈ guarded least level ks, k.Spelled := by
  unfold guarded
  split
  · exact spelled_parenthesized h
  · exact h

theorem spelled_commaList (h : ∀ ks ∈ items, ∀ k ∈ ks, k.Spelled) :
    ∀ k ∈ commaList items, k.Spelled := by
  refine spelled_parenthesized ?_
  cases items with
  | nil => exact List.forall_mem_nil _
  | cons first more =>
    obtain ⟨hfirst, hmore⟩ := List.forall_mem_cons.mp h
    refine List.forall_mem_append.mpr ⟨hfirst, fun k hk => ?_⟩
    obtain ⟨ks, hks, hk⟩ := List.mem_flatMap.mp hk
    exact List.forall_mem_cons.mpr ⟨trivial, hmore ks hks⟩ k hk

theorem spelled_semicolonList (h : ∀ ks ∈ items, ∀ k ∈ ks, k.Spelled) :
    ∀ k ∈ semicolonList items, k.Spelled := by
  intro k hk
  obtain ⟨ks, hks, hk⟩ := List.mem_flatMap.mp hk
  have hitem : ∀ k ∈ ks ++ [.symbol .semicolon], k.Spelled :=
    List.forall_mem_append.mpr ⟨h ks hks, List.forall_mem_singleton.mpr trivial⟩
  exact hitem k hk

end Kind

mutual

theorem Expr.spelled_kinds : ∀ e : Expr, e.Spelled → ∀ k ∈ e.kinds, k.Spelled
  | .int .., h | .string .., h | .bool .., h | .object .., h =>
    List.forall_mem_singleton.mpr h
  | .assign _ _ value, h => by
    simp only [Expr.kinds, List.forall_mem_cons]
    exact ⟨h.1, trivial, value.spelled_kinds h.2⟩
  | .selfDispatch _ _ args, h => by
    simp only [Expr.kinds, List.forall_mem_cons]
    exact ⟨h.1, Kind.spelled_commaList (Expr.spelled_kindsAll args h.2)⟩
  | .dispatch _ receiver _ args, h => by
    simp only [Expr.kinds, List.forall_mem_append, List.forall_mem_cons]
    exact ⟨Kind.spelled_guarded (receiver.spelled_kinds h.1), trivial, h.2.1,
      Kind.spelled_commaList (Expr.spelled_kindsAll args h.2.2)⟩
  | .staticDispatch _ receiver _ _ args, h => by
    simp only [Expr.kinds, List.forall_mem_append, List.forall_mem_cons]
    exact ⟨Kind.spelled_guarded (receiver.spelled_kinds h.1), trivial, h.2.1, trivial, h.2.2.1,
      Kind.spelled_commaList (Expr.spelled_kindsAll args h.2.2.2)⟩
  | .new .., h => List.forall_mem_cons.mpr ⟨trivial, List.forall_mem_singleton.mpr h⟩
  | .cond _ predicate thenBranch elseBranch, h => by
    simp only [Expr.kinds, List.forall_mem_append, List.forall_mem_cons]
    exact ⟨trivial, predicate.spelled_kinds h.1, trivial, thenBranch.spelled_kinds h.2.1, trivial,
      elseBranch.spelled_kinds h.2.2, trivial, List.forall_mem_nil _⟩
  | .loop _ predicate body, h => by
    simp only [Expr.kinds, List.forall_mem_append, List.forall_mem_cons]
    exact ⟨trivial, predicate.spelled_kinds h.1, trivial, body.spelled_kinds h.2, trivial,
      List.forall_mem_nil _⟩
  | .block _ body, h => by
    simp only [Expr.kinds, List.forall_mem_append, List.forall_mem_cons]
    exact ⟨trivial, Kind.spelled_semicolonList (Expr.spelled_kindsAll body h), trivial,
      List.forall_mem_nil _⟩
  | .letIn _ _ _ init body, h => by
    simp only [Expr.kinds, List.forall_mem_append, List.forall_mem_cons]
    exact ⟨trivial, h.1, trivial, h.2.1, Expr.spelled_kindsInit init h.2.2.1, trivial,
      body.spelled_kinds h.2.2.2⟩
  | .typeCase _ scrutinee branches, h => by
    simp only [Expr.kinds, List.forall_mem_append, List.forall_mem_cons]
    exact ⟨trivial, scrutinee.spelled_kinds h.1, trivial,
      Kind.spelled_semicolonList (Branch.spelled_kindsAll branches h.2), trivial,
      List.forall_mem_nil _⟩
  | .binary _ _ left right, h => by
    simp only [Expr.kinds, List.forall_mem_append, List.forall_mem_cons]
    exact ⟨Kind.spelled_guarded (left.spelled_kinds h.1), trivial,
      Kind.spelled_guarded (right.spelled_kinds h.2)⟩
  | .unary _ .not operand, h => List.forall_mem_cons.mpr ⟨trivial, operand.spelled_kinds h⟩
  | .unary _ .negate operand, h | .isVoid _ operand, h =>
    List.forall_mem_cons.mpr ⟨trivial, Kind.spelled_guarded (operand.spelled_kinds h)⟩

theorem Expr.spelled_kindsAll : ∀ es : List Expr, Expr.SpelledAll es →
    ∀ ks ∈ Expr.kindsAll es, ∀ k ∈ ks, k.Spelled
  | [], _ => List.forall_mem_nil _
  | e :: es, h => List.forall_mem_cons.mpr ⟨e.spelled_kinds h.1, Expr.spelled_kindsAll es h.2⟩

theorem Expr.spelled_kindsInit : ∀ init : Option Expr, Expr.SpelledInit init →
    ∀ k ∈ Expr.kindsInit init, k.Spelled
  | none, _ => List.forall_mem_nil _
  | some e, h => List.forall_mem_cons.mpr ⟨trivial, e.spelled_kinds h⟩

theorem Branch.spelled_kindsAll : ∀ bs : List Branch, Branch.SpelledAll bs →
    ∀ ks ∈ Branch.kindsAll bs, ∀ k ∈ ks, k.Spelled
  | [], _ => List.forall_mem_nil _
  | ⟨_, _, body, _⟩ :: bs, h => by
    refine List.forall_mem_cons.mpr ⟨?_, Branch.spelled_kindsAll bs h.2.2.2⟩
    simp only [List.forall_mem_cons]
    exact ⟨h.1, trivial, h.2.1, trivial, body.spelled_kinds h.2.2.1⟩

end

theorem Feature.spelled_kinds : ∀ f : Feature, f.Spelled → ∀ k ∈ f.kinds, k.Spelled
  | .attr a, h => by
    simp only [Feature.kinds, List.forall_mem_cons]
    exact ⟨h.1, trivial, h.2.1, Expr.spelled_kindsInit a.init h.2.2⟩
  | .method m, h => by
    simp only [Feature.kinds, List.forall_mem_append, List.forall_mem_cons]
    refine ⟨h.1, Kind.spelled_commaList fun ks hks => ?_, trivial, h.2.2.1, trivial,
      m.body.spelled_kinds h.2.2.2, trivial, List.forall_mem_nil _⟩
    obtain ⟨f, hf, rfl⟩ := List.mem_map.mp hks
    simp only [Formal.kinds, List.forall_mem_cons]
    exact ⟨(h.2.1 f hf).1, trivial, (h.2.1 f hf).2, List.forall_mem_nil _⟩

theorem ClassDecl.spelled_kinds {c : ClassDecl} (h : c.Spelled) : ∀ k ∈ c.kinds, k.Spelled := by
  simp only [ClassDecl.kinds, List.forall_mem_append, List.forall_mem_cons]
  refine ⟨trivial, h.1, trivial, h.2.1, trivial, Kind.spelled_semicolonList fun ks hks => ?_,
    trivial, List.forall_mem_nil _⟩
  obtain ⟨f, hf, rfl⟩ := List.mem_map.mp hks
  exact f.spelled_kinds (h.2.2 f hf)

theorem Program.spelled_kinds {p : Program} (h : ∀ c ∈ p.classes, c.Spelled) :
    ∀ k ∈ p.kinds, k.Spelled := by
  refine Kind.spelled_semicolonList fun ks hks => ?_
  obtain ⟨c, hc, rfl⟩ := List.mem_map.mp hks
  exact ClassDecl.spelled_kinds (h c hc)

end Cool
