import Cool.Tree.Program

/-!
# Spans that nest like the tree

A tree without anything but its spans: a node for each class, feature, formal parameter, branch and
expression, with what it is made of below it, in the order of the source. The spans nest if every
one contains those below it, and these lie one behind the other.

* `SpanTree`, `Expr.spanTree`, `Feature.spanTree`, `ClassDecl.spanTree` : the spans of a tree;
* `SpanTree.Nests` : spans that nest, and have a property;
* `SpanTree.Row` : such trees one behind the other, from one place to another;
* `Row.append`, `Row.upTo` : rows one behind the other, and up to the last tree;
* `Span.Bounded` : spans from the start of one token to the end of another;
* `Row.node`, `Row.nodeFrom`, `Row.leaf` : a row below a node.
-/

namespace Cool

inductive SpanTree where
  | node (span : Span) (below : List SpanTree)

namespace SpanTree

def span : SpanTree → Span
  | node span _ => span

def start (t : SpanTree) : Nat :=
  t.span.start

def stop (t : SpanTree) : Nat :=
  t.span.stop

end SpanTree

/-! ## The spans of a tree -/

mutual

def Expr.spanTree : Expr → SpanTree
  | .int note _ | .string note _ | .bool note _ | .object note _ | .new note _ =>
    .node note.span []
  | .assign note _ value => .node note.span [value.spanTree]
  | .selfDispatch note _ args => .node note.span (Expr.spanTrees args)
  | .dispatch note receiver _ args | .staticDispatch note receiver _ _ args =>
    .node note.span (receiver.spanTree :: Expr.spanTrees args)
  | .cond note predicate thenBranch elseBranch =>
    .node note.span [predicate.spanTree, thenBranch.spanTree, elseBranch.spanTree]
  | .loop note left right | .binary note _ left right =>
    .node note.span [left.spanTree, right.spanTree]
  | .block note body => .node note.span (Expr.spanTrees body)
  | .letIn note _ _ init body => .node note.span (Expr.initSpanTrees init ++ [body.spanTree])
  | .typeCase note scrutinee branches =>
    .node note.span (scrutinee.spanTree :: Branch.spanTrees branches)
  | .unary note _ operand | .isVoid note operand => .node note.span [operand.spanTree]

def Expr.spanTrees : List Expr → List SpanTree
  | [] => []
  | e :: es => e.spanTree :: Expr.spanTrees es

def Expr.initSpanTrees : Option Expr → List SpanTree
  | none => []
  | some e => [e.spanTree]

def Branch.spanTrees : List Branch → List SpanTree
  | [] => []
  | ⟨_, _, body, span⟩ :: branches => .node span [body.spanTree] :: Branch.spanTrees branches

end

def Branch.spanTree (b : Branch) : SpanTree :=
  .node b.span [b.body.spanTree]

def Formal.spanTree (f : Formal) : SpanTree :=
  .node f.span []

def Feature.spanTree : Feature → SpanTree
  | .attr a => .node a.span (Expr.initSpanTrees a.init)
  | .method m => .node m.span (m.formals.map Formal.spanTree ++ [m.body.spanTree])

def ClassDecl.spanTree (c : ClassDecl) : SpanTree :=
  .node c.span (c.features.map Feature.spanTree)

theorem Expr.span_spanTree (e : Expr) : e.spanTree.span = e.span := by
  cases e <;> rfl

theorem Expr.spanTrees_eq_map (es : List Expr) : Expr.spanTrees es = es.map Expr.spanTree := by
  induction es with
  | nil => rfl
  | cons e es ih => rw [Expr.spanTrees, ih, List.map_cons]

theorem Branch.spanTrees_eq_map (branches : List Branch) :
    Branch.spanTrees branches = branches.map Branch.spanTree := by
  induction branches with
  | nil => rfl
  | cons b branches ih =>
    obtain ⟨name, type, body, span⟩ := b
    rw [Branch.spanTrees, ih]
    rfl

/-! ## Trees that nest -/

namespace SpanTree

variable {P : Span → Prop} {lo mid hi : Nat} {t : SpanTree} {ts us : List SpanTree}

/-- Every span has a property and contains those below it, which lie one behind the other. -/
inductive Nests (P : Span → Prop) : SpanTree → Prop
  | node {span : Span} {below : List SpanTree} (hspan : P span)
    (hinside : ∀ t ∈ below, span.start ≤ t.start ∧ t.stop ≤ span.stop)
    (hordered : below.Pairwise fun t u => t.stop ≤ u.start)
    (hbelow : ∀ t ∈ below, Nests P t) : Nests P (node span below)

theorem Nests.span (h : t.Nests P) : P t.span := by
  cases h
  assumption

theorem Nests.imp {Q : Span → Prop} (hPQ : ∀ span, P span → Q span) (h : t.Nests P) :
    t.Nests Q := by
  induction h with
  | node hspan hinside hordered _ ih => exact .node (hPQ _ hspan) hinside hordered ih

/-- Trees that nest, one behind the other, from one place to another. -/
structure Row (P : Span → Prop) (lo hi : Nat) (ts : List SpanTree) : Prop where
  le : lo ≤ hi
  nests : ∀ t ∈ ts, t.Nests P
  inside : ∀ t ∈ ts, lo ≤ t.start ∧ t.stop ≤ hi
  ordered : ts.Pairwise fun t u => t.stop ≤ u.start

namespace Row

theorem nil (h : lo ≤ hi) : Row P lo hi [] :=
  ⟨h, List.forall_mem_nil _, List.forall_mem_nil _, .nil⟩

theorem singleton_iff : Row P lo hi [t] ↔ lo ≤ hi ∧ t.Nests P ∧ lo ≤ t.start ∧ t.stop ≤ hi := by
  constructor
  · intro h
    exact ⟨h.le, h.nests t List.mem_cons_self, h.inside t List.mem_cons_self⟩
  · rintro ⟨hle, hnests, hinside⟩
    exact ⟨hle, List.forall_mem_singleton.mpr hnests, List.forall_mem_singleton.mpr hinside,
      List.pairwise_singleton _ _⟩

/-- The places around the trees may be further away. -/
theorem mono {lo' hi' : Nat} (h : Row P lo hi ts) (hlo : lo' ≤ lo) (hhi : hi ≤ hi') :
    Row P lo' hi' ts where
  le := by
    have := h.le
    omega
  nests := h.nests
  inside t ht := by
    have := h.inside t ht
    omega
  ordered := h.ordered

theorem append (h : Row P lo mid ts) (h' : Row P mid hi us) : Row P lo hi (ts ++ us) where
  le := Nat.le_trans h.le h'.le
  nests := List.forall_mem_append.mpr ⟨h.nests, h'.nests⟩
  inside := List.forall_mem_append.mpr
    ⟨(h.mono (Nat.le_refl lo) h'.le).inside, (h'.mono h.le (Nat.le_refl hi)).inside⟩
  ordered := List.pairwise_append.mpr ⟨h.ordered, h'.ordered, fun t ht u hu =>
    Nat.le_trans (h.inside t ht).2 (h'.inside u hu).1⟩

end Row

end SpanTree

/-! ## Spans from token to token -/

/-- From the start of one span to the end of another, of those with a property. -/
structure Span.Bounded (T : Span → Prop) (s : Span) : Prop where
  nonempty : s.start < s.stop
  start : ∃ a, T a ∧ a.start = s.start ∧ a.line = s.line
  stop : ∃ b, T b ∧ b.stop = s.stop

namespace Span.Bounded

variable {T : Span → Prop} {a b : Span}

theorem of_token (ha : T a) (h : a.start < a.stop) : a.Bounded T :=
  ⟨h, ⟨a, ha, rfl, rfl⟩, ⟨a, ha, rfl⟩⟩

theorem through (ha : a.Bounded T) (hb : b.Bounded T) (h : a.stop ≤ b.stop) :
    (a.through b).Bounded T where
  nonempty := Nat.lt_of_lt_of_le ha.nonempty (stop_le_stop_through a b)
  start := ha.start
  stop := by
    rw [show (a.through b).stop = b.stop from Nat.max_eq_left h]
    exact hb.stop

end Span.Bounded

namespace SpanTree.Row

variable {T : Span → Prop} {lo mid hi : Nat} {a b : Span} {t : SpanTree} {ts : List SpanTree}

/-- A row ends with its last tree. -/
theorem upTo (h : Row (Span.Bounded T) lo hi (ts ++ [t])) :
    Row (Span.Bounded T) lo t.stop (ts ++ [t]) := by
  have ht : t ∈ ts ++ [t] := List.mem_append_right ts List.mem_cons_self
  have hnonempty : t.start < t.stop := (h.nests t ht).span.nonempty
  have hlo := (h.inside t ht).1
  refine ⟨by omega, h.nests, fun u hu => ⟨(h.inside u hu).1, ?_⟩, h.ordered⟩
  rcases List.mem_append.mp hu with hu | hu
  · have hordered := (List.pairwise_append.mp h.ordered).2.2 u hu t List.mem_cons_self
    omega
  · exact Nat.le_of_eq (congrArg stop (List.mem_singleton.mp hu))

/-- A row from the start of one span to the end of another is below the node from the one to the
other. -/
theorem below (ha : a.Bounded T) (hb : b.Bounded T) (hab : a.stop ≤ b.stop) (hlo : lo ≤ a.start)
    (h : Row (Span.Bounded T) a.start b.stop ts) :
    Row (Span.Bounded T) lo b.stop [.node (a.through b) ts] := by
  have hle := h.le
  have hstop : (a.through b).stop = b.stop := Nat.max_eq_left hab
  refine singleton_iff.mpr ⟨by omega, ?_, hlo, Nat.le_of_eq hstop⟩
  refine .node (ha.through hb hab) (fun t ht => ?_) h.ordered h.nests
  rw [hstop]
  exact h.inside t ht

/-- What is below a node may lie behind the token with which the node starts. -/
theorem node (ha : a.Bounded T) (hb : b.Bounded T) (hlo : lo ≤ a.start)
    (h : Row (Span.Bounded T) a.stop b.stop ts) :
    Row (Span.Bounded T) lo b.stop [.node (a.through b) ts] :=
  below ha hb h.le hlo (h.mono (Nat.le_of_lt ha.nonempty) (Nat.le_refl _))

/-- A node may start where the first tree below it does. -/
theorem nodeFrom (hb : b.Bounded T) (ht : Row (Span.Bounded T) lo mid [t])
    (hts : Row (Span.Bounded T) mid b.stop ts) :
    Row (Span.Bounded T) lo b.stop [.node (t.span.through b) (t :: ts)] := by
  obtain ⟨-, hnests, hlo, hmid⟩ := singleton_iff.mp ht
  have hstart : t.start < t.stop := hnests.span.nonempty
  have htight : Row (Span.Bounded T) t.start mid [t] :=
    singleton_iff.mpr ⟨by omega, hnests, Nat.le_refl _, hmid⟩
  exact below hnests.span hb (Nat.le_trans hmid hts.le) hlo (htight.append hts)

theorem leaf (ha : a.Bounded T) (hlo : lo ≤ a.start) :
    Row (Span.Bounded T) lo a.stop [.node a []] := by
  have hle := ha.nonempty
  refine singleton_iff.mpr ⟨by omega, ?_, hlo, Nat.le_refl _⟩
  exact .node ha (List.forall_mem_nil _) .nil (List.forall_mem_nil _)

end SpanTree.Row

end Cool
