import Cool.Proofs.Text.Quoted
import Cool.Tree.Outline

/-!
# Outlines can be read back

The text of an outline has one row for each of its lines, with the level in front. The rows can be
told from the text, because no line contains a line end or starts with a blank; and the outline can
be told from the rows, because what is below a line is what has a greater level behind it.

* `Outline.Row`, `Outline.rowsAll` : the rows of outlines;
* `Outline.toList_renderAll` : the text is made up of the rows, with a line end behind each;
* `Outline.rowsAll_append_inj` : different outlines have different rows;
* `Outline.renderAll_inj` : different outlines have different texts.
-/

namespace Cool

/-! ## Rows -/

/-- A text on one line that does not begin with a blank. -/
def IsLine (line : String) : Prop :=
  '\n' ∉ line.toList ∧ line.toList.head? ≠ some ' '

namespace Outline

/-- A line with the number of levels by which it is indented. -/
structure Row where
  depth : Nat
  line : String

namespace Row

def text (row : Row) : List Char :=
  List.replicate (2 * row.depth) ' ' ++ row.line.toList

variable {row row' : Row} {rows rows' : List Row}

theorem notMem_text (h : IsLine row.line) : '\n' ∉ row.text := by
  rw [text, List.mem_append, not_or]
  exact ⟨fun hmem => absurd (List.eq_of_mem_replicate hmem) (by decide), h.1⟩

theorem replicate_append_inj {m n : Nat} {s t : List Char} (hs : s.head? ≠ some ' ')
    (ht : t.head? ≠ some ' ')
    (h : List.replicate m ' ' ++ s = List.replicate n ' ' ++ t) : m = n ∧ s = t := by
  induction m generalizing n with
  | zero =>
    cases n with
    | zero => exact ⟨rfl, h⟩
    | succ n => exact absurd (congrArg List.head? h) hs
  | succ m ih =>
    cases n with
    | zero => exact absurd (congrArg List.head? h).symm ht
    | succ n =>
      obtain ⟨rfl, rfl⟩ := ih (List.cons.inj h).2
      exact ⟨rfl, rfl⟩

theorem text_inj (h : IsLine row.line) (h' : IsLine row'.line) (htext : row.text = row'.text) :
    row = row' := by
  obtain ⟨hdepth, hline⟩ := replicate_append_inj h.2 h'.2 htext
  cases row
  cases row'
  rw [Row.mk.injEq]
  exact ⟨Nat.eq_of_mul_eq_mul_left Nat.two_pos hdepth, String.toList_injective hline⟩

/-- Rows can be told from the text that they make up. -/
theorem flatMap_text_inj (h : ∀ row ∈ rows, IsLine row.line) (h' : ∀ row ∈ rows', IsLine row.line)
    (htext : (rows.flatMap fun row => row.text ++ ['\n']) =
      rows'.flatMap fun row => row.text ++ ['\n']) : rows = rows' := by
  induction rows generalizing rows' with
  | nil =>
    cases rows' with
    | nil => rfl
    | cons row' rows' => simp at htext
  | cons row rows ih =>
    cases rows' with
    | nil => simp at htext
    | cons row' rows' =>
      obtain ⟨hrow, hrows⟩ := List.forall_mem_cons.mp h
      obtain ⟨hrow', hrows'⟩ := List.forall_mem_cons.mp h'
      simp only [List.flatMap_cons, List.append_assoc, List.singleton_append] at htext
      obtain ⟨hfirst, hmore⟩ :=
        Text.append_cons_inj (notMem_text hrow) (notMem_text hrow') htext
      rw [text_inj hrow hrow' hfirst, ih hrows hrows' hmore]

end Row

/-! ## The rows of an outline -/

mutual

/-- The rows of an outline that is indented by `depth` levels. -/
def rows (depth : Nat) : Outline → List Row
  | .node line below => ⟨depth, line⟩ :: rowsAll (depth + 1) below

def rowsAll (depth : Nat) : List Outline → List Row
  | [] => []
  | o :: os => rows depth o ++ rowsAll depth os

end

mutual

theorem toList_render (depth : Nat) : ∀ o : Outline,
    (o.render depth).toList = (o.rows depth).flatMap fun row => row.text ++ ['\n']
  | .node line below => by
    rw [render, rows, List.flatMap_cons, ← toList_renderAll (depth + 1) below]
    simp [Row.text]

theorem toList_renderAll (depth : Nat) : ∀ os : List Outline,
    (renderAll depth os).toList = (rowsAll depth os).flatMap fun row => row.text ++ ['\n']
  | [] => rfl
  | o :: os => by
    rw [renderAll, rowsAll, String.toList_append, List.flatMap_append, toList_render depth o,
      toList_renderAll depth os]

end

/-- The rows of smaller levels, or none, come next. -/
def Behind (depth : Nat) (rest : List Row) : Prop :=
  ∀ row ∈ rest.head?, row.depth < depth

theorem Behind.rowsAll_append {depth : Nat} {rest : List Row} (h : Behind depth rest)
    (os : List Outline) : Behind (depth + 1) (rowsAll depth os ++ rest) := by
  cases os with
  | nil => exact fun row hrow => Nat.lt_succ_of_lt (h row hrow)
  | cons o os =>
    cases o
    rintro row ⟨⟩
    exact Nat.lt_succ_self depth

/-- Outlines can be told from their rows, and from the rows behind them. -/
theorem rowsAll_append_inj : ∀ {depth : Nat} {os os' : List Outline} {rest rest' : List Row},
    Behind depth rest → Behind depth rest' →
      rowsAll depth os ++ rest = rowsAll depth os' ++ rest' → os = os' ∧ rest = rest'
  | _, [], [], _, _, _, _, h => ⟨rfl, h⟩
  | _, [], .node _ _ :: _, _, _, hrest, _, h => by
    rw [rowsAll, rowsAll, rows] at h
    subst h
    exact absurd (hrest _ rfl) (Nat.lt_irrefl _)
  | _, .node _ _ :: _, [], _, _, _, hrest', h => by
    rw [rowsAll, rowsAll, rows] at h
    subst h
    exact absurd (hrest' _ rfl) (Nat.lt_irrefl _)
  | depth, .node line below :: os, .node line' below' :: os', rest, rest', hrest, hrest', h => by
    simp only [rowsAll, rows, List.cons_append, List.append_assoc, List.cons.injEq,
      Row.mk.injEq, true_and] at h
    obtain ⟨rfl, hrows⟩ := h
    -- what is below the line ends where a row comes that is not deeper than the line
    obtain ⟨rfl, hmore⟩ := rowsAll_append_inj (hrest.rowsAll_append os)
      (hrest'.rowsAll_append os') hrows
    obtain ⟨rfl, rfl⟩ := rowsAll_append_inj hrest hrest' hmore
    exact ⟨rfl, rfl⟩

theorem rowsAll_eq (depth : Nat) (os : List Outline) :
    rowsAll depth os = os.flatMap (rows depth) := by
  induction os with
  | nil => rfl
  | cons o os ih => rw [rowsAll, ih, List.flatMap_cons]

/-- The lines of an outline are on one line each and do not begin with a blank. -/
def Proper (o : Outline) : Prop :=
  ∀ depth, ∀ row ∈ o.rows depth, IsLine row.line

theorem proper_node {line : String} {below : List Outline} (hline : IsLine line)
    (hbelow : ∀ o ∈ below, o.Proper) : Proper (.node line below) := by
  intro depth row hrow
  rw [rows, rowsAll_eq] at hrow
  rcases List.mem_cons.mp hrow with rfl | hrow
  · exact hline
  · obtain ⟨o, ho, hrow⟩ := List.mem_flatMap.mp hrow
    exact hbelow o ho (depth + 1) row hrow

theorem isLine_of_mem_rowsAll {os : List Outline} (h : ∀ o ∈ os, o.Proper) :
    ∀ row ∈ rowsAll 0 os, IsLine row.line := by
  intro row hrow
  rw [rowsAll_eq] at hrow
  obtain ⟨o, ho, hrow⟩ := List.mem_flatMap.mp hrow
  exact h o ho 0 row hrow

/-- Outlines can be told from their text. -/
theorem renderAll_inj {os os' : List Outline} (h : ∀ o ∈ os, o.Proper)
    (h' : ∀ o ∈ os', o.Proper) (htext : renderAll 0 os = renderAll 0 os') : os = os' := by
  have hrows : rowsAll 0 os = rowsAll 0 os' := by
    apply Row.flatMap_text_inj (isLine_of_mem_rowsAll h) (isLine_of_mem_rowsAll h')
    rw [← toList_renderAll, ← toList_renderAll, htext]
  have hnone : Behind 0 [] := nofun
  rw [← List.append_nil (rowsAll 0 os), ← List.append_nil (rowsAll 0 os')] at hrows
  exact (rowsAll_append_inj hnone hnone hrows).1

end Outline

end Cool
