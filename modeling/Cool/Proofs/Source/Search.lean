import Cool.Proofs.Source.Bytes
import Cool.Proofs.Source.Lines
import Mathlib.Algebra.Group.Nat.Defs
import Mathlib.Data.List.GetD

/-!
# Searching for the line of a place

The starts of the lines are in increasing order, so that the line of an offset can be found by
halving: the search ends at a line that starts there, or at the index where one would have to be
inserted. Either index tells how many lines have started, which is one more than the line feeds in
front of the offset; and an index that fits into 32 bits is not cut off.

* `Lines.starts_ofText` : where the lines start, in terms of the bytes;
* `Lines.Found`, `Lines.search` : the search, and where it ends;
* `Lines.Found.Answers` : what an end of the search says, whatever way it was found;
* `Lines.line_search` : the line that is found counts the line feeds.
-/

namespace Cool

namespace Lines

variable {starts : List Nat} {offset : Nat} {text : List Char}

/-! ## The starts of the lines -/

theorem findIdxs_encodeChar {c : Char} (hc : c ≠ '\n') (offset : Nat) :
    (String.utf8EncodeChar c).findIdxs (· == 10) offset = [] := by
  rw [List.findIdxs_eq_nil_iff]
  intro b hb
  rw [beq_eq_false_iff_ne]
  rintro rfl
  exact hc (Text.eq_of_mem_encodeChar (by decide) rfl hb)

theorem startsFrom_eq (offset : Nat) (s : List Char) : startsFrom offset s =
    ((Text.encode s).findIdxs (· == 10) offset).map (· + 1) := by
  induction s generalizing offset with
  | nil => rfl
  | cons c s ih =>
    rw [startsFrom, Text.encode, List.flatMap_cons, ← Text.encode, List.findIdxs_append,
      String.length_utf8EncodeChar, List.map_append]
    split_ifs with hc
    · subst hc
      rw [ih]
      rfl
    · rw [ih, findIdxs_encodeChar hc]
      rfl

/-- The first line starts at zero, and one starts behind each line feed. -/
theorem starts_ofText (text : List Char) :
    (ofText text).starts = 0 :: ((Text.encode text).idxsOf 10).map (· + 1) :=
  congrArg (0 :: ·) (startsFrom_eq 0 text)

theorem pairwise_starts (text : List Char) : (ofText text).starts.Pairwise (· < ·) := by
  rw [starts_ofText, List.pairwise_cons]
  constructor
  · intro x hx
    obtain ⟨i, -, rfl⟩ := List.mem_map.mp hx
    exact Nat.succ_pos i
  · exact List.pairwise_map.mpr (List.pairwise_findIdxs.imp fun h => Nat.succ_lt_succ h)

/-- Of the line feeds in bytes that start at `start`, those among the first `n` bytes are the ones
whose next place is at most `start + n`. -/
theorem length_filter_findIdxs (bytes : List UInt8) (start n : Nat) :
    (((bytes.findIdxs (· == 10) start).map (· + 1)).filter (· ≤ start + n)).length =
      (bytes.take n).count 10 := by
  induction bytes generalizing start n with
  | nil => simp
  | cons b bytes ih =>
    cases n with
    | zero =>
      rw [List.take_zero, List.count_nil, List.length_eq_zero_iff, List.filter_eq_nil_iff]
      intro x hx
      obtain ⟨i, hi, rfl⟩ := List.mem_map.mp hx
      have hle := List.ge_of_mem_findIdxs i hi
      simpa using Nat.lt_succ_of_le hle
    | succ n =>
      have hrest := ih (start + 1) n
      rw [Nat.add_right_comm, Nat.add_assoc] at hrest
      rw [List.findIdxs_cons, List.take_succ_cons, List.count_cons]
      split_ifs with hb
      · rw [List.map_cons, List.filter_cons_of_pos (by simp), List.length_cons, hrest]
      · rw [hrest, Nat.add_zero]

/-- The lines that have started at an offset, counted by the line feeds in front of it. -/
theorem lineOf_ofText (text : List Char) (offset : Nat) :
    (ofText text).lineOf offset = 1 + ((Text.encode text).take offset).count 10 := by
  have h := length_filter_findIdxs (Text.encode text) 0 offset
  rw [Nat.zero_add] at h
  rw [lineOf, starts_ofText, List.filter_cons_of_pos (by simp), List.length_cons, List.idxsOf, h,
    Nat.add_comm]

theorem count_encode (text : List Char) : (Text.encode text).count 10 = Text.newlines text := by
  induction text with
  | nil => rfl
  | cons c s ih =>
    rw [Text.encode, List.flatMap_cons, ← Text.encode, List.count_append, ih, Text.newlines,
      Text.newlines, List.count_cons, Nat.add_comm]
    congr 1
    split_ifs with hc
    · rw [beq_iff_eq.mp hc]
      rfl
    · refine List.count_eq_zero.mpr fun hb => hc (beq_iff_eq.mpr ?_)
      exact Text.eq_of_mem_encodeChar (by decide) rfl hb

/-! ## The search -/

/-- Where a search in an increasing list ends. -/
inductive Found where
  /-- At an equal element. -/
  | equal (index : Nat)
  /-- At the place of an element that is missing. -/
  | missing (index : Nat)
  deriving DecidableEq

namespace Found

/-- What the end of a search says: the element at the index is the one that was looked for, or it
would have to be inserted there. -/
def Answers (starts : List Nat) (offset : Nat) : Found → Prop
  | .equal index => starts[index]? = some offset
  | .missing index => index ≤ starts.length ∧ (∀ x ∈ starts.take index, x < offset) ∧
    ∀ x ∈ starts.drop index, offset < x

/-- The line that a search has found, counted from one in 32 bits. -/
def line : Found → UInt32
  | .equal index => UInt32.ofNat index + 1
  | .missing index => UInt32.ofNat index

/-- How many elements are not behind the one that was looked for. -/
def reached : Found → Nat
  | .equal index => index + 1
  | .missing index => index

variable {found found' : Found}

theorem toNat_line (found : Found) : found.line.toNat = found.reached % 2 ^ 32 := by
  cases found with
  | equal index => simp [line, reached]
  | missing index => simp [line, reached]

theorem length_filter_append {before behind : List Nat} (hbefore : ∀ x ∈ before, x ≤ offset)
    (hbehind : ∀ x ∈ behind, offset < x) :
    ((before ++ behind).filter (· ≤ offset)).length = before.length := by
  have hall : before.filter (· ≤ offset) = before :=
    List.filter_eq_self.mpr fun x hx => decide_eq_true (hbefore x hx)
  have hnone : behind.filter (· ≤ offset) = [] :=
    List.filter_eq_nil_iff.mpr fun x hx => by simpa using hbehind x hx
  rw [List.filter_append, hall, hnone, List.append_nil]

/-- Every right end of a search tells how many elements have been reached. -/
theorem Answers.reached_eq (h : found.Answers starts offset) (hs : starts.Pairwise (· < ·)) :
    found.reached = (starts.filter (· ≤ offset)).length := by
  cases found with
  | equal index =>
    obtain ⟨hlt, rfl⟩ := List.getElem?_eq_some_iff.mp h
    have hsplit : starts = starts.take (index + 1) ++ starts.drop (index + 1) :=
      (List.take_append_drop _ _).symm
    have hle : ∀ x ∈ starts.take (index + 1), x ≤ starts[index] := by
      intro x hx
      rw [List.take_succ_eq_append_getElem hlt, List.mem_append, List.mem_singleton] at hx
      rcases hx with hx | rfl
      · rw [← List.take_append_drop index starts, List.drop_eq_getElem_cons hlt] at hs
        exact Nat.le_of_lt ((List.pairwise_append.mp hs).2.2 x hx _ List.mem_cons_self)
      · exact Nat.le_refl _
    have hlt' : ∀ x ∈ starts.drop (index + 1), starts[index] < x := by
      have htail := hs.sublist (List.drop_sublist index starts)
      rw [List.drop_eq_getElem_cons hlt] at htail
      exact (List.pairwise_cons.mp htail).1
    have hlength := length_filter_append hle hlt'
    rw [List.take_append_drop, List.length_take_of_le hlt] at hlength
    exact hlength.symm
  | missing index =>
    obtain ⟨hle, hbefore, hbehind⟩ := h
    have hlength := length_filter_append (fun x hx => Nat.le_of_lt (hbefore x hx)) hbehind
    rw [List.take_append_drop, List.length_take_of_le hle] at hlength
    exact hlength.symm

theorem Answers.mem_iff (h : found.Answers starts offset) :
    offset ∈ starts ↔ ∃ index, found = .equal index := by
  cases found with
  | equal index => exact iff_of_true (List.mem_of_getElem? h) ⟨index, rfl⟩
  | missing index =>
    obtain ⟨-, hbefore, hbehind⟩ := h
    refine iff_of_false (fun hmem => ?_) (by simp)
    rw [← List.take_append_drop index starts, List.mem_append] at hmem
    rcases hmem with hmem | hmem
    · exact Nat.lt_irrefl _ (hbefore offset hmem)
    · exact Nat.lt_irrefl _ (hbehind offset hmem)

/-- In an increasing list there is only one right end. -/
theorem Answers.unique (h : found.Answers starts offset) (h' : found'.Answers starts offset)
    (hs : starts.Pairwise (· < ·)) : found = found' := by
  have hreached := (h.reached_eq hs).trans (h'.reached_eq hs).symm
  have hmem := h.mem_iff.symm.trans h'.mem_iff
  cases found with
  | equal index =>
    obtain ⟨index', rfl⟩ := hmem.mp ⟨index, rfl⟩
    rw [Nat.succ.inj hreached]
  | missing index =>
    cases found' with
    | equal index' =>
      obtain ⟨_, hne⟩ := hmem.mpr ⟨index', rfl⟩
      cases hne
    | missing index' => exact congrArg Found.missing hreached

end Found

/-- The last index of a range of `size` elements from `base` on whose element is not behind the
offset, or the first index if there is none. The range is halved until one element is left. -/
def halve (starts : List Nat) (offset base size : Nat) : Nat :=
  if 1 < size then
    let half := size / 2
    if offset < starts.getD (base + half) 0 then halve starts offset base (size - half)
    else halve starts offset (base + half) (size - half)
  else base
termination_by size

/-- The search for an offset among the starts of the lines. -/
def search (lines : Lines) (offset : Nat) : Found :=
  let base := halve lines.starts offset 0 lines.starts.length
  match lines.starts[base]? with
  | none => .missing 0
  | some start =>
    if start = offset then .equal base
    else .missing (if start < offset then base + 1 else base)

/-- A range whose first element is the first of all or not behind the offset, while all elements
that follow the range are. -/
structure Holds (starts : List Nat) (offset base size : Nat) : Prop where
  nonempty : 0 < size
  inside : base + size ≤ starts.length
  first : base = 0 ∨ starts.getD base 0 ≤ offset
  behind : ∀ x ∈ starts.drop (base + size), offset < x

/-- From an element on that is behind the offset, all are. -/
theorem lt_of_mem_drop (hs : starts.Pairwise (· < ·)) {mid : Nat} (hmid : mid < starts.length)
    (hlt : offset < starts.getD mid 0) {x : Nat} (hx : x ∈ starts.drop mid) : offset < x := by
  have htail := hs.sublist (List.drop_sublist mid starts)
  rw [List.getD_eq_getElem _ _ hmid] at hlt
  rw [List.drop_eq_getElem_cons hmid] at htail hx
  rcases List.mem_cons.mp hx with rfl | hx
  · exact hlt
  · exact Nat.lt_trans hlt ((List.pairwise_cons.mp htail).1 x hx)

/-- The search ends at a range of one element. -/
theorem Holds.halve (hs : starts.Pairwise (· < ·)) {base size : Nat}
    (h : Holds starts offset base size) :
    Holds starts offset (halve starts offset base size) 1 := by
  have hinside := h.inside
  fun_induction Lines.halve starts offset base size with
  | case1 base size hsize half hlt ih =>
    have hhalf : half = size / 2 := rfl
    refine ih ⟨by omega, by omega, h.first, fun x hx => ?_⟩ (by omega)
    refine lt_of_mem_drop hs (show base + half < starts.length by omega) hlt ?_
    exact (List.drop_subset_drop_left starts (by omega)) hx
  | case2 base size hsize half hge ih =>
    have hhalf : half = size / 2 := rfl
    have hfirst : starts.getD (base + half) 0 ≤ offset := Nat.not_lt.mp hge
    refine ih ⟨by omega, by omega, Or.inr hfirst, fun x hx => h.behind x ?_⟩ (by omega)
    rwa [show base + half + (size - half) = base + size by omega] at hx
  | case3 base size hsize =>
    have hone : size = 1 := by
      have := h.nonempty
      omega
    rwa [hone] at h

/-- The search ends as it should. -/
theorem answers_search {lines : Lines} (hs : lines.starts.Pairwise (· < ·)) (offset : Nat) :
    (lines.search offset).Answers lines.starts offset := by
  unfold search
  dsimp only
  by_cases hempty : lines.starts = []
  · rw [hempty, List.getElem?_nil]
    exact ⟨Nat.zero_le _, by simp, by simp⟩
  · have hholds : Holds lines.starts offset 0 lines.starts.length :=
      ⟨List.length_pos_iff.mpr hempty, by omega, Or.inl rfl, by simp⟩
    obtain ⟨-, hinside, hfirst, hbehind⟩ := hholds.halve hs
    generalize Lines.halve lines.starts offset 0 lines.starts.length = base at *
    have hlt : base < lines.starts.length := hinside
    rw [List.getElem?_eq_getElem hlt]
    rw [List.getD_eq_getElem _ _ hlt] at hfirst
    dsimp only
    split_ifs with heq hless
    · exact heq ▸ List.getElem?_eq_getElem hlt
    · refine ⟨hinside, fun x hx => ?_, hbehind⟩
      rw [List.take_succ_eq_append_getElem hlt, List.mem_append, List.mem_singleton] at hx
      rcases hx with hx | rfl
      · rw [← List.take_append_drop base lines.starts, List.drop_eq_getElem_cons hlt] at hs
        exact Nat.lt_trans ((List.pairwise_append.mp hs).2.2 x hx _ List.mem_cons_self) hless
      · exact hless
    · have hbase : base = 0 := hfirst.resolve_right (by omega)
      subst hbase
      refine ⟨Nat.zero_le _, by simp, fun x hx => lt_of_mem_drop hs hlt ?_ hx⟩
      rw [List.getD_eq_getElem _ _ hlt]
      omega

/-! ## The line that is found -/

/-- For a text whose line feeds can be counted in 32 bits, with one to spare, the search finds the
line of every place, be it in the text or behind its end. Every search that ends as it should ends
where this one does, and the line that it finds is one more than the number of line feeds in front
of the place: it is not cut off, it is never zero, and it grows with the place. -/
theorem line_search (text : List Char) (h : Text.newlines text < 2 ^ 32 - 1) :
    let lines := ofText text
    (lines.starts = 0 :: ((Text.encode text).idxsOf 10).map (· + 1)) ∧
    (∀ offset found, found.Answers lines.starts offset ↔ found = lines.search offset) ∧
    (∀ offset, (lines.search offset).line.toNat =
      1 + ((Text.encode text).take offset).count 10) ∧
    (∀ offset, (lines.search offset).line.toNat = lines.lineOf offset) ∧
    (∀ offset index, lines.search offset = .equal index →
      (UInt32.ofNat index).toNat = index ∧ index + 1 < 2 ^ 32) ∧
    (∀ offset, (lines.search offset).line ≠ 0) ∧
    ∀ offset offset', offset ≤ offset' →
      (lines.search offset).line ≤ (lines.search offset').line := by
  intro lines
  have hanswers (offset : Nat) : (lines.search offset).Answers lines.starts offset :=
    answers_search (pairwise_starts text) offset
  have hreached (offset : Nat) : (lines.search offset).reached =
      1 + ((Text.encode text).take offset).count 10 := by
    rw [(hanswers offset).reached_eq (pairwise_starts text), ← lineOf, lineOf_ofText]
  have hbound (offset : Nat) : (lines.search offset).reached < 2 ^ 32 := by
    have hcount := (List.take_sublist offset (Text.encode text)).count_le 10
    rw [count_encode] at hcount
    rw [hreached]
    omega
  have hline (offset : Nat) : (lines.search offset).line.toNat =
      1 + ((Text.encode text).take offset).count 10 := by
    rw [Found.toNat_line, Nat.mod_eq_of_lt (hbound offset), hreached]
  refine ⟨starts_ofText text, fun offset found => ⟨fun hfound => ?_, ?_⟩, hline, fun offset => ?_,
    fun offset index hindex => ?_, fun offset hzero => ?_, fun offset offset' hle => ?_⟩
  · exact hfound.unique (hanswers offset) (pairwise_starts text)
  · rintro rfl
    exact hanswers offset
  · rw [hline, lineOf_ofText]
  · have hlt := hbound offset
    rw [hindex, Found.reached] at hlt
    exact ⟨UInt32.toNat_ofNat_of_lt' (by simp only [UInt32.size]; omega), hlt⟩
  · have hpos := hline offset
    rw [hzero] at hpos
    simp at hpos
    omega
  · rw [UInt32.le_iff_toNat_le, hline, hline]
    exact Nat.add_le_add_left ((List.take_sublist_take_left hle).count_le 10) 1

/-- On a line feed, behind one, on an empty line, and behind the end of the text. -/
theorem line_search_emptyLine :
    Text.newlines "ab\ncd\n\nef".toList < 2 ^ 32 - 1 ∧
      ([0, 2, 3, 6, 7, 9, 100].map fun offset =>
        ((ofText "ab\ncd\n\nef".toList).search offset).line.toNat) = [1, 1, 2, 3, 4, 4, 4] := by
  have hfew : Text.newlines "ab\ncd\n\nef".toList < 2 ^ 32 - 1 := by decide
  obtain ⟨-, -, hline, -⟩ := line_search "ab\ncd\n\nef".toList hfew
  refine ⟨hfew, ?_⟩
  simp only [hline]
  decide

end Lines

end Cool
