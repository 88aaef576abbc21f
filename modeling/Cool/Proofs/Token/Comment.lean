import Cool.Proofs.Source.Bytes
import Cool.Proofs.Token.Separated
import Cool.Proofs.Token.Within

/-!
# Where a comment ends

Behind its opening sign a comment is read to the end of the shortest text that closes it. The same
end is found by going over the bytes of the encoded text with a counter of the open comments and a
window of two bytes, although a window may cut a character apart.

* `Comment.depthBehind`, `Comment.Closes` : the depth of nesting behind a text, and the shortest
  text that brings it to zero;
* `blockComment_eq_some_iff`, `blockComment_eq_none_iff` : this text is what is read;
* `CommentScan.turn`, `CommentScan.run`, `CommentScan.Passed` : the loop over the bytes, and the
  states at which its turns start;
* `CommentScan.run_encode` : it stops behind the same text;
* `Comment.read_to_shortest_end` : all of this for any text, and what the lexer does with it.
-/

namespace Cool

/-! ## Depths -/

/-- How many comments are open behind a text if `depth` are in front of it. The signs are taken from
left to right and share no character. -/
def Comment.depthBehind (depth : Int) : List Char → Int
  | [] => depth
  | '(' :: '*' :: s => depthBehind (depth + 1) s
  | '*' :: ')' :: s => depthBehind (depth - 1) s
  | _ :: s => depthBehind depth s

/-- The shortest text in front of `text` that closes all of `depth` comments. -/
structure Comment.Closes (depth : Int) (text body : List Char) : Prop where
  front : body <+: text
  closed : depthBehind depth body = 0
  shortest : ∀ s, s <+: text → depthBehind depth s = 0 → body.length ≤ s.length

namespace Comment

variable {depth : Int} {c : Char} {s text body rest : List Char}

theorem depthBehind_char (hopen : ¬ ['(', '*'] <+: c :: s) (hclose : ¬ ['*', ')'] <+: c :: s) :
    depthBehind depth (c :: s) = depthBehind depth s := by
  rw [depthBehind]
  · rintro t rfl rfl
    exact hopen ⟨t, rfl⟩
  · rintro t rfl rfl
    exact hclose ⟨t, rfl⟩

/-- Only one text is the shortest. -/
theorem Closes.unique {body' : List Char} (h : Closes depth text body)
    (h' : Closes depth text body') : body = body' := by
  have hle := h.shortest body' h'.front h'.closed
  have hge := h'.shortest body h.front h.closed
  exact (List.prefix_of_prefix_length_le h.front h'.front hle).eq_of_length (by omega)

end Comment

open Comment

variable {depth : Nat} {text body rest : List Char}

/-- The rest of a comment closes it. -/
theorem CommentTail.depthBehind_eq (h : CommentTail depth body) :
    depthBehind (depth + 1) body = 0 := by
  induction h with
  | close => rfl
  | inner _ ih =>
    rw [depthBehind, ← ih]
    push_cast
    rfl
  | outer _ ih =>
    rw [depthBehind, ← ih]
    push_cast
    rw [add_sub_cancel_right]
  | char hopen hclose _ ih => rw [depthBehind_char hopen hclose, ih]

/-- A text that closes all comments holds a sign at least. -/
theorem two_le_of_closed {s : List Char} {a b : Char} (hs : s <+: a :: b :: text)
    (hclosed : depthBehind (depth + 1) s = 0) : ∃ t, s = a :: b :: t ∧ t <+: text := by
  rcases s with - | ⟨c, - | ⟨d, t⟩⟩
  · rw [depthBehind] at hclosed
    omega
  · rw [depthBehind_char (by simp) (by simp), depthBehind] at hclosed
    omega
  · rw [List.cons_prefix_cons, List.cons_prefix_cons] at hs
    obtain ⟨rfl, rfl, ht⟩ := hs
    exact ⟨t, rfl, ht⟩

/-- If a text in front closes the comment, then something is read, and nothing longer. -/
theorem exists_blockComment {s : List Char} (hs : s <+: text)
    (hclosed : depthBehind (depth + 1) s = 0) :
    ∃ body rest, blockComment depth text = some (body, rest) ∧ body <+: s := by
  fun_induction blockComment depth text generalizing s with
  | case1 depth =>
    rw [List.prefix_nil.mp hs, depthBehind] at hclosed
    omega
  | case2 depth text ih =>
    obtain ⟨t, rfl, ht⟩ := two_le_of_closed hs hclosed
    obtain ⟨body, rest, hread, hbody⟩ := ih ht (by simpa [depthBehind] using hclosed)
    rw [hread]
    exact ⟨_, _, rfl, by simpa using hbody⟩
  | case3 text =>
    obtain ⟨t, rfl, -⟩ := two_le_of_closed hs hclosed
    exact ⟨_, _, rfl, by simp⟩
  | case4 depth text ih =>
    obtain ⟨t, rfl, ht⟩ := two_le_of_closed hs hclosed
    obtain ⟨body, rest, hread, hbody⟩ := ih ht (by simpa [depthBehind] using hclosed)
    rw [hread]
    exact ⟨_, _, rfl, by simpa using hbody⟩
  | case5 depth c text hopen hclose hclose' ih =>
    rcases s with - | ⟨d, s⟩
    · rw [depthBehind] at hclosed
      omega
    · obtain ⟨rfl, htail⟩ := List.cons_prefix_cons.mp hs
      -- a sign at the front of `s` would be one at the front of the whole text
      have hnotOpen : ¬ ['(', '*'] <+: d :: s := by
        intro h
        obtain ⟨t, ht⟩ := h.trans hs
        cases ht
        exact hopen t rfl rfl
      have hnotClose : ¬ ['*', ')'] <+: d :: s := by
        intro h
        obtain ⟨t, ht⟩ := h.trans hs
        cases ht
        cases depth with
        | zero => exact hclose t rfl rfl rfl
        | succ depth => exact hclose' depth t rfl rfl rfl
      rw [depthBehind_char hnotOpen hnotClose] at hclosed
      obtain ⟨body, rest, hread, hbody⟩ := ih htail hclosed
      rw [hread]
      exact ⟨_, _, rfl, by simpa using hbody⟩

/-- What is read is the shortest text that closes the comment. -/
theorem closes_of_blockComment (h : blockComment depth text = some (body, rest)) :
    Closes (depth + 1) text body where
  front := ⟨rest, blockComment_append h⟩
  closed := (commentTail_of_blockComment h).depthBehind_eq
  shortest s hs hclosed := by
    obtain ⟨body', rest', h', hbody'⟩ := exists_blockComment hs hclosed
    rw [h] at h'
    cases h'
    exact hbody'.length_le

/-- The shortest text that closes the comment is read, and what is read is this text. -/
theorem blockComment_eq_some_iff : blockComment depth text = some (body, rest) ↔
    Closes (depth + 1) text body ∧ body ++ rest = text := by
  constructor
  · exact fun h => ⟨closes_of_blockComment h, blockComment_append h⟩
  · rintro ⟨hcloses, htext⟩
    obtain ⟨body', rest', h, -⟩ := exists_blockComment hcloses.front hcloses.closed
    obtain rfl := hcloses.unique (closes_of_blockComment h)
    rw [h, List.append_cancel_left ((blockComment_append h).trans htext.symm)]

theorem blockComment_eq_none_iff : blockComment depth text = none ↔
    ∀ s, s <+: text → depthBehind (depth + 1) s ≠ 0 := by
  constructor
  · intro h s hs hclosed
    obtain ⟨body, rest, hread, -⟩ := exists_blockComment hs hclosed
    rw [h] at hread
    cases hread
  · intro h
    rcases hread : blockComment depth text with - | ⟨body, rest⟩
    · rfl
    · exact absurd (commentTail_of_blockComment hread).depthBehind_eq
        (h body ⟨rest, blockComment_append hread⟩)

/-! ## The loop over the bytes -/

/-- The number of comments that are open, and the place that is reached. -/
structure CommentScan where
  depth : Int
  offset : Nat

namespace CommentScan

/-- How a turn of the loop ends. -/
inductive Turn where
  | goesOn (next : CommentScan)
  | closes (last : CommentScan)

/-- The state that a turn leaves. -/
def Turn.scan : Turn → CommentScan
  | .goesOn next => next
  | .closes last => last

/-- Behind the opening sign. -/
def start : CommentScan :=
  ⟨1, 0⟩

/-- One turn: the two bytes at the place are a sign that opens a comment, a sign that closes one, or
the first of them is passed over. -/
def turn (bytes : List UInt8) (scan : CommentScan) : Turn :=
  match bytes[scan.offset]?, bytes[scan.offset + 1]? with
  | some 40, some 42 => .goesOn ⟨scan.depth + 1, scan.offset + 2⟩
  | some 42, some 41 =>
    let next : CommentScan := ⟨scan.depth - 1, scan.offset + 2⟩
    if next.depth = 0 then .closes next else .goesOn next
  | _, _ => .goesOn ⟨scan.depth, scan.offset + 1⟩

theorem offset_lt_turn (bytes : List UInt8) (scan : CommentScan) :
    scan.offset < (scan.turn bytes).scan.offset := by
  unfold turn
  split
  · simp [Turn.scan]
  · dsimp only
    split <;> simp [Turn.scan]
  · simp [Turn.scan]

/-- The place behind the comment, if it is closed before the bytes end. -/
def run (bytes : List UInt8) (scan : CommentScan) : Option Nat :=
  if scan.offset < bytes.length then
    match h : scan.turn bytes with
    | .goesOn next =>
      have : scan.offset < next.offset := by
        have hlt := offset_lt_turn bytes scan
        rwa [h] at hlt
      run bytes next
    | .closes last => some last.offset
  else none
termination_by bytes.length - scan.offset

/-- The states at which turns of the loop start. -/
inductive Passed (bytes : List UInt8) : CommentScan → Prop
  | start : Passed bytes start
  | turn {scan next : CommentScan} (h : Passed bytes scan) (hmore : scan.offset < bytes.length)
    (hturn : scan.turn bytes = .goesOn next) : Passed bytes next

variable {depth : Int} {b : UInt8} {before bytes more : List UInt8}

theorem turn_open (before more : List UInt8) (depth : Int) :
    turn (before ++ 40 :: 42 :: more) ⟨depth, before.length⟩ =
      .goesOn ⟨depth + 1, before.length + 2⟩ := by
  simp [turn]

theorem turn_close (before more : List UInt8) (depth : Int) :
    turn (before ++ 42 :: 41 :: more) ⟨depth, before.length⟩ =
      if depth - 1 = 0 then .closes ⟨depth - 1, before.length + 2⟩
      else .goesOn ⟨depth - 1, before.length + 2⟩ := by
  simp [turn]

theorem turn_other (hopen : b = 40 → more.head? ≠ some 42) (hclose : b = 42 → more.head? ≠ some 41) :
    turn (before ++ b :: more) ⟨depth, before.length⟩ = .goesOn ⟨depth, before.length + 1⟩ := by
  have hfirst : (before ++ b :: more)[before.length]? = some b := by simp
  have hsecond : (before ++ b :: more)[before.length + 1]? = more.head? := by
    rw [List.getElem?_append_right (Nat.le_add_right _ _), Nat.add_sub_cancel_left,
      List.getElem?_cons_succ, List.head?_eq_getElem?]
  unfold turn
  dsimp only
  rw [hfirst, hsecond]
  split
  · rename_i hb hmore
    exact absurd hmore (hopen (Option.some.inj hb))
  · rename_i hb hmore
    exact absurd hmore (hclose (Option.some.inj hb))
  · rfl

theorem run_of_goesOn {scan next : CommentScan} (hmore : scan.offset < bytes.length)
    (hturn : scan.turn bytes = .goesOn next) : run bytes scan = run bytes next := by
  rw [run, if_pos hmore]
  split
  · rename_i hturn'
    rw [hturn] at hturn'
    cases hturn'
    rfl
  · rename_i hturn'
    rw [hturn] at hturn'
    cases hturn'

theorem run_of_closes {scan last : CommentScan} (hmore : scan.offset < bytes.length)
    (hturn : scan.turn bytes = .closes last) : run bytes scan = some last.offset := by
  rw [run, if_pos hmore]
  split
  · rename_i hturn'
    rw [hturn] at hturn'
    cases hturn'
  · rename_i hturn'
    rw [hturn] at hturn'
    cases hturn'
    rfl

theorem run_open (before more : List UInt8) (depth : Int) :
    run (before ++ 40 :: 42 :: more) ⟨depth, before.length⟩ =
      run ((before ++ [40, 42]) ++ more) ⟨depth + 1, (before ++ [40, 42]).length⟩ := by
  rw [run_of_goesOn (by simp) (turn_open before more depth), List.length_append, List.append_assoc]
  rfl

theorem run_close (before more : List UInt8) (h : depth - 1 ≠ 0) :
    run (before ++ 42 :: 41 :: more) ⟨depth, before.length⟩ =
      run ((before ++ [42, 41]) ++ more) ⟨depth - 1, (before ++ [42, 41]).length⟩ := by
  have hturn := turn_close before more depth
  rw [if_neg h] at hturn
  rw [run_of_goesOn (by simp) hturn, List.length_append, List.append_assoc]
  rfl

/-- A byte that starts no sign is passed over. -/
theorem run_other (hopen : b = 40 → more.head? ≠ some 42) (hclose : b = 42 → more.head? ≠ some 41) :
    run (before ++ b :: more) ⟨depth, before.length⟩ =
      run ((before ++ [b]) ++ more) ⟨depth, (before ++ [b]).length⟩ := by
  rw [run_of_goesOn (by simp) (turn_other hopen hclose), List.length_append, List.append_assoc]
  rfl

/-- Bytes that are in no sign are passed over. -/
theorem run_append {part : List UInt8} (hpart : ∀ b ∈ part, b ≠ 40 ∧ b ≠ 42) :
    run (before ++ (part ++ more)) ⟨depth, before.length⟩ =
      run ((before ++ part) ++ more) ⟨depth, (before ++ part).length⟩ := by
  induction part generalizing before with
  | nil => rw [List.append_nil, List.nil_append]
  | cons b part ih =>
    obtain ⟨hopen, hclose⟩ := hpart b List.mem_cons_self
    rw [List.cons_append, run_other (absurd · hopen) (absurd · hclose),
      ih fun b hb => hpart b (List.mem_cons_of_mem _ hb), List.append_assoc before]
    rfl

/-- A character that starts no sign is passed over, whatever its encoding. -/
theorem run_char {c : Char} {s : List Char} (hopen : c = '(' → s.head? ≠ some '*')
    (hclose : c = '*' → s.head? ≠ some ')') :
    run (before ++ Text.encode (c :: s)) ⟨depth, before.length⟩ =
      run ((before ++ String.utf8EncodeChar c) ++ Text.encode s)
        ⟨depth, (before ++ String.utf8EncodeChar c).length⟩ := by
  rw [Text.encode, List.flatMap_cons, ← Text.encode]
  by_cases hleft : c = '('
  · subst hleft
    refine run_other (fun _ hs => hopen rfl ?_) (absurd · (by decide))
    exact Text.head?_of_head?_encode (by decide) rfl hs
  by_cases hstar : c = '*'
  · subst hstar
    refine run_other (absurd · (by decide)) (fun _ hs => hclose rfl ?_)
    exact Text.head?_of_head?_encode (by decide) rfl hs
  · apply run_append
    rintro b hb
    constructor
    · rintro rfl
      exact hleft (Text.eq_of_mem_encodeChar (by decide) rfl hb)
    · rintro rfl
      exact hstar (Text.eq_of_mem_encodeChar (by decide) rfl hb)

/-- The place behind a text that is read after a sign of two bytes is the one behind both. -/
theorem map_behind_sign {c d : Char} {a b : UInt8} {read : Option (List Char × List Char)}
    (h : Text.bytes [c, d] = 2) :
    (read.map fun p => (before ++ [a, b]).length + Text.bytes p.1) =
      (read.map fun p => (c :: d :: p.1, p.2)).map fun p => before.length + Text.bytes p.1 := by
  rw [Option.map_map]
  apply congrArg (Option.map · read)
  funext p
  rw [Function.comp_apply, Text.bytes_sign h, List.length_append]
  exact Nat.add_assoc before.length 2 _

/-- The loop over the bytes stops behind the text that is read character by character. -/
theorem run_encode (depth : Nat) (text : List Char) (before : List UInt8) :
    run (before ++ Text.encode text) ⟨depth + 1, before.length⟩ =
      (blockComment depth text).map fun p => before.length + Text.bytes p.1 := by
  -- `before` has been passed already, and each turn makes it longer
  fun_induction blockComment depth text generalizing before with
  | case1 => simp [run, Text.encode]
  | case2 depth text ih =>
    rw [show Text.encode ('(' :: '*' :: text) = 40 :: 42 :: Text.encode text from rfl, run_open]
    have hread := ih (before ++ [40, 42])
    push_cast at hread
    rw [hread]
    exact map_behind_sign rfl
  | case3 text =>
    have hturn := turn_close before (Text.encode text) 1
    rw [if_pos (by decide)] at hturn
    exact run_of_closes (by simp) hturn
  | case4 depth text ih =>
    rw [show Text.encode ('*' :: ')' :: text) = 42 :: 41 :: Text.encode text from rfl,
      run_close _ _ (by push_cast; omega)]
    have hread := ih (before ++ [42, 41])
    push_cast
    rw [add_sub_cancel_right, hread]
    exact map_behind_sign rfl
  | case5 depth c text hopen hclose hclose' ih =>
    rw [run_char, ih, Option.map_map]
    · apply congrArg (Option.map · _)
      funext p
      simp [Nat.add_assoc]
    · rintro rfl hhead
      obtain ⟨t, rfl⟩ := List.head?_eq_some_iff.mp hhead
      exact hopen t rfl rfl
    · rintro rfl hhead
      obtain ⟨t, rfl⟩ := List.head?_eq_some_iff.mp hhead
      cases depth with
      | zero => exact hclose t rfl rfl rfl
      | succ depth => exact hclose' depth t rfl rfl rfl

theorem run_start (text : List Char) : run (Text.encode text) start =
    (blockComment 0 text).map fun p => Text.bytes p.1 := by
  have h := run_encode 0 text []
  simpa [start] using h

theorem run_start_eq_some_iff {text : List Char} {stop : Nat} :
    run (Text.encode text) start = some stop ↔
      ∃ body, Closes 1 text body ∧ stop = Text.bytes body := by
  rw [run_start, Option.map_eq_some_iff]
  constructor
  · rintro ⟨⟨body, rest⟩, hread, rfl⟩
    exact ⟨body, closes_of_blockComment hread, rfl⟩
  · rintro ⟨body, hbody, rfl⟩
    obtain ⟨rest, hrest⟩ := hbody.front
    exact ⟨(body, rest), blockComment_eq_some_iff.mpr ⟨hbody, hrest⟩, rfl⟩

/-! ## The counter -/

/-- A turn that starts inside of a comment takes the counter to zero at the lowest, and then the
loop ends. No turn goes beyond the end of the bytes. -/
theorem turn_bounds {scan : CommentScan} (hdepth : 0 < scan.depth)
    (hmore : scan.offset < bytes.length) :
    0 ≤ (scan.turn bytes).scan.depth ∧ (scan.turn bytes).scan.offset ≤ bytes.length ∧
      ∀ next, scan.turn bytes = .goesOn next → 0 < next.depth := by
  unfold turn
  split
  · rename_i hsecond
    obtain ⟨hlt, -⟩ := List.getElem?_eq_some_iff.mp hsecond
    refine ⟨?_, hlt, ?_⟩
    · show 0 ≤ scan.depth + 1
      omega
    · rintro next ⟨⟩
      show 0 < scan.depth + 1
      omega
  · rename_i hsecond
    obtain ⟨hlt, -⟩ := List.getElem?_eq_some_iff.mp hsecond
    dsimp only
    split
    · rename_i hzero
      exact ⟨hzero.ge, hlt, nofun⟩
    · refine ⟨?_, hlt, ?_⟩
      · show 0 ≤ scan.depth - 1
        omega
      · rintro next ⟨⟩
        show 0 < scan.depth - 1
        omega
  · refine ⟨hdepth.le, hmore, ?_⟩
    rintro next ⟨⟩
    exact hdepth

/-- At every turn of the loop a comment is open. -/
theorem Passed.depth_pos {scan : CommentScan} (h : Passed bytes scan) : 0 < scan.depth := by
  induction h with
  | start => exact Int.one_pos
  | turn _ hmore hturn ih => exact (turn_bounds ih hmore).2.2 _ hturn

end CommentScan

/-! ## Reading -/

namespace Cursor

variable {cursor : Cursor} {piece : List Char}

/-- A blank or comment in front makes no difference but to the place. -/
theorem next_of_piece? (h : Trivia.piece? cursor.rest = some (piece, rest)) :
    cursor.next = (cursor.past piece rest).next := by
  have hskip : cursor.skipTrivia = (cursor.past piece rest).skipTrivia := by
    rw [skipTrivia, skipTrivia, Trivia.skip_of_piece? h]
    simp [past, Nat.add_assoc]
  rw [next, next, hskip]

theorem next_of_blockComment (hrest : cursor.rest = '(' :: '*' :: text)
    (h : blockComment 0 text = some (body, rest)) : cursor.next =
      next ⟨cursor.offset + 2 + Text.bytes body, cursor.line + Text.newlines body, rest⟩ := by
  have hpiece : Trivia.piece? cursor.rest = some ('(' :: '*' :: body, rest) := by
    rw [hrest, Trivia.piece?, h]
    rfl
  rw [next_of_piece? hpiece, past, Text.bytes_sign rfl, ← Nat.add_assoc, Text.newlines,
    List.count_cons_of_ne (by decide), List.count_cons_of_ne (by decide)]
  rfl

theorem next_of_unclosed (hrest : cursor.rest = '(' :: '*' :: text)
    (h : blockComment 0 text = none) : cursor.next =
      (.error (.lexical .commentUnclosed ⟨cursor.offset, cursor.offset + 2, cursor.line⟩),
        ⟨cursor.offset + 2, cursor.line, text⟩) := by
  have hpiece : Trivia.piece? cursor.rest = none := by
    rw [hrest, Trivia.piece?, h]
    rfl
  have hskip : cursor.skipTrivia = cursor := by
    rw [skipTrivia, skip_of_piece?_eq_none hpiece]
    rfl
  rw [next, hskip]
  dsimp only
  rw [hrest]
  rfl

end Cursor

/-- The comment whose opening sign stands in front of a text ends with the shortest text that takes
the depth of nesting from one to zero. The loop over the bytes stops there, at a character boundary,
and its counter is never negative. If there is no such text, then the opening sign is the fault and
reading goes on directly behind it. -/
theorem Comment.read_to_shortest_end (text : List Char) :
    let scanned := CommentScan.run (Text.encode text) .start
    (scanned.isSome ↔ ∃ s, s <+: text ∧ depthBehind 1 s = 0) ∧
    (∀ stop, scanned = some stop ↔ ∃ body, Closes 1 text body ∧ stop = Text.bytes body) ∧
    (∀ stop, scanned = some stop → stop ≤ Text.bytes text ∧ Text.IsBoundary text stop) ∧
    (∀ scan, CommentScan.Passed (Text.encode text) scan → 0 < scan.depth ∧
      (scan.offset < Text.bytes text → 0 ≤ (scan.turn (Text.encode text)).scan.depth)) ∧
    (∀ body rest, blockComment 0 text = some (body, rest) ↔
      Closes 1 text body ∧ body ++ rest = text) ∧
    (∀ cursor : Cursor, cursor.rest = '(' :: '*' :: text →
      (∀ body rest, Closes 1 text body → body ++ rest = text → cursor.next =
        Cursor.next ⟨cursor.offset + 2 + Text.bytes body, cursor.line + Text.newlines body, rest⟩) ∧
      ((∀ s, s <+: text → depthBehind 1 s ≠ 0) → cursor.next =
        (.error (.lexical .commentUnclosed ⟨cursor.offset, cursor.offset + 2, cursor.line⟩),
          ⟨cursor.offset + 2, cursor.line, text⟩))) ∧
    LexicalError.commentUnclosed.message = "EOF in comment" := by
  intro scanned
  have hcloses (body rest : List Char) : blockComment 0 text = some (body, rest) ↔
      Closes 1 text body ∧ body ++ rest = text := blockComment_eq_some_iff
  have hnone : blockComment 0 text = none ↔ ∀ s, s <+: text → depthBehind 1 s ≠ 0 :=
    blockComment_eq_none_iff
  have hstop (stop : Nat) : scanned = some stop ↔
      ∃ body, Closes 1 text body ∧ stop = Text.bytes body := CommentScan.run_start_eq_some_iff
  refine ⟨?_, hstop, ?_, ?_, hcloses, ?_, rfl⟩
  · rw [show scanned = _ from CommentScan.run_start text, Option.isSome_map,
      Option.isSome_iff_ne_none, Ne, hnone]
    simp only [not_forall, not_not, exists_prop]
  · intro stop h
    obtain ⟨body, ⟨⟨rest, rfl⟩, -, -⟩, rfl⟩ := (hstop stop).mp h
    rw [Text.bytes_append]
    exact ⟨Nat.le_add_right _ _, body, rest, rfl, rfl⟩
  · intro scan h
    refine ⟨h.depth_pos, fun hmore => ?_⟩
    rw [← Text.length_encode] at hmore
    exact (CommentScan.turn_bounds h.depth_pos hmore).1
  · intro cursor hrest
    constructor
    · intro body rest hbody htext
      exact Cursor.next_of_blockComment hrest ((hcloses body rest).mpr ⟨hbody, htext⟩)
    · intro h
      exact Cursor.next_of_unclosed hrest (hnone.mpr h)

/-- Behind a first `(*` the text `(*)` opens a second comment, and two signs are left to close. -/
example : blockComment 0 "(*)*)*)x".toList = some ("(*)*)*)".toList, ['x']) := by
  decide

end Cool
