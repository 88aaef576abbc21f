import Cool.Proofs.Token.Tiling

/-!
# Looking ahead loses nothing

Calls that look at tokens and calls that take them may follow one another in any order. What they
have taken, and behind it what waits, are the tokens of the text in their order, up to the place
where the cursor stands; and a fault of the text is reported once, by the call whose reading met it.

* `Call`, `Answer`, `Lookahead.call` : the calls on one reader of tokens;
* `Lookahead.after`, `Lookahead.answers`, `Lookahead.consumed` : a list of calls, one after another;
* `Cursor.Reads`, `Lookahead.Moves` : what is read, and what this does to the queue;
* `Lookahead.Ahead` : the same reader, some successful reads further on;
* `Lookahead.lossless` : the account of the tokens and faults after any calls.
-/

namespace Cool

/-- A call on a reader of tokens. -/
inductive Call where
  | take
  | peek
  | peekAt (n : Nat)
  | check (what : Category)
  | checkSecond (what : Category)
  | accept (what : Category)
  | expect (what : Category)
  deriving DecidableEq

/-- What a call answers when it meets no fault. -/
inductive Answer where
  | token (token : Token)
  | truth (truth : Bool)
  deriving DecidableEq

/-- The call only looks. -/
def Call.Looks : Call → Prop
  | peek | peekAt _ | check _ | checkSecond _ => True
  | take | accept _ | expect _ => False

/-- The fault if it is one of the text. A token that is not the expected one is no such fault. -/
def Fault.lexical? : Fault → Option Fault
  | .lexical error span => some (.lexical error span)
  | .grammatical _ _ => none

/-- The fault of the text that a result reports. -/
def lexicalFault? {α : Type} : Except Fault α → Option Fault
  | .error fault => fault.lexical?
  | .ok _ => none

theorem lexicalFault?_map {α β : Type} (f : α → β) (r : Except Fault α) :
    lexicalFault? (r.map f) = lexicalFault? r := by
  cases r <;> rfl

namespace Lookahead

/-- A call, with its answer and what it leaves. -/
def call (l : Lookahead) : Call → Except Fault Answer × Lookahead
  | .take => l.take.map (Except.map .token) id
  | .peek => l.peek.map (Except.map .token) id
  | .peekAt n => (l.peekAt n).map (Except.map .token) id
  | .check what => (l.check what).map (Except.map .truth) id
  | .checkSecond what => (l.checkSecond what).map (Except.map .truth) id
  | .accept what => (l.accept what).map (Except.map .truth) id
  | .expect what => (l.expect what).map (Except.map .token) id

/-- The token that a call takes: `accept` takes one after a true answer only, `expect` whatever its
category is. -/
def consumes (l : Lookahead) : Call → Option Token
  | .take | .expect _ => l.take.1.toOption
  | .accept what =>
    match l.check what with
    | (.ok true, l) => l.take.1.toOption
    | _ => none
  | .peek | .peekAt _ | .check _ | .checkSecond _ => none

/-- What calls leave, made one after another. -/
def after (l : Lookahead) (calls : List Call) : Lookahead :=
  calls.foldl (fun l call => (l.call call).2) l

def answers (l : Lookahead) : List Call → List (Except Fault Answer)
  | [] => []
  | call :: calls => (l.call call).1 :: (l.call call).2.answers calls

/-- The tokens that calls take, made one after another. -/
def consumed (l : Lookahead) : List Call → List Token
  | [] => []
  | call :: calls => (l.consumes call).toList ++ (l.call call).2.consumed calls

variable {l l' : Lookahead}

theorem after_append (l : Lookahead) (calls calls' : List Call) :
    l.after (calls ++ calls') = (l.after calls).after calls' :=
  List.foldl_append

theorem consumed_append (l : Lookahead) (calls calls' : List Call) :
    l.consumed (calls ++ calls') = l.consumed calls ++ (l.after calls).consumed calls' := by
  induction calls generalizing l with
  | nil => rfl
  | cons call calls ih =>
    rw [List.cons_append, consumed, consumed, ih, List.append_assoc]
    rfl

theorem answers_append (l : Lookahead) (calls calls' : List Call) :
    l.answers (calls ++ calls') = l.answers calls ++ (l.after calls).answers calls' := by
  induction calls generalizing l with
  | nil => rfl
  | cons call calls ih =>
    rw [List.cons_append, answers, answers, ih]
    rfl

end Lookahead

/-! ## What is read -/

/-- Reading from one place to another gives the results. -/
inductive Cursor.Reads : Cursor → List (Except Fault Token) → Cursor → Prop
  | nil (c : Cursor) : Reads c [] c
  | cons {c c' c'' : Cursor} {result : Except Fault Token} {found : List (Except Fault Token)}
    (hnext : c.next = (result, c')) (hmore : Reads c' found c'') : Reads c (result :: found) c''

theorem Cursor.Reads.trans {c c' c'' : Cursor} {found found' : List (Except Fault Token)}
    (h : Reads c found c') (h' : Reads c' found' c'') : Reads c (found ++ found') c'' := by
  induction h with
  | nil => exact h'
  | cons hnext _ ih => exact .cons hnext (ih h')

/-- What is read from a place is what is taken there by a reader that never looks ahead. -/
theorem Cursor.Reads.taken {c c' : Cursor} {found : List (Except Fault Token)}
    (h : Reads c found c') :
    (List.range found.length).map (Lookahead.taken ⟨[], c⟩) = found ∧
      Lookahead.after ⟨[], c⟩ (List.replicate found.length .take) = ⟨[], c'⟩ := by
  induction h with
  | nil => exact ⟨rfl, rfl⟩
  | @cons c c' _ result found hnext _ ih =>
    have htake : Lookahead.take ⟨[], c⟩ = (result, ⟨[], c'⟩) := by
      rw [Lookahead.take, hnext]
    have hcall : (Lookahead.call ⟨[], c⟩ .take).2 = ⟨[], c'⟩ :=
      congrArg Prod.snd htake
    constructor
    · have hlater : Lookahead.taken ⟨[], c⟩ ∘ Nat.succ = Lookahead.taken ⟨[], c'⟩ := by
        ext n : 1
        exact congrArg (fun r => Lookahead.taken r.2 n) htake
      rw [List.length_cons, List.range_succ_eq_map, List.map_cons, List.map_map, hlater, ih.1]
      exact congrArg (fun r => r.1 :: found) htake
    · show Lookahead.after (Lookahead.call ⟨[], c⟩ .take).2 _ = _
      rw [hcall]
      exact ih.2

namespace Lookahead

variable {l l' : Lookahead}

/-- From `l` to `l'` the text gave `found`, and the tokens `taken` were taken. -/
structure Moves (l l' : Lookahead) (taken : List Token) (found : List (Except Fault Token)) :
    Prop where
  reads : l.cursor.Reads found l'.cursor
  queue : taken ++ l'.waiting = l.waiting ++ found.filterMap Except.toOption

namespace Moves

variable {l'' : Lookahead} {taken taken' : List Token} {found found' : List (Except Fault Token)}

theorem refl (l : Lookahead) : Moves l l [] [] :=
  ⟨.nil _, (List.append_nil _).symm⟩

theorem trans (h : Moves l l' taken found) (h' : Moves l' l'' taken' found') :
    Moves l l'' (taken ++ taken') (found ++ found') where
  reads := h.reads.trans h'.reads
  queue := by
    rw [List.append_assoc, h'.queue, ← List.append_assoc, h.queue, List.append_assoc,
      List.filterMap_append]

end Moves

/-- What a call reads and takes agrees with its answer: the faults of what it reads are the fault
that it answers. -/
def Accounts {α : Type} (l : Lookahead) (taken : List Token)
    (outcome : Except Fault α × Lookahead) : Prop :=
  ∃ found, Moves l outcome.2 taken found ∧
    found.filterMap lexicalFault? = (lexicalFault? outcome.1).toList

theorem accounts_take (l : Lookahead) : l.Accounts l.take.1.toOption.toList l.take := by
  unfold take
  split
  · rename_i token waiting hwaiting
    refine ⟨[], ⟨.nil _, ?_⟩, rfl⟩
    rw [hwaiting, List.filterMap_nil, List.append_nil]
    rfl
  · rename_i hwaiting
    refine ⟨[l.cursor.next.1], ⟨.cons rfl (.nil _), ?_⟩, ?_⟩
    · rw [hwaiting]
      cases l.cursor.next.1 <;> rfl
    · rcases l.cursor.next.1 with (_ | _) | _ <;> rfl

theorem accounts_fill (l : Lookahead) (missing : Nat) : l.Accounts [] (l.fill missing) := by
  fun_induction fill l missing with
  | case1 l => exact ⟨[], .refl l, rfl⟩
  | case2 l missing token cursor hnext ih =>
    obtain ⟨found, hmoves, hfaults⟩ := ih
    have hread : Moves l ⟨l.waiting ++ [token], cursor⟩ [] [.ok token] :=
      ⟨.cons hnext (.nil _), rfl⟩
    exact ⟨.ok token :: found, hread.trans hmoves, hfaults⟩
  | case3 l missing fault cursor hnext =>
    refine ⟨[.error fault], ⟨.cons hnext (.nil _), (List.append_nil _).symm⟩, ?_⟩
    cases fault <;> rfl

variable {α β : Type} {taken : List Token}

/-- An answer made from another one reports the same fault. -/
theorem Accounts.map {outcome : Except Fault α × Lookahead} (h : l.Accounts taken outcome)
    (f : α → β) : l.Accounts taken (outcome.map (Except.map f) id) := by
  obtain ⟨found, hmoves, hfaults⟩ := h
  refine ⟨found, hmoves, hfaults.trans ?_⟩
  exact congrArg Option.toList (lexicalFault?_map f outcome.1).symm

theorem accounts_peekAt (l : Lookahead) (n : Nat) : l.Accounts [] (l.peekAt n) := by
  obtain ⟨found, hmoves, hfaults⟩ := l.accounts_fill (n + 1 - l.waiting.length)
  unfold peekAt
  rcases hfill : l.fill (n + 1 - l.waiting.length) with ⟨_ | _, filled⟩ <;>
    · rw [hfill] at hmoves hfaults
      exact ⟨found, hmoves, hfaults⟩

theorem accounts_checkAt (l : Lookahead) (n : Nat) (what : Category) :
    l.Accounts [] (l.checkAt n what) :=
  (l.accounts_peekAt n).map _

theorem accounts_accept (l : Lookahead) (what : Category) :
    l.Accounts (l.consumes (.accept what)).toList (l.accept what) := by
  have h : l.Accounts [] (l.check what) := l.accounts_checkAt 0 what
  simp only [consumes, accept]
  rcases hcheck : l.check what with ⟨_ | (_ | _), looked⟩ <;> rw [hcheck] at h
  · exact h
  · exact h
  · obtain ⟨found, hmoves, hfaults⟩ := h
    obtain ⟨found', hmoves', hfaults'⟩ := looked.accounts_take
    refine ⟨found ++ found', hmoves.trans hmoves', ?_⟩
    rw [List.filterMap_append, hfaults, hfaults']
    exact congrArg Option.toList (lexicalFault?_map _ _).symm

theorem accounts_expect (l : Lookahead) (what : Category) :
    l.Accounts (l.consumes (.expect what)).toList (l.expect what) := by
  have h := l.accounts_take
  simp only [consumes, expect]
  rcases htake : l.take with ⟨_ | token, left⟩ <;> rw [htake] at h
  · exact h
  · dsimp only
    split <;> exact h

/-- One call. -/
theorem accounts_call (l : Lookahead) (call : Call) :
    l.Accounts (l.consumes call).toList (l.call call) := by
  cases call with
  | take => exact l.accounts_take.map _
  | peek => exact (l.accounts_peekAt 0).map _
  | peekAt n => exact (l.accounts_peekAt n).map _
  | check what => exact (l.accounts_checkAt 0 what).map _
  | checkSecond what => exact (l.accounts_checkAt 1 what).map _
  | accept what => exact (l.accounts_accept what).map _
  | expect what => exact (l.accounts_expect what).map _

/-! ## A successful look -/

/-- `l'` is `l` with further tokens read into the queue. -/
def Ahead (l l' : Lookahead) : Prop :=
  ∃ missing, l.fill missing = (.ok (), l')

theorem Ahead.refl (l : Lookahead) : Ahead l l :=
  ⟨0, rfl⟩

theorem fill_add {n : Nat} (h : l.fill n = (.ok (), l')) (m : Nat) :
    l.fill (n + m) = l'.fill m := by
  fun_induction fill l n with
  | case1 l =>
    cases h
    rw [Nat.zero_add]
  | case2 l n token cursor hnext ih =>
    rw [Nat.succ_add, fill, hnext]
    exact ih h
  | case3 => cases h

theorem exists_fill_of_add {n m : Nat} (h : l.fill (n + m) = (.ok (), l')) :
    ∃ mid, l.fill n = (.ok (), mid) ∧ mid.fill m = (.ok (), l') := by
  fun_induction fill l n with
  | case1 l =>
    rw [Nat.zero_add] at h
    exact ⟨l, rfl, h⟩
  | case2 l n token cursor hnext ih =>
    rw [Nat.succ_add, fill, hnext] at h
    exact ih h
  | case3 l n fault cursor hnext =>
    rw [Nat.succ_add, fill, hnext] at h
    cases h

theorem exists_waiting_fill {n : Nat} (h : l.fill n = (.ok (), l')) :
    ∃ more, l'.waiting = l.waiting ++ more ∧ more.length = n := by
  fun_induction fill l n with
  | case1 l =>
    cases h
    exact ⟨[], (List.append_nil _).symm, rfl⟩
  | case2 l n token cursor hnext ih =>
    obtain ⟨more, hmore, hlength⟩ := ih h
    refine ⟨token :: more, ?_, congrArg Nat.succ hlength⟩
    rw [hmore, List.append_assoc]
    rfl
  | case3 => cases h

/-- The same answer, and what is left is ahead the second time. -/
def Matches {α : Type} (outcome outcome' : Except Fault α × Lookahead) : Prop :=
  outcome.1 = outcome'.1 ∧ Ahead outcome.2 outcome'.2

theorem Matches.map {α β : Type} {outcome outcome' : Except Fault α × Lookahead}
    (h : Matches outcome outcome') (f : α → β) :
    Matches (outcome.map (Except.map f) id) (outcome'.map (Except.map f) id) :=
  ⟨congrArg (Except.map f) h.1, h.2⟩

/-- A look gives the same token, or the same fault, however far the text was read before. -/
theorem peekAt_ahead (h : Ahead l l') (n : Nat) :
    Matches (l.peekAt n) (l'.peekAt n) := by
  obtain ⟨m, hfill⟩ := h
  obtain ⟨more, hwaiting, hmore⟩ := exists_waiting_fill hfill
  have hlength : l'.waiting.length = l.waiting.length + m := by
    rw [hwaiting, List.length_append, hmore]
  rcases Nat.le_total m (n + 1 - l.waiting.length) with hle | hle
  · -- the further reads are the first of those that this look has to make
    obtain ⟨d, hd⟩ := Nat.exists_eq_add_of_le hle
    have hsame : l.fill (n + 1 - l.waiting.length) = l'.fill (n + 1 - l'.waiting.length) := by
      rw [show n + 1 - l'.waiting.length = d by omega, hd]
      exact fill_add hfill d
    have heq : l.peekAt n = l'.peekAt n := by
      rw [peekAt, peekAt, hsame]
    rw [heq]
    exact ⟨rfl, .refl _⟩
  · -- the token waits already in `l'`
    obtain ⟨d, rfl⟩ := Nat.exists_eq_add_of_le hle
    obtain ⟨mid, hmid, hrest⟩ := exists_fill_of_add hfill
    obtain ⟨first, hfirst, hfirst'⟩ := exists_waiting_fill hmid
    obtain ⟨last, hlast, -⟩ := exists_waiting_fill hrest
    have hl : l.peekAt n = (.ok (mid.waiting.getD n mid.cursor.endToken), mid) := by
      rw [peekAt, hmid]
    have hl' : l'.peekAt n = (.ok (l'.waiting.getD n l'.cursor.endToken), l') := by
      rw [peekAt, show n + 1 - l'.waiting.length = 0 by omega, fill]
    have hn : n < mid.waiting.length := by
      rw [hfirst, List.length_append]
      omega
    rw [hl, hl']
    refine ⟨?_, d, hrest⟩
    rw [hlast, List.getD_append _ _ _ _ hn, List.getD_eq_getElem _ _ hn,
      List.getD_eq_getElem _ _ hn]

/-- What waits first does not matter to what is read behind it. -/
theorem fill_cons (token : Token) (waiting : List Token) (cursor : Cursor) (n : Nat) :
    fill ⟨token :: waiting, cursor⟩ n =
      (fill ⟨waiting, cursor⟩ n).map id fun l => ⟨token :: l.waiting, l.cursor⟩ := by
  induction n generalizing waiting cursor with
  | zero => rfl
  | succ n ih =>
    rw [fill, fill]
    rcases cursor.next with ⟨_ | next, cursor⟩
    · rfl
    · exact ih (waiting ++ [next]) cursor

theorem take_ahead (h : Ahead l l') : Matches l.take l'.take := by
  obtain ⟨m, hfill⟩ := h
  obtain ⟨waiting, cursor⟩ := l
  cases waiting with
  | cons token waiting =>
    rw [fill_cons] at hfill
    rcases hrest : fill ⟨waiting, cursor⟩ m with ⟨_ | _, rest⟩ <;> rw [hrest] at hfill
    · cases hfill
    · cases hfill
      exact ⟨rfl, m, hrest⟩
  | nil =>
    cases m with
    | zero =>
      cases hfill
      exact ⟨rfl, .refl _⟩
    | succ m =>
      rw [fill] at hfill
      rcases hnext : cursor.next with ⟨_ | token, cursor'⟩ <;> rw [hnext] at hfill
      · cases hfill
      · -- the token that is taken here is the first of those that wait there
        replace hfill : fill ⟨[token], cursor'⟩ m = (.ok (), l') := hfill
        rw [fill_cons] at hfill
        have htake : take ⟨[], cursor⟩ = (.ok token, ⟨[], cursor'⟩) := by
          rw [take, hnext]
        rw [htake]
        rcases hrest : fill ⟨[], cursor'⟩ m with ⟨_ | _, rest⟩ <;> rw [hrest] at hfill
        · cases hfill
        · cases hfill
          exact ⟨rfl, m, hrest⟩

theorem checkAt_ahead (h : Ahead l l') (n : Nat) (what : Category) :
    Matches (l.checkAt n what) (l'.checkAt n what) :=
  (peekAt_ahead h n).map _

theorem accept_ahead (h : Ahead l l') (what : Category) :
    Matches (l.accept what) (l'.accept what) := by
  have hcheck : Matches (l.check what) (l'.check what) := checkAt_ahead h 0 what
  unfold accept
  generalize l.check what = outcome at hcheck ⊢
  generalize l'.check what = outcome' at hcheck ⊢
  rcases outcome with ⟨result, looked⟩
  rcases outcome' with ⟨result', looked'⟩
  obtain ⟨rfl, hlooked⟩ : result = result' ∧ Ahead looked looked' := hcheck
  rcases result with _ | (_ | _)
  · exact ⟨rfl, hlooked⟩
  · exact ⟨rfl, hlooked⟩
  · exact (take_ahead hlooked).map _

theorem expect_ahead (h : Ahead l l') (what : Category) :
    Matches (l.expect what) (l'.expect what) := by
  have htake := take_ahead h
  unfold expect
  generalize l.take = outcome at htake ⊢
  generalize l'.take = outcome' at htake ⊢
  rcases outcome with ⟨result, left⟩
  rcases outcome' with ⟨result', left'⟩
  obtain ⟨rfl, hleft⟩ : result = result' ∧ Ahead left left' := htake
  cases result with
  | error fault => exact ⟨rfl, hleft⟩
  | ok token =>
    dsimp only
    split <;> exact ⟨rfl, hleft⟩

theorem call_ahead (h : Ahead l l') (call : Call) : Matches (l.call call) (l'.call call) := by
  cases call with
  | take => exact (take_ahead h).map _
  | peek => exact (peekAt_ahead h 0).map _
  | peekAt n => exact (peekAt_ahead h n).map _
  | check what => exact (checkAt_ahead h 0 what).map _
  | checkSecond what => exact (checkAt_ahead h 1 what).map _
  | accept what => exact (accept_ahead h what).map _
  | expect what => exact (expect_ahead h what).map _

theorem answers_ahead (h : Ahead l l') (calls : List Call) :
    l.answers calls = l'.answers calls := by
  induction calls generalizing l l' with
  | nil => rfl
  | cons call calls ih =>
    obtain ⟨hanswer, hleft⟩ := call_ahead h call
    rw [answers, answers, hanswer, ih hleft]

theorem ahead_of_peekAt {n : Nat} {token : Token} (h : (l.peekAt n).1 = .ok token) :
    Ahead l (l.peekAt n).2 := by
  unfold peekAt at h ⊢
  rcases hfill : l.fill (n + 1 - l.waiting.length) with ⟨_ | _, filled⟩
  · rw [hfill] at h
    cases h
  · exact ⟨_, hfill⟩

theorem exists_of_map_ok {α β : Type} {r : Except Fault α} {f : α → β} {b : β}
    (h : r.map f = .ok b) : ∃ a, r = .ok a := by
  cases r with
  | error => cases h
  | ok a => exact ⟨a, rfl⟩

/-- A look that meets no fault has only read further. -/
theorem ahead_of_looks {look : Call} (hlook : look.Looks) {answer : Answer}
    (h : (l.call look).1 = .ok answer) : Ahead l (l.call look).2 := by
  have hpeekAt {n : Nat} {f : Token → Answer} (hok : (l.peekAt n).1.map f = .ok answer) :
      Ahead l (l.peekAt n).2 := by
    obtain ⟨token, htoken⟩ := exists_of_map_ok hok
    exact ahead_of_peekAt htoken
  have hcheckAt {n : Nat} {what : Category}
      (hok : (l.checkAt n what).1.map Answer.truth = .ok answer) :
      Ahead l (l.checkAt n what).2 := by
    obtain ⟨truth, htruth⟩ := exists_of_map_ok hok
    obtain ⟨token, htoken⟩ := exists_of_map_ok htruth
    exact ahead_of_peekAt htoken
  cases look with
  | peek => exact hpeekAt h
  | peekAt n => exact hpeekAt h
  | check what => exact hcheckAt h
  | checkSecond what => exact hcheckAt h
  | take | accept | expect => cases hlook

/-! ## Any calls -/

/-- What the calls before the `i`th one and the `i`th one read and take. -/
theorem exists_moves (l : Lookahead) (calls : List Call) :
    ∃ found : Nat → List (Except Fault Token),
      (∀ i, Moves l (l.after (calls.take i)) (l.consumed (calls.take i))
        ((List.range i).flatMap found)) ∧
      ∀ i call, calls[i]? = some call → (found i).filterMap lexicalFault? =
        (lexicalFault? ((l.after (calls.take i)).call call).1).toList := by
  have hstep : ∀ i, ∃ found, Moves (l.after (calls.take i)) (l.after (calls.take (i + 1)))
      ((l.after (calls.take i)).consumed calls[i]?.toList) found ∧
      ∀ call, calls[i]? = some call → found.filterMap lexicalFault? =
        (lexicalFault? ((l.after (calls.take i)).call call).1).toList := by
    intro i
    rw [List.take_add_one, after_append]
    cases hcall : calls[i]? with
    | none => exact ⟨[], .refl _, fun call h => by cases h⟩
    | some call =>
      obtain ⟨found, hmoves, hfaults⟩ := (l.after (calls.take i)).accounts_call call
      refine ⟨found, ?_, fun call' h => ?_⟩
      · show Moves _ _ (_ ++ []) found
        rw [List.append_nil]
        exact hmoves
      · cases h
        exact hfaults
  choose found hmoves hfaults using hstep
  refine ⟨found, fun i => ?_, hfaults⟩
  induction i with
  | zero => exact .refl l
  | succ i ih =>
    have h := ih.trans (hmoves i)
    rw [List.range_succ, List.flatMap_append, List.flatMap_singleton, List.take_add_one,
      consumed_append]
    rwa [List.take_add_one] at h

/-- The first results of taking tokens of a text and doing nothing else. -/
def takenFirst (text : String) (n : Nat) : List (Except Fault Token) :=
  (List.range n).map (ofText text).taken

/-- After any calls on a text, what was taken and what waits are the tokens of a first part of the
results, and each call reports the fault of the results that it has read. A look that meets no
fault changes no later answer. -/
theorem lossless (text : String) (calls : List Call) :
    ∃ reached : Nat → Nat, reached 0 = 0 ∧ Monotone reached ∧
      (∀ i, let l := (ofText text).after (calls.take i)
        l.cursor = ((ofText text).after (List.replicate (reached i) .take)).cursor ∧
        (ofText text).consumed (calls.take i) ++ l.waiting =
          (takenFirst text (reached i)).filterMap Except.toOption) ∧
      (∀ i call, calls[i]? = some call →
        ((takenFirst text (reached (i + 1))).drop (reached i)).filterMap lexicalFault? =
          (lexicalFault? (((ofText text).after (calls.take i)).call call).1).toList) ∧
      ∀ look later answer, look.Looks → (((ofText text).after calls).call look).1 = .ok answer →
        (ofText text).answers (calls ++ look :: later) = (ofText text).answers calls ++
          .ok answer :: ((ofText text).after calls).answers later := by
  obtain ⟨found, hmoves, hfaults⟩ := exists_moves (ofText text) calls
  have htaken : ∀ i, takenFirst text ((List.range i).flatMap found).length =
        (List.range i).flatMap found ∧
      (ofText text).after (List.replicate ((List.range i).flatMap found).length .take) =
        ⟨[], ((ofText text).after (calls.take i)).cursor⟩ :=
    fun i => (hmoves i).reads.taken
  have hsucc : ∀ i, (List.range (i + 1)).flatMap found = (List.range i).flatMap found ++ found i :=
    fun i => by rw [List.range_succ, List.flatMap_append, List.flatMap_singleton]
  refine ⟨fun i => ((List.range i).flatMap found).length, rfl, ?_, fun i => ⟨?_, ?_⟩, ?_, ?_⟩
  · refine monotone_nat_of_le_succ fun i => ?_
    rw [hsucc, List.length_append]
    exact Nat.le_add_right _ _
  · rw [(htaken i).2]
  · rw [(htaken i).1]
    exact (hmoves i).queue
  · intro i call hcall
    rw [(htaken (i + 1)).1, hsucc, List.drop_left]
    exact hfaults i call hcall
  · intro look later answer hlook hanswer
    rw [answers_append, answers, hanswer, answers_ahead (ahead_of_looks hlook hanswer)]

-- the first call meets the fault while `x` already waits, and `expect` takes `x` all the same
example :
    let calls := [.peekAt 1, .accept .typeId, .expect .typeId, .peekAt 2, .take, .take, .peek]
    ((ofText "x # y").consumed calls).map (·.kind) = [.objectId "x", .objectId "y", .endOfFile] ∧
      ((ofText "x # y").answers calls).filterMap lexicalFault? =
        [.lexical (.unexpected '#') ⟨2, 3, 1⟩] := by
  decide +kernel

end Lookahead

end Cool
