import Cool.Proofs.Grammar.Takes
import Cool.Proofs.Grammar.Traced

/-!
# Parsers descend

A parser is looked at from a number of tokens on: it makes calls that start with fewer tokens left,
or with as many and a lower rank, and each of them descends. Where it gives a value, it may be known
to have taken a token, and what follows it then may make any calls. It never uses up an allowance.

* `Stream.Lexed`, `Fault.Exhausts` : streams of a lexer, and the fault that they never lead to;
* `Parser.Consumes` : the tokens that a parser without calls takes;
* `Traced.Descends` : the calls, and the tokens, of a parser with a record;
* `Descends.bind`, `Descends.bind_taken`, `descends_accept`, ... : sequences;
* `descends_enter` : a call;
* `descends_manyUntil`, `descends_commaList`, ... : repetitions.
-/

namespace Cool

/-- The fault of a parser that has used up its allowance. -/
def Fault.Exhausts (fault : Fault) : Prop :=
  ∃ span, fault = .grammatical .nestedTooDeeply span

/-- What a lexer leaves of a text: tokens, and the end of the text or a fault of its own. -/
structure Stream.Lexed (s : Stream) : Prop where
  tokens : ∀ token ∈ s.ahead, token.kind ≠ .endOfFile
  ended : s.Ended
  fault : ∀ fault, s.ending = .error fault → ¬ fault.Exhausts

variable {α β : Type} {m m' d r r' k : Nat}

/-! ## Parsers without calls -/

namespace Parser

variable {p : Parser α} {s s' : Stream}

/-- What is asked of a result: `d` of `m` tokens have been taken, and no allowance is used up. -/
def Consumed (d m : Nat) : Except Fault (α × Stream) → Prop
  | .ok (_, s) => s.Lexed ∧ s.ahead.length + d ≤ m
  | .error fault => ¬ fault.Exhausts

theorem Consumed.mono {o : Except Fault (α × Stream)} (h : Consumed d m o) {d' : Nat}
    (hle : d' + m ≤ d + m') : Consumed d' m' o := by
  cases o with
  | error fault => exact h
  | ok out =>
    have hless : out.2.ahead.length + d ≤ m := h.2
    exact ⟨h.1, by omega⟩

/-- The parser takes `d` tokens at least, if it gives a value. -/
def Consumes (d : Nat) (p : Parser α) : Prop :=
  ∀ s, s.Lexed → Consumed d s.ahead.length (p s)

theorem Consumes.mono (h : Consumes d p) (hle : k ≤ d) : Consumes k p :=
  fun s hs => (h s hs).mono (by omega)

theorem consumes_pure (x : α) : Consumes 0 (pure x) :=
  fun _ hs => ⟨hs, Nat.le_refl _⟩

theorem consumes_fail {error : GrammarError} (h : error ≠ .nestedTooDeeply) (span : Span) :
    Consumes d (fail error span : Parser α) := by
  rintro s - ⟨span', hspan'⟩
  cases hspan'
  exact h rfl

theorem consumes_lastSpan : Consumes 0 lastSpan :=
  fun _ hs => ⟨hs, Nat.le_refl _⟩

theorem consumes_peek : Consumes 0 peek := by
  intro s hs
  unfold peek
  split
  · exact ⟨hs, Nat.le_refl _⟩
  · cases hending : s.ending with
    | error fault => exact hs.fault fault hending
    | ok eof => exact ⟨hs, Nat.le_refl _⟩

/-- Taking a token, or looking at the end once more: it is never used up. -/
theorem consumes_take : Consumes 0 take := by
  rintro ⟨ahead, ending, last⟩ hs
  unfold take
  cases ahead with
  | nil =>
    cases ending with
    | error fault => exact hs.fault fault rfl
    | ok eof => exact ⟨⟨hs.tokens, hs.ended, hs.fault⟩, Nat.le_refl _⟩
  | cons token ahead =>
    exact ⟨⟨(List.forall_mem_cons.mp hs.tokens).2, hs.ended, hs.fault⟩, Nat.le_succ _⟩

theorem Consumes.bind {f : α → Parser β} (hp : Consumes k p) (hf : ∀ x, Consumes d (f x)) :
    Consumes (k + d) (p >>= f) := by
  intro s hs
  have hfirst := hp s hs
  cases hrun : p s with
  | error fault =>
    rw [bind_of_eq_error hrun]
    rw [hrun] at hfirst
    exact hfirst
  | ok out =>
    rw [bind_of_eq_ok hrun]
    rw [hrun] at hfirst
    obtain ⟨hlexed, hless⟩ := hfirst
    exact (hf out.1 out.2 hlexed).mono (by omega)

/-- A token that is not the end is taken from those that are left. -/
theorem length_of_take {token : Token} (hs : s.Lexed) (h : take s = .ok (token, s'))
    (hkind : token.kind ≠ .endOfFile) : s'.ahead.length + 1 ≤ s.ahead.length := by
  obtain ⟨-, -, hahead | ⟨-, heof, -⟩⟩ := cases_take hs.ended h
  · exact Nat.le_of_eq (by rw [hahead, List.length_cons])
  · exact absurd heof hkind

/-- A parser that refuses the end of the text takes a token. -/
theorem consumes_take_bind {f : Token → Parser β} (hf : ∀ token, Consumes 0 (f token))
    (heof : ∀ token, token.kind = .endOfFile → Consumes 1 (f token)) :
    Consumes 1 (take >>= f) := by
  intro s hs
  have htake := consumes_take s hs
  cases hrun : take s with
  | error fault =>
    rw [bind_of_eq_error hrun]
    rw [hrun] at htake
    exact htake
  | ok out =>
    rw [bind_of_eq_ok hrun]
    rw [hrun] at htake
    obtain ⟨hlexed, hless⟩ := htake
    by_cases hkind : out.1.kind = .endOfFile
    · exact (heof out.1 hkind out.2 hlexed).mono (by omega)
    · have htaken := length_of_take hs hrun hkind
      exact (hf out.1 out.2 hlexed).mono (by omega)

theorem consumes_check (what : Category) : Consumes 0 (check what) :=
  consumes_peek.bind fun _ => consumes_pure _

theorem consumes_accept (what : Category) : Consumes 0 (accept what) := by
  rw [accept]
  refine (consumes_check what).bind (d := 0) fun found => ?_
  split
  · exact consumes_take.bind fun _ => consumes_pure true
  · exact consumes_pure false

theorem length_of_accept {what : Category} (hwhat : what ≠ .endOfFile) (hs : s.Lexed)
    (h : accept what s = .ok (true, s')) : s'.ahead.length + 1 ≤ s.ahead.length := by
  obtain ⟨found, s₁, hcheck, hrest⟩ := exists_of_bind h
  obtain ⟨token, s₂, hpeek, hfound⟩ := exists_of_bind hcheck
  obtain ⟨rfl, hnext⟩ := eq_of_peek hs.ended hpeek
  cases hfound
  split at hrest
  · rename_i hfound
    obtain ⟨taken, s₃, htake, hdone⟩ := exists_of_bind hrest
    cases hdone
    obtain ⟨-, -, hahead | ⟨-, -, heof⟩⟩ := cases_take hs.ended htake
    · exact Nat.le_of_eq (by rw [hahead, List.length_cons])
    · rw [← hnext, heof] at hfound
      exact absurd (beq_iff_eq.mp hfound).symm hwhat
  · cases hrest

theorem consumes_expect {what : Category} (hwhat : what ≠ .endOfFile) :
    Consumes 1 (expect what) := by
  rw [expect]
  refine consumes_take_bind (fun token => ?_) fun token hkind => ?_
  · split
    · exact consumes_pure token
    · exact consumes_fail (by simp) _
  · rw [hkind, if_neg (show Kind.endOfFile.category ≠ what from Ne.symm hwhat)]
    exact consumes_fail (by simp) _

theorem consumes_typeId : Consumes 1 typeId := by
  rw [typeId]
  refine consumes_take_bind (fun token => ?_) fun token hkind => ?_
  · split
    · exact consumes_pure _
    · exact consumes_fail (by simp) _
  · rw [hkind]
    exact consumes_fail (by simp) _

theorem consumes_objectId : Consumes 1 objectId := by
  rw [objectId]
  refine consumes_take_bind (fun token => ?_) fun token hkind => ?_
  · split
    · exact consumes_pure _
    · exact consumes_fail (by simp) _
  · rw [hkind]
    exact consumes_fail (by simp) _

end Parser

/-! ## Parsers with calls -/

/-- What is asked of a run with `left` tokens in front of it, which are `m` at most: its calls
descend and start below `m` and the rank `r`, one behind the other, it takes `d` tokens of the `m`
if it gives a value, and it uses up no allowance. -/
structure Recorded.Descends (m d r left : Nat) (o : Recorded α) : Prop where
  calls : ∀ c ∈ o.calls, c.Descends
  below : ∀ c ∈ o.calls, c.Below m r
  row : CallTree.Row left o.calls o.rest
  result : Parser.Consumed d m o.result

namespace Recorded.Descends

variable {left : Nat} {o : Recorded α}

theorem mono (h : o.Descends m d r left) (hm : m ≤ m') (hr : r ≤ r') (hd : k ≤ d) :
    o.Descends m' k r' left where
  calls := h.calls
  below c hc := (h.below c hc).mono hm hr
  row := h.row
  result := h.result.mono (by omega)

end Recorded.Descends

theorem Recorded.exists_of_mem_rest {o : Recorded α} (h : k ∈ o.rest) :
    ∃ x s, o.result = .ok (x, s) ∧ s.ahead.length = k := by
  unfold Recorded.rest at h
  cases hresult : o.result with
  | error fault =>
    rw [hresult] at h
    cases h
  | ok out =>
    rw [hresult] at h
    cases h
    exact ⟨out.1, out.2, rfl, rfl⟩

namespace Traced

open Cool.Parser (take accept expect Consumes)

/-- From `m` tokens on, or fewer, the parser makes calls that descend and start with fewer than `m`
tokens left, or with `m` and a rank less than `r`; it takes `d` of them if it gives a value. -/
def Descends (m d r : Nat) (p : Traced α) : Prop :=
  ∀ s, s.Lexed → s.ahead.length ≤ m → (p s).Descends m d r s.ahead.length

variable {p : Traced α} {f : α → Traced β}

theorem Descends.mono (h : Descends m d r p) (hr : r ≤ r') (hd : k ≤ d) : Descends m k r' p :=
  fun s hs hle => (h s hs hle).mono (Nat.le_refl m) hr hd

theorem Descends.zero (h : Descends m 1 r p) : Descends m 0 r p :=
  h.mono (Nat.le_refl r) (Nat.zero_le 1)

theorem descends_pure (x : α) : Descends m 0 r (pure x : Traced α) := by
  intro s hs hle
  refine ⟨List.forall_mem_nil _, List.forall_mem_nil _, .nil fun k hk => ?_, hs, hle⟩
  cases hk
  exact Nat.le_refl _

/-- A parser that makes no calls. -/
theorem descends_liftM {p : Parser α} (h : Consumes d p) :
    Descends m d r (liftM p : Traced α) := by
  intro s hs hle
  have hresult : Parser.Consumed d s.ahead.length (p s) := h s hs
  refine ⟨List.forall_mem_nil _, List.forall_mem_nil _, .nil fun k hk => ?_,
    hresult.mono (by omega)⟩
  obtain ⟨x, s', hrun, rfl⟩ := Recorded.exists_of_mem_rest hk
  rw [show p s = .ok (x, s') from hrun] at hresult
  have hless : s'.ahead.length + d ≤ s.ahead.length := hresult.2
  omega

/-- What follows the first part of a sequence runs with what that has left. -/
theorem descends_run_bind {s : Stream} (hp : (p s).Descends m k r s.ahead.length)
    (hf : ∀ x s', (p s).result = .ok (x, s') → s'.Lexed → s'.ahead.length + k ≤ m →
      (f x s').Descends m d r s'.ahead.length) :
    ((p >>= f) s).Descends m d r s.ahead.length := by
  rw [run_bind]
  obtain ⟨hcalls, hbelow, hrow, htaken⟩ := hp
  unfold Recorded.rest at hrow
  cases hresult : (p s).result with
  | error fault =>
    rw [hresult] at hrow htaken
    exact ⟨hcalls, hbelow, hrow, htaken⟩
  | ok out =>
    obtain ⟨x, s'⟩ := out
    rw [hresult] at hrow htaken
    have hmore := hf x s' hresult htaken.1 htaken.2
    exact ⟨List.forall_mem_append.mpr ⟨hcalls, hmore.calls⟩,
      List.forall_mem_append.mpr ⟨hbelow, hmore.below⟩, hrow.append hmore.row, hmore.result⟩

theorem Descends.bind (hp : Descends m k r p) (hf : ∀ x, Descends m d r (f x)) :
    Descends m d r (p >>= f) :=
  fun s hs hle => descends_run_bind (hp s hs hle) fun x s' _ hs' hle' => hf x s' hs' (by omega)

/-- What comes with fewer tokens left is below any call with `m` of them. -/
theorem Descends.below (h : Descends k 0 5 p) (hk : k + 1 = m) {s : Stream} (hs : s.Lexed)
    (hle : s.ahead.length ≤ k) : (p s).Descends m 1 r s.ahead.length := by
  obtain ⟨hcalls, hbelow, hrow, hresult⟩ := h s hs hle
  refine ⟨hcalls, fun c hc => Or.inl ?_, hrow, hresult.mono (by omega)⟩
  have hc := hbelow c hc
  unfold CallTree.Below at hc
  omega

/-- Behind a token that has been taken, any calls may be made. -/
theorem Descends.bind_taken (hp : Descends m 1 r p)
    (hf : ∀ x k, k + 1 = m → Descends k 0 5 (f x)) : Descends m 1 r (p >>= f) := by
  intro s hs hle
  refine descends_run_bind (hp s hs hle) fun x s' _ hs' hle' => ?_
  exact (hf x (m - 1) (by omega)).below (by omega) hs' (by omega)

theorem descends_liftM_bind {p : Parser α} (hp : Parser.Consumes k p)
    (hf : ∀ x, Descends m d r (f x)) : Descends m d r (liftM p >>= f) :=
  (descends_liftM hp).bind hf

theorem descends_liftM_bind_taken {p : Parser α} (hp : Parser.Consumes 1 p)
    (hf : ∀ x k, k + 1 = m → Descends k 0 5 (f x)) : Descends m 1 r (liftM p >>= f) :=
  (descends_liftM hp).bind_taken hf

theorem descends_expect {what : Category} (hwhat : what ≠ .endOfFile) {f : Token → Traced β}
    (hf : ∀ token, Descends m d r (f token)) : Descends m d r (liftM (expect what) >>= f) :=
  descends_liftM_bind (Parser.consumes_expect hwhat) hf

theorem Descends.map {g : α → β} (hp : Descends m k r p) : Descends m 0 r (g <$> p) :=
  hp.bind fun x => descends_pure (g x)

theorem descends_ite {c : Prop} [Decidable c] {q : Traced α} (hp : Descends m d r p)
    (hq : Descends m d r q) : Descends m d r (if c then p else q) := by
  split
  · exact hp
  · exact hq

/-- A parser that takes a token first, and takes nothing if it is the end of the text. -/
theorem descends_take {f : Token → Traced β}
    (hf : ∀ token k, k + 1 = m → Descends k 0 5 (f token))
    (heof : ∀ token, token.kind = .endOfFile → Descends m 1 r (f token)) :
    Descends m 1 r (liftM take >>= f) := by
  intro s hs hle
  refine descends_run_bind (descends_liftM Parser.consumes_take s hs hle)
    fun token s' htake hs' hle' => ?_
  by_cases hkind : token.kind = .endOfFile
  · exact heof token hkind s' hs' hle'
  · have hless := Parser.length_of_take hs htake hkind
    exact (hf token (m - 1) (by omega)).below (by omega) hs' (by omega)

/-- A parser that takes a token if it is of a category. -/
theorem descends_accept {what : Category} (hwhat : what ≠ .endOfFile) {a b : Traced β}
    (ha : ∀ k, k + 1 = m → Descends k 0 5 a) (hb : Descends m 1 r b) :
    Descends m 1 r (liftM (accept what) >>= fun found => if found = true then a else b) := by
  intro s hs hle
  refine descends_run_bind (descends_liftM (Parser.consumes_accept what) s hs hle)
    fun found s' haccept hs' hle' => ?_
  cases found with
  | false => exact hb s' hs' hle'
  | true =>
    have hless := Parser.length_of_accept hwhat hs haccept
    exact (ha (m - 1) (by omega)).below (by omega) hs' (by omega)

/-- A call, with what is done in it. -/
theorem descends_enter {step : Step} (hr : step.rank < r)
    (hp : ∀ k ≤ m, Descends k 1 step.rank p) : Descends m 1 r (enter step p) := by
  intro s hs hle
  obtain ⟨hcalls, hbelow, hrow, hresult⟩ := hp s.ahead.length hle s hs (Nat.le_refl _)
  have htakes : ∀ k ∈ (p s).rest, k < s.ahead.length := by
    intro k hk
    obtain ⟨x, s', hrun, rfl⟩ := Recorded.exists_of_mem_rest hk
    rw [hrun] at hresult
    exact hresult.2
  refine ⟨?_, ?_, ?_, hresult.mono (by omega)⟩
  · exact List.forall_mem_singleton.mpr (.node htakes hrow hbelow hcalls)
  · exact List.forall_mem_singleton.mpr ((Nat.lt_or_eq_of_le hle).imp_right fun h => ⟨h, hr⟩)
  · show CallTree.Row s.ahead.length [.node step s.ahead.length (p s).rest (p s).calls] (p s).rest
    cases hrest : (p s).rest with
    | none => exact .fails (Nat.le_refl _) rfl
    | some k =>
      exact .cons (Nat.le_refl _) rfl (.nil fun j hj => Nat.le_of_eq (Option.some.inj hj).symm)

/-! ## Repetitions -/

theorem descends_withAllowance {p : Nat → Traced α}
    (hp : ∀ k ≤ m, Descends k d r (p (8 * (k + 1)))) : Descends m d r (withAllowance p) :=
  fun s hs hle => (hp s.ahead.length hle s hs (Nat.le_refl _)).mono hle (Nat.le_refl r)
    (Nat.le_refl d)

/-- An item with a token behind it. -/
theorem descends_item_expect {item : Traced α} (hitem : Descends m 1 r item) {what : Category}
    (hwhat : what ≠ .endOfFile) : Descends m 1 r (do
      let x ← item
      let _ ← expect what
      return x) :=
  hitem.bind_taken fun x _ _ => descends_expect hwhat fun _ => descends_pure x

section Repetitions

variable {loop : Loop} {stop : Category} {item : Traced α}

theorem descends_turn (hitem : ∀ k ≤ m, Descends k 1 4 item) : Descends m 1 5 (turn loop item) :=
  descends_enter (Nat.lt_succ_self 4) hitem

theorem descends_manyUntil {n : Nat} (hitem : ∀ k ≤ m, Descends k 1 4 item) (hn : m < n) :
    Descends m 0 5 (manyUntil loop stop item n) := by
  induction n generalizing m with
  | zero => cases hn
  | succ n ih =>
    rw [manyUntil]
    refine descends_liftM_bind (Parser.consumes_check stop) fun found => ?_
    refine descends_ite (descends_pure []) (Descends.zero ?_)
    refine (descends_turn hitem).bind_taken fun first k hk => ?_
    refine (ih (fun j hj => hitem j (by omega)) (by omega)).bind fun more => ?_
    exact descends_pure (first :: more)

theorem descends_someUntil {n : Nat} (hitem : ∀ k ≤ m, Descends k 1 4 item) (hn : m ≤ n) :
    Descends m 1 5 (someUntil loop stop item n) := by
  refine (descends_turn hitem).bind_taken fun first k hk => ?_
  refine (descends_manyUntil (fun j hj => hitem j (by omega)) (by omega)).bind fun more => ?_
  exact descends_pure (first :: more)

theorem descends_commaItems {n : Nat} (hitem : ∀ k ≤ m, Descends k 1 4 item) (hn : m < n) :
    Descends m 0 5 (commaItems loop item n) := by
  induction n generalizing m with
  | zero => cases hn
  | succ n ih =>
    rw [commaItems]
    refine descends_liftM_bind (Parser.consumes_check _) fun found => ?_
    refine descends_ite (Descends.zero ?_) (descends_pure [])
    have hturn : ∀ k ≤ m, Descends k 1 4 (do
        let _ ← take
        item) :=
      fun k hk => descends_liftM_bind Parser.consumes_take fun _ => hitem k hk
    refine (descends_turn hturn).bind_taken fun first k hk => ?_
    refine (ih (fun j hj => hitem j (by omega)) (by omega)).bind fun more => ?_
    exact descends_pure (first :: more)

theorem descends_commaList {n : Nat} (hitem : ∀ k < m, Descends k 1 4 item) (hn : m ≤ n) :
    Descends m 1 r (commaList loop item n) := by
  unfold commaList
  refine descends_liftM_bind_taken (Parser.consumes_expect (by decide)) fun _ k hk => ?_
  refine descends_liftM_bind (Parser.consumes_check _) fun found => ?_
  extract_lets close
  have hclose : ∀ xs, Descends k 0 5 (close xs) := fun xs =>
    descends_expect (by decide) fun _ => descends_pure xs
  refine descends_ite ((descends_pure []).bind hclose) ?_
  refine ((hitem k (by omega)).mono (by decide) (Nat.le_refl 1)).bind fun first => ?_
  refine (descends_commaItems (fun j hj => hitem j (by omega)) (by omega)).bind fun more => ?_
  exact (descends_pure (first :: more)).bind hclose

end Repetitions

end Traced

end Cool
