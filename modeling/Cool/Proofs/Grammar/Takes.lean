import Cool.Proofs.Grammar.Reads

/-!
# What parsers take

A parser that gives a value has taken tokens from the front of the stream, and the value is related
to their kinds. The end of the text may be looked at, but it is not among them.

* `Stream.Ended` : a stream that ends with the end of a text, or with a fault;
* `Parser.Takes` : the value that a parser gives is related to the tokens that it takes;
* `Takes.bind`, `takes_expect`, `takes_accept`, ... : single tokens and sequences;
* `takes_manyUntil`, `takes_commaList`, ... : repetitions.
-/

namespace Cool

/-- The token that ends the stream, if there is one, is the end of a text. -/
def Stream.Ended (s : Stream) : Prop :=
  ∀ eof, s.ending = .ok eof → eof.kind = .endOfFile

/-- The category has one token only. -/
def Category.Marks (what : Category) (k : Kind) : Prop :=
  k ≠ .endOfFile ∧ ∀ k' : Kind, k'.category = what → k' = k

theorem Category.marks_symbol (sign : Symbol) : Category.Marks (.symbol sign) (.symbol sign) := by
  refine ⟨nofun, fun k h => ?_⟩
  cases k <;> cases h
  rfl

theorem Category.marks_keyword (word : Keyword) :
    Category.Marks (.keyword word) (.keyword word) := by
  refine ⟨nofun, fun k h => ?_⟩
  cases k <;> cases h
  rfl

namespace Parser

variable {α β : Type} {R : List Kind → α → Prop} {Q : List Kind → β → Prop} {p : Parser α}
  {f : α → Parser β} {k : Kind}

/-- The value that the parser gives is related to the kinds of the tokens that it takes. -/
def Takes (R : List Kind → α → Prop) (p : Parser α) : Prop :=
  ∀ s x s', s.Ended → p s = .ok (x, s') →
    ∃ taken, s.ahead = taken ++ s'.ahead ∧ s'.ending = s.ending ∧ R (taken.map Token.kind) x

/-- The same where the next token is of a kind. -/
def TakesAt (k : Kind) (R : List Kind → α → Prop) (p : Parser α) : Prop :=
  ∀ s x s', s.Ended → nextKind s.ahead = k → p s = .ok (x, s') →
    ∃ taken, s.ahead = taken ++ s'.ahead ∧ s'.ending = s.ending ∧ R (taken.map Token.kind) x

theorem Takes.at (h : Takes R p) : TakesAt k R p :=
  fun s x s' hs _ hx => h s x s' hs hx

theorem Takes.imp {R' : List Kind → α → Prop} (h : Takes R p) (hR : ∀ ks x, R ks x → R' ks x) :
    Takes R' p := by
  intro s x s' hs hx
  obtain ⟨taken, hahead, hending, hRx⟩ := h s x s' hs hx
  exact ⟨taken, hahead, hending, hR _ _ hRx⟩

/-! ## Sequences -/

theorem takes_pure {x : α} (h : R [] x) : Takes R (pure x) := by
  intro s y s' _ hy
  cases hy
  exact ⟨[], rfl, rfl, h⟩

theorem takes_fail (error : GrammarError) (span : Span) : Takes R (fail error span) := by
  intro s x s' _ hx
  cases hx

theorem takes_fail_bind {error : GrammarError} {span : Span} :
    Takes Q (fail error span >>= f) := by
  intro s y s' _ hy
  cases hy

/-- What a sequence gives comes from its parts. -/
theorem exists_of_bind {s s' : Stream} {y : β} (h : (p >>= f) s = .ok (y, s')) :
    ∃ x s'', p s = .ok (x, s'') ∧ f x s'' = .ok (y, s') := by
  have hrun : (p s >>= fun r => f r.1 r.2) = .ok (y, s') := h
  cases hp : p s with
  | error fault =>
    rw [hp] at hrun
    cases hrun
  | ok r =>
    rw [hp] at hrun
    exact ⟨r.1, r.2, rfl, hrun⟩

theorem Takes.bind {P : List Kind → α → Prop} (hp : Takes P p)
    (hf : ∀ ks x, P ks x → Takes (fun ks' => Q (ks ++ ks')) (f x)) : Takes Q (p >>= f) := by
  intro s y s' hs hy
  obtain ⟨x, s'', hx, hrest⟩ := exists_of_bind hy
  obtain ⟨first, hfirst, hending, hP⟩ := hp s x s'' hs hx
  have hs'' : s''.Ended := fun eof heof => hs eof (hending ▸ heof)
  obtain ⟨second, hsecond, hending', hQ⟩ := hf _ x hP s'' y s' hs'' hrest
  refine ⟨first ++ second, ?_, hending'.trans hending, ?_⟩
  · rw [hfirst, hsecond, List.append_assoc]
  · rw [List.map_append]
    exact hQ

theorem Takes.map {P : List Kind → α → Prop} {g : α → β} (hp : Takes P p)
    (hg : ∀ ks x, P ks x → Q ks (g x)) : Takes Q (g <$> p) := by
  rw [map_eq_pure_bind]
  exact hp.bind fun ks x hx => takes_pure ((List.append_nil ks).symm ▸ hg ks x hx)

theorem takes_ite {c : Prop} [Decidable c] {p q : Parser α} (hp : Takes R p) (hq : Takes R q) :
    Takes R (if c then p else q) := by
  split
  · exact hp
  · exact hq

theorem takes_withAllowance {p : Nat → Parser α} (hp : ∀ n, Takes R (p n)) :
    Takes R (withAllowance p) :=
  fun s => hp _ s

/-! ## Single tokens -/

theorem takes_lastSpan {f : Span → Parser β} (hf : ∀ span, Takes Q (f span)) :
    Takes Q (lastSpan >>= f) :=
  fun s => hf s.last s

theorem takes_tooDeep : Takes R tooDeep :=
  takes_lastSpan fun _ => takes_fail _ _

/-- Looking takes nothing. -/
theorem eq_of_peek {s s' : Stream} {token : Token} (hs : s.Ended)
    (h : peek s = .ok (token, s')) : s' = s ∧ nextKind s.ahead = token.kind := by
  unfold peek at h
  split at h
  · rename_i hahead
    cases h
    exact ⟨rfl, by rw [hahead]; rfl⟩
  · rename_i hahead
    cases hending : s.ending with
    | error fault =>
      rw [hending] at h
      cases h
    | ok eof =>
      rw [hending] at h
      cases h
      exact ⟨rfl, by rw [hahead, hs _ hending]; rfl⟩

/-- What is taken is a token, or the end of the text, which stays. -/
theorem cases_take {s s' : Stream} {token : Token} (hs : s.Ended)
    (h : take s = .ok (token, s')) : s'.Ended ∧ s'.ending = s.ending ∧
      (s.ahead = token :: s'.ahead ∨ s.ahead = s'.ahead ∧ token.kind = .endOfFile ∧
        nextKind s.ahead = .endOfFile) := by
  unfold take at h
  split at h
  · rename_i hahead
    cases h
    exact ⟨hs, rfl, Or.inl hahead⟩
  · rename_i hahead
    cases hending : s.ending with
    | error fault =>
      rw [hending] at h
      cases h
    | ok eof =>
      rw [hending] at h
      cases h
      exact ⟨fun _ heof => hs _ (hending.trans heof), rfl,
        Or.inr ⟨rfl, hs _ hending, by rw [hahead]; rfl⟩⟩

/-- A parser that looks at the next token first. -/
theorem takes_peek {f : Token → Parser β} (hf : ∀ token, TakesAt token.kind Q (f token)) :
    Takes Q (peek >>= f) := by
  intro s y s' hs hy
  obtain ⟨token, s'', htoken, hrest⟩ := exists_of_bind hy
  obtain ⟨rfl, hnext⟩ := eq_of_peek hs htoken
  exact hf token s'' y s' hs hnext hrest

/-- A parser that takes a token first, or looks at the end of the text. -/
theorem takes_take {f : Token → Parser β}
    (hf : ∀ token, Takes (fun ks => Q (token.kind :: ks)) (f token))
    (heof : ∀ token, token.kind = .endOfFile → Takes Q (f token)) : Takes Q (take >>= f) := by
  intro s y s' hs hy
  obtain ⟨token, s'', htoken, hrest⟩ := exists_of_bind hy
  obtain ⟨hs'', hending, hahead | ⟨hahead, hkind, -⟩⟩ := cases_take hs htoken
  · obtain ⟨taken, htaken, hending', hQ⟩ := hf token s'' y s' hs'' hrest
    exact ⟨token :: taken, hahead.trans (congrArg _ htaken), hending'.trans hending, hQ⟩
  · obtain ⟨taken, htaken, hending', hQ⟩ := heof token hkind s'' y s' hs'' hrest
    exact ⟨taken, hahead.trans htaken, hending'.trans hending, hQ⟩

/-- A parser that takes a token of a kind that it has looked at. -/
theorem takesAt_take {f : Token → Parser β} (hk : k ≠ .endOfFile)
    (hf : ∀ token, Takes (fun ks => Q (k :: ks)) (f token)) : TakesAt k Q (take >>= f) := by
  intro s y s' hs hnext hy
  obtain ⟨token, s'', htoken, hrest⟩ := exists_of_bind hy
  obtain ⟨hs'', hending, hahead | ⟨-, -, hend⟩⟩ := cases_take hs htoken
  · obtain ⟨taken, htaken, hending', hQ⟩ := hf token s'' y s' hs'' hrest
    refine ⟨token :: taken, hahead.trans (congrArg _ htaken), hending'.trans hending, ?_⟩
    rw [hahead] at hnext
    rw [List.map_cons, show token.kind = k from hnext]
    exact hQ
  · exact absurd (hnext.symm.trans hend) hk

theorem takes_check {what : Category} {f : Bool → Parser β} (hf : ∀ found, Takes Q (f found)) :
    Takes Q (check what >>= f) := by
  rw [check, bind_assoc]
  exact takes_peek fun token => (hf _).at

theorem takes_accept {what : Category} {a b : Parser β} (hwhat : what.Marks k)
    (ha : Takes (fun ks => Q (k :: ks)) a) (hb : Takes Q b) :
    Takes Q (accept what >>= fun found => if found = true then a else b) := by
  rw [accept_bind, check, bind_assoc]
  refine takes_peek fun token => ?_
  rw [pure_bind]
  split
  · rename_i hfound
    rw [hwhat.2 token.kind (beq_iff_eq.mp hfound)]
    exact takesAt_take hwhat.1 fun _ => ha
  · exact hb.at

theorem takes_expect {what : Category} {f : Token → Parser β} (hwhat : what.Marks k)
    (hf : ∀ token, Takes (fun ks => Q (k :: ks)) (f token)) : Takes Q (expect what >>= f) := by
  rw [expect, bind_assoc]
  refine takes_take (fun token => ?_) fun token htoken => ?_
  · split
    · rename_i hfound
      rw [pure_bind, hwhat.2 token.kind hfound]
      exact hf token
    · exact takes_fail_bind
  · rw [if_neg fun hfound => hwhat.1 ((hwhat.2 token.kind hfound).symm.trans htoken)]
    exact takes_fail_bind

theorem takes_typeId {f : String → Parser β}
    (hf : ∀ name, Takes (fun ks => Q (.typeId name :: ks)) (f name)) :
    Takes Q (typeId >>= f) := by
  rw [typeId, bind_assoc]
  refine takes_take (fun token => ?_) fun token htoken => ?_
  · cases hkind : token.kind with
    | typeId name => exact hf name
    | _ => exact takes_fail_bind
  · rw [htoken]
    exact takes_fail_bind

theorem takes_objectId {f : String → Parser β}
    (hf : ∀ name, Takes (fun ks => Q (.objectId name :: ks)) (f name)) :
    Takes Q (objectId >>= f) := by
  rw [objectId, bind_assoc]
  refine takes_take (fun token => ?_) fun token htoken => ?_
  · cases hkind : token.kind with
    | objectId name => exact hf name
    | _ => exact takes_fail_bind
  · rw [htoken]
    exact takes_fail_bind

/-! ## Repetitions -/

section Repetitions

variable {item : Parser α} {stop : Category}

/-- Items with a semicolon behind each. -/
theorem takes_manyUntil
    (hitem : Takes (fun ks x => ∃ ks', ks = ks' ++ [.symbol .semicolon] ∧ R ks' x) item) : ∀ n,
      Takes (fun ks xs => ∃ kss, ks = Kind.semicolonList kss ∧ List.Forall₂ R kss xs)
        (manyUntil stop item n) := by
  intro n
  induction n with
  | zero => exact takes_tooDeep
  | succ n ih =>
    rw [manyUntil]
    refine takes_check fun found => takes_ite (takes_pure ⟨[], rfl, .nil⟩) ?_
    refine hitem.bind fun _ x hx => ih.bind fun _ xs hxs => takes_pure ?_
    obtain ⟨ks, rfl, hx⟩ := hx
    obtain ⟨kss, rfl, hxs⟩ := hxs
    exact ⟨ks :: kss, by rw [List.append_nil]; rfl, .cons hx hxs⟩

theorem takes_someUntil
    (hitem : Takes (fun ks x => ∃ ks', ks = ks' ++ [.symbol .semicolon] ∧ R ks' x) item) (n : Nat) :
    Takes (fun ks xs => xs ≠ [] ∧ ∃ kss, ks = Kind.semicolonList kss ∧ List.Forall₂ R kss xs)
      (someUntil stop item n) := by
  rw [someUntil]
  refine hitem.bind fun _ x hx => (takes_manyUntil hitem n).bind fun _ xs hxs => takes_pure ?_
  obtain ⟨ks, rfl, hx⟩ := hx
  obtain ⟨kss, rfl, hxs⟩ := hxs
  exact ⟨List.cons_ne_nil x xs, ks :: kss, by rw [List.append_nil]; rfl, .cons hx hxs⟩

theorem takes_commaItems (hitem : Takes R item) : ∀ n,
    Takes (fun ks xs => ∃ kss : List (List Kind),
      ks = kss.flatMap (fun ks => .symbol .comma :: ks) ∧ List.Forall₂ R kss xs)
      (commaItems item n) := by
  intro n
  induction n with
  | zero => exact takes_tooDeep
  | succ n ih =>
    rw [commaItems]
    refine takes_accept (Category.marks_symbol .comma) ?_ (takes_pure ⟨[], rfl, .nil⟩)
    refine hitem.bind fun ks x hx => ih.bind fun _ xs hxs => takes_pure ?_
    obtain ⟨kss, rfl, hxs⟩ := hxs
    exact ⟨ks :: kss, by rw [List.append_nil]; rfl, .cons hx hxs⟩

theorem takes_commaList (hitem : Takes R item) (n : Nat) :
    Takes (fun ks xs => ∃ kss, ks = Kind.commaList kss ∧ List.Forall₂ R kss xs)
      (commaList item n) := by
  unfold commaList
  refine takes_expect (Category.marks_symbol .parenOpen) fun _ => takes_check fun found => ?_
  extract_lets close
  have hclose : ∀ xs, Takes (fun ks ys => ks = [.symbol .parenClose] ∧ ys = xs) (close xs) :=
    fun xs => takes_expect (Category.marks_symbol .parenClose) fun _ => takes_pure ⟨rfl, rfl⟩
  refine takes_ite ?_ (hitem.bind fun ks x hx => ?_)
  · rw [pure_bind]
    refine (hclose []).imp fun _ _ h => ?_
    obtain ⟨rfl, rfl⟩ := h
    exact ⟨[], rfl, .nil⟩
  · refine (takes_commaItems hitem n).bind fun _ xs hxs => ?_
    obtain ⟨kss, rfl, hxs⟩ := hxs
    rw [pure_bind]
    refine (hclose (x :: xs)).imp fun _ _ h => ?_
    obtain ⟨rfl, rfl⟩ := h
    refine ⟨ks :: kss, ?_, .cons hx hxs⟩
    rw [Kind.commaList, Kind.parenthesized, Kind.commas, List.append_assoc]

end Repetitions

end Parser

end Cool
