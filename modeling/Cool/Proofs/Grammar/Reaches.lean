import Cool.Proofs.Grammar.Takes
import Cool.Proofs.Tree.Nesting

/-!
# How far parsers reach

The tokens of a stream lie one behind the other, and all of them behind the token taken last. A
parser that gives a value goes on from there to some later token, and the value is related to the
place that it has reached. It is told the next token where it has been looked at before.

* `Stream.Ordered` : tokens one behind the other;
* `Parser.Reaches`, `Parser.ReachesAt` : what a parser gives, and where it ends;
* `Reaches.bind`, `reachesAt_accept`, `reachesAt_expect`, ... : sequences and single tokens;
* `ReachesItem`, `reaches_item_expect` : items that lie in a row;
* `reaches_manyUntil`, `reaches_commaList`, ... : repetitions of them.
-/

namespace Cool

/-- The tokens that are left have places with a property, one behind the other and behind the token
taken last. -/
structure Stream.Ordered (T : Span → Prop) (s : Stream) : Prop where
  ended : s.Ended
  bounded : ∀ token ∈ s.ahead, token.span.Bounded T
  ordered : s.ahead.Pairwise fun a b => a.span.stop ≤ b.span.start
  behind : ∀ token ∈ s.ahead, s.last.stop ≤ token.span.start

/-- A token that may come behind a place. -/
structure Token.Behind (T : Span → Prop) (last : Span) (token : Token) : Prop where
  bounded : token.span.Bounded T
  behind : last.stop ≤ token.span.start

namespace Token.Behind

open SpanTree

variable {T : Span → Prop} {last : Span} {token : Token} {lo hi : Nat} {ts : List SpanTree}

theorem le (h : token.Behind T last) : last.stop ≤ token.span.stop :=
  Nat.le_trans h.behind (Nat.le_of_lt h.bounded.nonempty)

/-- The token stands in front of a row. -/
theorem row (h : token.Behind T last) (hrow : Row (Span.Bounded T) token.span.stop hi ts) :
    Row (Span.Bounded T) last.stop hi ts :=
  hrow.mono h.le (Nat.le_refl hi)

/-- The token stands behind a row. -/
theorem close (h : token.Behind T last) (hrow : Row (Span.Bounded T) lo last.stop ts) :
    Row (Span.Bounded T) lo token.span.stop ts :=
  hrow.mono (Nat.le_refl lo) h.le

end Token.Behind

/-- The second of two tokens taken last is behind the first one, or the same. The first may be none
at all, before anything is taken. -/
structure Span.Advances (T : Span → Prop) (last mid : Span) : Prop where
  le : last.stop ≤ mid.stop
  bounded : last.Bounded T → mid.Bounded T

namespace Span.Advances

variable {T : Span → Prop} {last mid hi : Span} {token : Token}

theorem refl : Advances T last last :=
  ⟨Nat.le_refl _, id⟩

theorem trans (h : Advances T last mid) (h' : Advances T mid hi) : Advances T last hi :=
  ⟨Nat.le_trans h.le h'.le, fun hlast => h'.bounded (h.bounded hlast)⟩

theorem of_behind (h : token.Behind T last) : Advances T last token.span :=
  ⟨h.le, fun _ => h.bounded⟩

end Span.Advances

namespace Parser

variable {α β : Type} {T : Span → Prop} {last : Span} {next : Option Token}
  {R : Span → α → Prop} {Q : Span → β → Prop} {p : Parser α} {f : α → Parser β}

/-- Behind a token, and with this next one, the parser gives a value that is related to the token
that it takes last. -/
def ReachesAt (T : Span → Prop) (next : Option Token) (last : Span) (R : Span → α → Prop)
    (p : Parser α) : Prop :=
  ∀ s x s', s.Ordered T → s.ahead.head? = next → s.last = last → p s = .ok (x, s') →
    s'.Ordered T ∧ last.Advances T s'.last ∧ R s'.last x

/-- The same, whatever comes next. -/
def Reaches (T : Span → Prop) (last : Span) (R : Span → α → Prop) (p : Parser α) : Prop :=
  ∀ next, ReachesAt T next last R p

theorem reaches_pure {x : α} (h : R last x) : Reaches T last R (pure x) := by
  intro next s y s' hs _ hlast hy
  cases hy
  subst hlast
  exact ⟨hs, .refl, h⟩

theorem reaches_fail (error : GrammarError) (span : Span) : Reaches T last R (fail error span) := by
  intro next s x s' _ _ _ hx
  cases hx

theorem reaches_fail_bind {error : GrammarError} {span : Span} :
    Reaches T last Q (fail error span >>= f) := by
  intro next s y s' _ _ _ hy
  cases hy

theorem reaches_tooDeep : Reaches T last R tooDeep := by
  intro next s x s' _ _ _ hx
  cases hx

theorem ReachesAt.bind (hp : ReachesAt T next last R p)
    (hf : ∀ mid x, last.Advances T mid → R mid x → Reaches T mid Q (f x)) :
    ReachesAt T next last Q (p >>= f) := by
  intro s y s' hs hnext hlast hy
  obtain ⟨x, s₁, hx, hrest⟩ := exists_of_bind hy
  obtain ⟨hs₁, hle, hR⟩ := hp s x s₁ hs hnext hlast hx
  obtain ⟨hs', hle', hQ⟩ := hf _ x hle hR _ s₁ y s' hs₁ rfl rfl hrest
  exact ⟨hs', hle.trans hle', hQ⟩

theorem Reaches.bind (hp : Reaches T last R p)
    (hf : ∀ mid x, last.Advances T mid → R mid x → Reaches T mid Q (f x)) :
    Reaches T last Q (p >>= f) :=
  fun next => (hp next).bind hf

theorem Reaches.map {g : α → β} (hp : Reaches T last R p) (hg : ∀ mid x, R mid x → Q mid (g x)) :
    Reaches T last Q (g <$> p) := by
  rw [map_eq_pure_bind]
  exact hp.bind fun mid x _ hx => reaches_pure (hg mid x hx)

theorem reaches_ite {c : Prop} [Decidable c] {q : Parser α} (hp : Reaches T last R p)
    (hq : Reaches T last R q) : Reaches T last R (if c then p else q) := by
  split
  · exact hp
  · exact hq

theorem reachesAt_ite {c : Prop} [Decidable c] {q : Parser α} (hp : ReachesAt T next last R p)
    (hq : ReachesAt T next last R q) : ReachesAt T next last R (if c then p else q) := by
  split
  · exact hp
  · exact hq

theorem reaches_withAllowance {p : Nat → Parser α} (hp : ∀ n, Reaches T last R (p n)) :
    Reaches T last R (withAllowance p) :=
  fun next s => hp _ next s

theorem reaches_lastSpan {f : Span → Parser β} (hf : Reaches T last Q (f last)) :
    Reaches T last Q (lastSpan >>= f) := by
  intro next s y s' hs hnext hlast hy
  subst hlast
  exact hf next s y s' hs hnext rfl hy

/-! ## Single tokens -/

/-- Taking the next token leaves the others behind it. -/
theorem ordered_cons {token : Token} {more : List Token} {ending : Except Fault Token}
    (hs : Stream.Ordered T ⟨token :: more, ending, last⟩) :
    token.Behind T last ∧ Stream.Ordered T ⟨more, ending, token.span⟩ := by
  obtain ⟨hbounded, hmore⟩ := List.forall_mem_cons.mp hs.bounded
  obtain ⟨hbehind, hordered⟩ := List.pairwise_cons.mp hs.ordered
  exact ⟨⟨hbounded, hs.behind token List.mem_cons_self⟩, hs.ended, hmore, hordered, hbehind⟩

/-- A parser that takes a token first, and fails at the end of the text. -/
theorem reachesAt_take {f : Token → Parser β}
    (hf : ∀ token, next = some token → token.Behind T last → Reaches T token.span Q (f token))
    (heof : ∀ token s r, token.kind = .endOfFile → f token s ≠ .ok r) :
    ReachesAt T next last Q (take >>= f) := by
  rintro ⟨ahead, ending, last⟩ y s' hs rfl rfl hy
  obtain ⟨token, s₁, htoken, hrest⟩ := exists_of_bind hy
  cases ahead with
  | nil =>
    obtain ⟨-, -, hahead | ⟨-, hkind, -⟩⟩ := cases_take hs.ended htoken
    · cases hahead
    · exact absurd hrest (heof token s₁ _ hkind)
  | cons first more =>
    cases htoken
    obtain ⟨hfirst, hs₁⟩ := ordered_cons hs
    obtain ⟨hs', hle, hQ⟩ := hf token rfl hfirst _ _ y s' hs₁ rfl rfl hrest
    exact ⟨hs', (Span.Advances.of_behind hfirst).trans hle, hQ⟩

/-- A parser that takes the token that it has looked at. -/
theorem reachesAt_take_some {token : Token} {p : Parser β}
    (hp : token.Behind T last → Reaches T token.span Q p) :
    ReachesAt T (some token) last Q (take >>= fun _ => p) := by
  rintro ⟨ahead, ending, last⟩ y s' hs hnext rfl hy
  cases ahead with
  | nil => cases hnext
  | cons first more =>
    cases hnext
    obtain ⟨hfirst, hs₁⟩ := ordered_cons hs
    obtain ⟨hs', hle, hQ⟩ := hp hfirst _ _ y s' hs₁ rfl rfl hy
    exact ⟨hs', (Span.Advances.of_behind hfirst).trans hle, hQ⟩

/-- A parser that looks at the next token first. -/
theorem reaches_peek {f : Token → Parser β}
    (hf : ∀ token, token.Behind T last → ReachesAt T (some token) last Q (f token))
    (heof : ∀ token, token.kind = .endOfFile → ReachesAt T none last Q (f token)) :
    Reaches T last Q (peek >>= f) := by
  rintro next ⟨ahead, ending, last⟩ y s' hs rfl rfl hy
  obtain ⟨token, s₁, htoken, hrest⟩ := exists_of_bind hy
  obtain ⟨rfl, hkind⟩ := eq_of_peek hs.ended htoken
  cases ahead with
  | nil => exact heof token hkind.symm _ y s' hs rfl rfl hrest
  | cons first more =>
    cases htoken
    exact hf token (ordered_cons hs).1 _ y s' hs rfl rfl hrest

/-- A parser that goes on in one way, whether or not there is a next token. -/
theorem reaches_peek_any {f : Token → Parser β}
    (hf : ∀ token next, (∀ first, next = some first → first = token) →
      ReachesAt T next last Q (f token)) : Reaches T last Q (peek >>= f) :=
  reaches_peek (fun token _ => hf token _ fun _ h => (Option.some.inj h).symm)
    fun token _ => hf token none fun _ h => absurd h.symm (Option.some_ne_none _)

theorem reachesAt_check {what : Category} {f : Bool → Parser β}
    (hf : ∀ found, ReachesAt T next last Q (f found)) :
    ReachesAt T next last Q (check what >>= f) := by
  intro s y s' hs hnext hlast hy
  obtain ⟨found, s₁, hfound, hrest⟩ := exists_of_bind hy
  obtain ⟨token, s₂, htoken, hdone⟩ := exists_of_bind hfound
  obtain ⟨rfl, -⟩ := eq_of_peek hs.ended htoken
  cases hdone
  exact hf _ _ y s' hs hnext hlast hrest

theorem reachesAt_accept {what : Category} {a b : Parser β} (hwhat : what ≠ .endOfFile)
    (ha : ∀ token, next = some token → token.Behind T last → Reaches T token.span Q a)
    (hb : ReachesAt T next last Q b) :
    ReachesAt T next last Q (accept what >>= fun found => if found = true then a else b) := by
  intro s y s' hs hnext hlast hy
  rw [accept_bind, check, bind_assoc] at hy
  obtain ⟨token, s₁, htoken, hrest⟩ := exists_of_bind hy
  obtain ⟨rfl, hkind⟩ := eq_of_peek hs.ended htoken
  rw [pure_bind] at hrest
  split at hrest
  · rename_i hfound
    cases next with
    | none =>
      -- only the end of the text is found where no token is left
      have hend : token.kind = .endOfFile := by
        rw [← hkind, List.head?_eq_none_iff.mp hnext]
        rfl
      rw [hend] at hfound
      exact absurd (beq_iff_eq.mp hfound).symm hwhat
    | some first =>
      exact reachesAt_take_some (ha first rfl) _ y s' hs hnext hlast hrest
  · exact hb _ y s' hs hnext hlast hrest

theorem reachesAt_expect {what : Category} {f : Token → Parser β} (hwhat : what ≠ .endOfFile)
    (hf : ∀ token, next = some token → token.Behind T last → Reaches T token.span Q (f token)) :
    ReachesAt T next last Q (expect what >>= f) := by
  rw [expect, bind_assoc]
  refine reachesAt_take (fun token hnext htoken => ?_) fun token s r hkind => ?_
  · split
    · exact hf token hnext htoken
    · exact reaches_fail_bind
  · rw [hkind, if_neg (show Kind.endOfFile.category ≠ what from Ne.symm hwhat)]
    intro h
    cases h

theorem reachesAt_typeId {f : String → Parser β}
    (hf : ∀ name token, next = some token → token.Behind T last →
      Reaches T token.span Q (f name)) : ReachesAt T next last Q (typeId >>= f) := by
  rw [typeId, bind_assoc]
  refine reachesAt_take (fun token hnext htoken => ?_) fun token s r hkind => ?_
  · split
    · exact hf _ token hnext htoken
    · exact reaches_fail_bind
  · rw [hkind]
    intro h
    cases h

theorem reachesAt_objectId {f : String → Parser β}
    (hf : ∀ name token, next = some token → token.Behind T last →
      Reaches T token.span Q (f name)) : ReachesAt T next last Q (objectId >>= f) := by
  rw [objectId, bind_assoc]
  refine reachesAt_take (fun token hnext htoken => ?_) fun token s r hkind => ?_
  · split
    · exact hf _ token hnext htoken
    · exact reaches_fail_bind
  · rw [hkind]
    intro h
    cases h

/-- Behind the end of the text there is no name. -/
theorem reaches_peek_objectId {f : Token → String → Parser β}
    (hf : ∀ token name, token.Behind T last → Reaches T token.span Q (f token name)) :
    Reaches T last Q (peek >>= fun first => objectId >>= f first) := by
  refine reaches_peek (fun first hfirst => reachesAt_objectId fun name token hnext _ => ?_)
    fun _ _ => reachesAt_objectId fun _ _ h _ => absurd h.symm (Option.some_ne_none _)
  cases hnext
  exact hf first name hfirst

/-! ## Repetitions -/

section Repetitions

open SpanTree

variable {item : Parser α} {tree : α → SpanTree} {stop : Category}

/-- From a token on, the parser gives items whose spans lie in a row. -/
abbrev ReachesRow (T : Span → Prop) (tree : α → SpanTree) (last : Span) (p : Parser (List α)) :
    Prop :=
  Reaches T last (fun mid xs => Row (Span.Bounded T) last.stop mid.stop (xs.map tree)) p

/-- An item, from any token on. -/
abbrev ReachesItem (T : Span → Prop) (tree : α → SpanTree) (p : Parser α) : Prop :=
  ∀ last, Reaches T last (fun mid x => Row (Span.Bounded T) last.stop mid.stop [tree x]) p

/-- An item with a token behind it. -/
theorem reaches_item_expect (hitem : ReachesItem T tree item) {what : Category}
    (hwhat : what ≠ .endOfFile) : ReachesItem T tree (do
      let x ← item
      let _ ← expect what
      return x) :=
  fun last => (hitem last).bind fun _ _ _ hx _ => reachesAt_expect hwhat fun _ _ hstop =>
    reaches_pure (hstop.close hx)

theorem reaches_manyUntil (hitem : ReachesItem T tree item) (n : Nat) (last : Span) :
    ReachesRow T tree last (manyUntil stop item n) := by
  induction n generalizing last with
  | zero => exact reaches_tooDeep
  | succ n ih =>
    intro next
    rw [manyUntil]
    refine reachesAt_check fun found => reachesAt_ite ?_ ?_
    · exact reaches_pure (.nil (Nat.le_refl _)) next
    · refine (hitem last next).bind fun mid x _ hx => ?_
      exact (ih mid).bind fun _ xs _ hxs => reaches_pure (hx.append hxs)

theorem reaches_someUntil (hitem : ReachesItem T tree item) (n : Nat) (last : Span) :
    ReachesRow T tree last (someUntil stop item n) :=
  (hitem last).bind fun mid _ _ hx => (reaches_manyUntil hitem n mid).bind fun _ _ _ hxs =>
    reaches_pure (hx.append hxs)

theorem reaches_commaItems (hitem : ReachesItem T tree item) (n : Nat) (last : Span) :
    ReachesRow T tree last (commaItems item n) := by
  induction n generalizing last with
  | zero => exact reaches_tooDeep
  | succ n ih =>
    intro next
    rw [commaItems]
    refine reachesAt_accept (by decide) (fun token _ htoken => ?_) ?_
    · refine (hitem token.span).bind fun mid x _ hx => ?_
      exact (ih mid).bind fun _ xs _ hxs => reaches_pure (htoken.row (hx.append hxs))
    · exact reaches_pure (.nil (Nat.le_refl _)) next

theorem reaches_commaList (hitem : ReachesItem T tree item) (n : Nat) (last : Span) :
    ReachesRow T tree last (commaList item n) := by
  intro next
  unfold commaList
  refine reachesAt_expect (by decide) fun first _ hfirst next => reachesAt_check fun found => ?_
  extract_lets close
  have hclose : ∀ mid xs, Row (Span.Bounded T) last.stop mid.stop (xs.map tree) →
      Reaches T mid (fun mid xs => Row (Span.Bounded T) last.stop mid.stop (xs.map tree))
        (close xs) := by
    intro mid xs hxs next
    exact reachesAt_expect (by decide) fun token _ htoken => reaches_pure (htoken.close hxs)
  refine reachesAt_ite ?_ ((hitem first.span next).bind fun mid x _ hx => ?_)
  · rw [pure_bind]
    exact hclose first.span [] (.nil hfirst.le) next
  · refine (reaches_commaItems hitem n mid).bind fun mid' xs _ hxs => ?_
    rw [pure_bind]
    exact hclose mid' (x :: xs) (hfirst.row (hx.append hxs))

end Repetitions

end Parser

end Cool
