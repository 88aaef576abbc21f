import Cool.Grammar.Program
import Cool.Proofs.Tree.Printed
import Mathlib.Data.List.Forall2

/-!
# What parsers read

A parser reads tokens of given kinds if it takes just these from the front of every stream of
tokens in which what follows them is allowed to follow, and gives a value with a property. What may
follow is said of the next token alone, as no parser looks further.

* `Stream.nextKind` : the kind of the next token;
* `Parser.Reads` : a parser reads tokens of given kinds;
* `Reads.bind`, `reads_expect`, `reads_accept`, ... : single tokens and sequences;
* `reads_manyUntil`, `reads_commaList`, ... : repetitions.
-/

namespace Cool

/-- The kind of the first of the tokens that are left, before the end of the text. -/
def nextKind (tokens : List Token) : Kind :=
  (tokens.map Token.kind).headD .endOfFile

namespace Parser

variable {α β : Type} {ks ks' : List Kind} {F G : Kind → Prop} {P : α → Prop} {Q : β → Prop}
  {p : Parser α} {f : α → Parser β} {k : Kind}

/-- In front of tokens whose first kind is one of `follow`, the parser takes just the tokens of the
kinds `ks`, and gives a value with the property. -/
def Reads (ks : List Kind) (follow : Kind → Prop) (P : α → Prop) (p : Parser α) : Prop :=
  ∀ (taken more : List Token) (eof : Token) (last : Span), taken.map Token.kind = ks →
    eof.kind = .endOfFile → follow (nextKind more) →
      ∃ x last', p ⟨taken ++ more, .ok eof, last⟩ = .ok (x, ⟨more, .ok eof, last'⟩) ∧ P x

theorem Reads.imp {P' : α → Prop} (hp : Reads ks F P p) (hP : ∀ x, P x → P' x) :
    Reads ks F P' p := by
  intro taken more eof last htaken heof hmore
  obtain ⟨x, last', hx, hPx⟩ := hp taken more eof last htaken heof hmore
  exact ⟨x, last', hx, hP x hPx⟩

theorem Reads.follow (hp : Reads ks F P p) (hG : ∀ k, G k → F k) : Reads ks G P p :=
  fun taken more eof last htaken heof hmore =>
    hp taken more eof last htaken heof (hG _ hmore)

/-! ## Sequences -/

theorem reads_pure {x : α} (h : P x) : Reads [] F P (pure x) := by
  intro taken more eof last htaken _ _
  rw [List.map_eq_nil_iff.mp htaken]
  exact ⟨x, last, rfl, h⟩

theorem headD_append (ks ks' : List Kind) (k : Kind) :
    (ks ++ ks').headD k = ks.headD (ks'.headD k) := by
  cases ks <;> rfl

theorem nextKind_append (taken more : List Token) :
    nextKind (taken ++ more) = (taken.map Token.kind).headD (nextKind more) := by
  rw [nextKind, List.map_append, headD_append]
  rfl

theorem Reads.bind (hp : Reads ks G P p) (hf : ∀ x, P x → Reads ks' F Q (f x))
    (hG : ∀ k, F k → G (ks'.headD k)) : Reads (ks ++ ks') F Q (p >>= f) := by
  intro taken more eof last htaken heof hmore
  obtain ⟨first, second, rfl, rfl, rfl⟩ := List.map_eq_append_iff.mp htaken
  obtain ⟨x, last', hx, hPx⟩ := hp first (second ++ more) eof last rfl heof
    (nextKind_append second more ▸ hG _ hmore)
  obtain ⟨y, last'', hy, hQy⟩ := hf x hPx second more eof last' rfl heof hmore
  refine ⟨y, last'', ?_, hQy⟩
  rw [List.append_assoc]
  show (p _ >>= fun r => f r.1 r.2) = _
  rw [hx]
  exact hy

theorem Reads.bind_pure {g : α → β} (hp : Reads ks F P p) (hg : ∀ x, P x → Q (g x)) :
    Reads ks F Q (p >>= fun x => pure (g x)) := by
  rw [← List.append_nil ks]
  exact hp.bind (fun x hx => reads_pure (hg x hx)) fun _ hk => hk

theorem Reads.map {g : α → β} (hp : Reads ks F P p) (hg : ∀ x, P x → Q (g x)) :
    Reads ks F Q (g <$> p) := by
  rw [map_eq_pure_bind]
  exact hp.bind_pure hg

/-! ## Single tokens -/

theorem reads_peek {f : Token → Parser β}
    (hf : ∀ token k, F k → token.kind = ks.headD k → Reads ks F Q (f token)) :
    Reads ks F Q (peek >>= f) := by
  intro taken more eof last htaken heof hmore
  have hnext : ∃ token, peek ⟨taken ++ more, .ok eof, last⟩ =
      .ok (token, ⟨taken ++ more, .ok eof, last⟩) ∧ token.kind = ks.headD (nextKind more) := by
    rw [← htaken, ← nextKind_append]
    cases taken ++ more with
    | nil => exact ⟨eof, rfl, heof⟩
    | cons token rest => exact ⟨token, rfl, rfl⟩
  obtain ⟨token, hpeek, htoken⟩ := hnext
  have hrun : (peek >>= f) ⟨taken ++ more, .ok eof, last⟩ =
      f token ⟨taken ++ more, .ok eof, last⟩ := by
    show (peek _ >>= fun r => f r.1 r.2) = _
    rw [hpeek]
    rfl
  rw [hrun]
  exact hf token _ hmore htoken taken more eof last htaken heof hmore

theorem reads_take {f : Token → Parser β}
    (hf : ∀ token, token.kind = k → Reads ks F Q (f token)) :
    Reads (k :: ks) F Q (take >>= f) := by
  intro taken more eof last htaken heof hmore
  obtain ⟨token, rest, rfl, rfl, rfl⟩ := List.map_eq_cons_iff.mp htaken
  exact hf token rfl rest more eof token.span rfl heof hmore

theorem reads_lastSpan {f : Span → Parser β} (hf : ∀ span, Reads ks F Q (f span)) :
    Reads ks F Q (lastSpan >>= f) :=
  fun taken more eof last => hf last taken more eof last

section Tests

variable {what : Category} {a b : Parser β}

theorem reads_check_true (h : ∀ k, F k → (ks.headD k).category = what) (ha : Reads ks F Q a) :
    Reads ks F Q (check what >>= fun found => if found = true then a else b) := by
  rw [check, bind_assoc]
  refine reads_peek fun token k hk htoken => ?_
  rw [pure_bind, htoken, h k hk, if_pos (beq_self_eq_true what)]
  exact ha

theorem reads_check_false (h : ∀ k, F k → (ks.headD k).category ≠ what) (hb : Reads ks F Q b) :
    Reads ks F Q (check what >>= fun found => if found = true then a else b) := by
  rw [check, bind_assoc]
  refine reads_peek fun token k hk htoken => ?_
  rw [pure_bind, htoken, if_neg (by simpa using h k hk)]
  exact hb

theorem accept_bind (f : Bool → Parser β) :
    (accept what >>= f) =
      check what >>= fun found => if found = true then take >>= fun _ => f true else f false := by
  rw [accept, bind_assoc]
  refine congrArg _ (funext fun found => ?_)
  cases found with
  | false => rfl
  | true => rw [if_pos rfl, if_pos rfl, bind_assoc]; rfl

theorem reads_accept_true (h : k.category = what) (ha : Reads ks F Q a) :
    Reads (k :: ks) F Q (accept what >>= fun found => if found = true then a else b) := by
  rw [accept_bind]
  exact reads_check_true (fun _ _ => h) (reads_take fun _ _ => ha)

theorem reads_accept_false (h : ∀ k, F k → (ks.headD k).category ≠ what) (hb : Reads ks F Q b) :
    Reads ks F Q (accept what >>= fun found => if found = true then a else b) := by
  rw [accept_bind]
  exact reads_check_false h hb

theorem reads_expect {f : Token → Parser β} (h : k.category = what)
    (hf : ∀ token, token.kind = k → Reads ks F Q (f token)) :
    Reads (k :: ks) F Q (expect what >>= f) := by
  rw [expect, bind_assoc]
  refine reads_take fun token htoken => ?_
  rw [if_pos (htoken ▸ h), pure_bind]
  exact hf token htoken

end Tests

theorem reads_typeId {f : String → Parser β} {name : String} (hf : Reads ks F Q (f name)) :
    Reads (.typeId name :: ks) F Q (typeId >>= f) := by
  rw [typeId, bind_assoc]
  refine reads_take fun token htoken => ?_
  rw [htoken]
  exact hf

theorem reads_objectId {f : String → Parser β} {name : String} (hf : Reads ks F Q (f name)) :
    Reads (.objectId name :: ks) F Q (objectId >>= f) := by
  rw [objectId, bind_assoc]
  refine reads_take fun token htoken => ?_
  rw [htoken]
  exact hf

theorem reads_withAllowance {p : Nat → Parser α}
    (hp : ∀ n, 8 * (ks.length + 1) ≤ n → Reads ks F P (p n)) : Reads ks F P (withAllowance p) := by
  intro taken more eof last htaken heof hmore
  refine hp _ ?_ taken more eof last htaken heof hmore
  rw [← htaken, List.length_map, List.length_append]
  omega

/-! ## Repetitions -/

section Repetitions

variable {γ : Type} {item : Parser α} {kinds : γ → List Kind} {R : γ → α → Prop} {stop : Category}

/-- Items in front of a token that none of them starts with. -/
theorem reads_manyUntil (hstop : ∀ k, F k → k.category = stop) : ∀ (xs : List γ) (n : Nat),
    (∀ x ∈ xs, Reads (kinds x) (fun _ => True) (R x) item) →
      (∀ x ∈ xs, ∀ k, ((kinds x).headD k).category ≠ stop) → xs.length < n →
        Reads (xs.flatMap kinds) F (List.Forall₂ R xs) (manyUntil stop item n)
  | _, 0, _, _, hn => absurd hn (Nat.not_lt_zero _)
  | [], n + 1, _, _, _ => by
    rw [manyUntil]
    exact reads_check_true hstop (reads_pure .nil)
  | x :: xs, n + 1, hitem, hhead, hn => by
    obtain ⟨hx, hxs⟩ := List.forall_mem_cons.mp hitem
    obtain ⟨hfirst, hheads⟩ := List.forall_mem_cons.mp hhead
    rw [manyUntil, List.flatMap_cons]
    refine reads_check_false (fun k _ => ?_) (hx.bind (fun y hy => ?_) fun _ _ => trivial)
    · rw [headD_append]
      exact hfirst _
    · exact (reads_manyUntil hstop xs n hxs hheads (Nat.lt_of_succ_lt_succ hn)).bind_pure
        fun ys hys => .cons hy hys

theorem reads_someUntil (hstop : ∀ k, F k → k.category = stop) {xs : List γ} {n : Nat}
    (hne : xs ≠ []) (hitem : ∀ x ∈ xs, Reads (kinds x) (fun _ => True) (R x) item)
    (hhead : ∀ x ∈ xs, ∀ k, ((kinds x).headD k).category ≠ stop) (hn : xs.length ≤ n) :
    Reads (xs.flatMap kinds) F (List.Forall₂ R xs) (someUntil stop item n) := by
  obtain ⟨x, xs, rfl⟩ := List.exists_cons_of_ne_nil hne
  obtain ⟨hx, hxs⟩ := List.forall_mem_cons.mp hitem
  rw [someUntil, List.flatMap_cons]
  refine hx.bind (fun y hy => ?_) fun _ _ => trivial
  exact (reads_manyUntil hstop xs n hxs (fun x hx => hhead x (List.mem_cons_of_mem _ hx))
    hn).bind_pure fun ys hys => .cons hy hys

theorem reads_commaItems (hcomma : ∀ k, F k → k.category ≠ .symbol .comma) :
    ∀ (xs : List γ) (n : Nat),
    (∀ x ∈ xs, Reads (kinds x) (fun k => k = .symbol .comma ∨ F k) (R x) item) → xs.length < n →
      Reads (xs.flatMap fun x => .symbol .comma :: kinds x) F (List.Forall₂ R xs)
        (commaItems item n)
  | _, 0, _, hn => absurd hn (Nat.not_lt_zero _)
  | [], n + 1, _, _ => by
    rw [commaItems]
    exact reads_accept_false hcomma (reads_pure .nil)
  | x :: xs, n + 1, hitem, hn => by
    obtain ⟨hx, hxs⟩ := List.forall_mem_cons.mp hitem
    rw [commaItems, List.flatMap_cons, List.cons_append]
    refine reads_accept_true rfl (hx.bind (fun y hy => ?_) fun k hk => ?_)
    · exact (reads_commaItems hcomma xs n hxs (Nat.lt_of_succ_lt_succ hn)).bind_pure
        fun ys hys => .cons hy hys
    · cases xs with
      | nil => exact Or.inr hk
      | cons _ _ => exact Or.inl rfl

/-- Items with commas between them, in parentheses. -/
theorem reads_commaList {xs : List γ} {n : Nat}
    (hitem : ∀ x ∈ xs,
      Reads (kinds x) (fun k => k = .symbol .comma ∨ k = .symbol .parenClose) (R x) item)
    (hhead : ∀ x ∈ xs, ∀ k, ((kinds x).headD k).category ≠ .symbol .parenClose)
    (hn : xs.length ≤ n) :
    Reads (Kind.commaList (xs.map kinds)) F (List.Forall₂ R xs) (commaList item n) := by
  have hclose : ∀ ys, List.Forall₂ R xs ys →
      Reads [.symbol .parenClose] F (List.Forall₂ R xs)
        (expect (.symbol .parenClose) >>= fun _ => pure ys) :=
    fun ys hys => reads_expect rfl fun _ _ => reads_pure hys
  unfold commaList
  cases xs with
  | nil =>
    refine reads_expect rfl fun _ _ => reads_check_true (fun _ _ => rfl) ?_
    exact hclose [] .nil
  | cons x xs =>
    obtain ⟨hx, hxs⟩ := List.forall_mem_cons.mp hitem
    rw [Kind.commaList, Kind.parenthesized, List.map_cons, Kind.commas, List.append_assoc,
      List.flatMap_map]
    refine reads_expect rfl fun _ _ => reads_check_false (fun k _ => ?_) ?_
    · rw [headD_append]
      exact hhead x List.mem_cons_self _
    · refine hx.bind (fun y hy => ?_) fun k _ => ?_
      · have hmore := reads_commaItems (F := (· = .symbol .parenClose)) (by rintro _ rfl ⟨⟩)
          xs n hxs hn
        exact hmore.bind (fun ys hys => hclose (y :: ys) (.cons hy hys)) fun _ _ => rfl
      · cases xs with
        | nil => exact Or.inr rfl
        | cons _ _ => exact Or.inl rfl

end Repetitions

end Parser

end Cool
