import Cool.Proofs.Grammar.Levels
import Cool.Proofs.Grammar.Raw

/-!
# Reading printed expressions

The tokens that an expression is printed as are read back as the expression: at its own level, and
where a tighter one is asked for in parentheses.

* `Expr.Reread` : the tokens of an expression are read back at all levels up to its own;
* `Reread.chain_guarded`, `Reread.operand_guarded`, `Reread.spine_guarded` : with parentheses where
  they are needed;
* `reread_cond`, `reread_binary`, ... : one lemma for each form of expression;
* `Expr.Raw.reread` : every expression without types is read back.
-/

namespace Cool

/-- Equal but for spans. -/
def Expr.Same (e x : Expr) : Prop :=
  x.unplaced = e.unplaced

namespace Grammar

open Cool.Parser

/-- A token that an expression may start with, as far as lists of expressions are concerned. -/
def Starts (k : Kind) : Prop :=
  k.category ≠ .symbol .parenClose ∧ k.category ≠ .symbol .braceClose

instance (k : Kind) : Decidable (Starts k) :=
  inferInstanceAs (Decidable (_ ∧ _))

/-- The tokens of an expression are read back at all levels up to its own. -/
structure Reread (e : Expr) : Prop where
  whole : IsWhole e.level e.kinds e.Same
  spine : 0 < e.level → IsSpine e.level e.kinds e.Same
  operand : 4 ≤ e.level → IsOperand e.kinds e.Same
  chain : 5 ≤ e.level → IsChain e.kinds e.Same
  head : ∀ k, Starts (e.kinds.headD k)
  noPrefix : 5 ≤ e.level → ∀ k, NoPrefix (e.kinds.headD k)

variable {α : Type} {e : Expr} {note : Note} {k : Kind} {ks : List Kind} {F : Kind → Prop}
  {Q : α → Prop} {what : Category} {n : Nat}

namespace Reread

theorem ne_nil_of_head {ks : List Kind} (h : ∀ k, Starts (ks.headD k)) : ks ≠ [] := by
  rintro rfl
  exact (h (.symbol .parenClose)).1 rfl

/-! ## From the level of an expression to all others -/

theorem of_open (hlevel : e.level = 0) (h : IsWhole 0 e.kinds e.Same)
    (hhead : ∀ k, Starts (e.kinds.headD k)) : Reread e where
  whole := hlevel ▸ h
  spine hpos := by omega
  operand hle := by omega
  chain hle := by omega
  head := hhead
  noPrefix hle := by omega

theorem of_spine (hpos : 0 < e.level) (hlt : e.level < 4) (h : IsSpine e.level e.kinds e.Same)
    (hhead : ∀ k, Starts (e.kinds.headD k)) : Reread e where
  whole := h.whole hpos
  spine _ := h
  operand hle := by omega
  chain hle := by omega
  head := hhead
  noPrefix hle := by omega

theorem of_operand (hlevel : e.level = 4) (h : IsOperand e.kinds e.Same)
    (hhead : ∀ k, Starts (e.kinds.headD k)) : Reread e where
  whole := (h.spine (ne_nil_of_head hhead) _).whole (by omega)
  spine _ := h.spine (ne_nil_of_head hhead) _
  operand _ := h
  chain hle := by omega
  head := hhead
  noPrefix hle := by omega

theorem of_chain (hlevel : e.level = 5) (h : IsChain e.kinds e.Same)
    (hhead : ∀ k, Starts (e.kinds.headD k)) (hfront : ∀ k, NoPrefix (e.kinds.headD k)) :
    Reread e where
  whole := ((h.operand hfront).spine (ne_nil_of_head hhead) _).whole (by omega)
  spine _ := (h.operand hfront).spine (ne_nil_of_head hhead) _
  operand _ := h.operand hfront
  chain _ := h
  head := hhead
  noPrefix _ := hfront

/-- What can be told from its first token. -/
theorem of_first (hlevel : e.level = 5) (hkinds : e.kinds = k :: ks) (hstarts : Starts k)
    (hfront : NoPrefix k)
    (h : ∀ n, 4 * ks.length < n → Reads (k :: ks) NoCall e.Same (primary (n + 1))) :
    Reread e := by
  have hprimary : IsPrimary e.kinds e.Same := by
    intro n hn
    rw [hkinds, List.length_cons] at hn
    obtain ⟨n, rfl⟩ := Nat.exists_eq_add_one.mpr (show 0 < n by omega)
    rw [hkinds]
    exact h n (by omega)
  refine of_chain hlevel (hprimary.chain ?_) ?_ ?_ <;> rw [hkinds]
  · exact List.cons_ne_nil k ks
  · exact fun _ => hstarts
  · exact fun _ => hfront

/-! ## In parentheses where they are needed -/

/-- An expression in front of a token that ends all expressions. -/
theorem inner (h : Reread e) (hn : 4 * e.kinds.length ≤ n) :
    Reads e.kinds Closes e.Same (exprAt n 0) :=
  (h.whole n 0 hn (Or.inr (Nat.zero_le _))).follow fun _ hk => hk.ends 0 e.level

/-- An expression with a token behind it that is asked for. -/
theorem before (h : Reread e) (hn : 4 * e.kinds.length ≤ n) (hk : Closes k)
    (hwhat : k.category = what) {f : Expr → Token → Parser α}
    (hf : ∀ x token, e.Same x → Reads ks F Q (f x token)) :
    Reads (e.kinds ++ k :: ks) F Q (exprAt n 0 >>= fun x => expect what >>= f x) :=
  (h.inner hn).bind (fun x hx => reads_expect hwhat fun token _ => hf x token hx) fun _ _ => hk

theorem chain_parenthesized (h : Reread e) : IsChain (Kind.parenthesized e.kinds) e.Same :=
  h.whole.parenthesized.chain (List.cons_ne_nil _ _)

theorem operand_parenthesized (h : Reread e) : IsOperand (Kind.parenthesized e.kinds) e.Same :=
  h.chain_parenthesized.operand fun _ => (show NoPrefix (.symbol .parenOpen) by decide)

theorem chain_guarded (h : Reread e) : IsChain (Kind.guarded 5 e.level e.kinds) e.Same := by
  unfold Kind.guarded
  split
  · exact h.chain_parenthesized
  · exact h.chain (by omega)

theorem operand_guarded (h : Reread e) : IsOperand (Kind.guarded 4 e.level e.kinds) e.Same := by
  unfold Kind.guarded
  split
  · exact h.operand_parenthesized
  · exact h.operand (by omega)

theorem spine_guarded (h : Reread e) {least : Nat} (hpos : 0 < least) :
    IsSpine least (Kind.guarded least e.level e.kinds) e.Same := by
  unfold Kind.guarded
  split
  · exact h.operand_parenthesized.spine (List.cons_ne_nil _ _) least
  · exact (h.spine (by omega)).mono (by omega)

theorem head_guarded (h : Reread e) {least : Nat} :
    ∀ k, Starts ((Kind.guarded least e.level e.kinds).headD k) := by
  unfold Kind.guarded
  split
  · exact fun _ => (show Starts (.symbol .parenOpen) by decide)
  · exact h.head

theorem noPrefix_guarded (h : Reread e) :
    ∀ k, NoPrefix ((Kind.guarded 5 e.level e.kinds).headD k) := by
  unfold Kind.guarded
  split
  · exact fun _ => (show NoPrefix (.symbol .parenOpen) by decide)
  · exact h.noPrefix (by omega)

end Reread

/-! ## Constants, names and what stands between keywords -/

theorem unplaced_untyped (hnote : note.type? = none) (span : Span) :
    (Note.untyped span).unplaced = note.unplaced := by
  rw [Note.unplaced, Note.unplaced, hnote]
  rfl

theorem reread_int (hnote : note.type? = none) (value : Nat) : Reread (.int note value) := by
  refine .of_first rfl rfl ⟨nofun, nofun⟩ ⟨nofun, nofun, nofun⟩ fun n hn => ?_
  rw [primary]
  refine reads_take fun token htoken => ?_
  rw [htoken]
  exact reads_pure (by simp [Expr.Same, unplaced_untyped hnote])

theorem reread_string (hnote : note.type? = none) (value : String) :
    Reread (.string note value) := by
  refine .of_first rfl rfl ⟨nofun, nofun⟩ ⟨nofun, nofun, nofun⟩ fun n hn => ?_
  rw [primary]
  refine reads_take fun token htoken => ?_
  rw [htoken]
  exact reads_pure (by simp [Expr.Same, unplaced_untyped hnote])

theorem reread_bool (hnote : note.type? = none) (value : Bool) : Reread (.bool note value) := by
  refine .of_first rfl rfl ⟨nofun, nofun⟩ ⟨nofun, nofun, nofun⟩ fun n hn => ?_
  rw [primary]
  refine reads_take fun token htoken => ?_
  rw [htoken]
  exact reads_pure (by simp [Expr.Same, unplaced_untyped hnote])

theorem reread_object (hnote : note.type? = none) (name : String) :
    Reread (.object note name) := by
  refine .of_first rfl rfl ⟨nofun, nofun⟩ ⟨nofun, nofun, nofun⟩ fun n hn => ?_
  rw [primary]
  refine reads_take fun token htoken => ?_
  rw [htoken]
  refine reads_accept_false (fun _ hk => hk.2) (reads_check_false (fun _ hk => hk.1) ?_)
  exact reads_pure (by simp [Expr.Same, unplaced_untyped hnote])

theorem reread_new (hnote : note.type? = none) (type : String) : Reread (.new note type) := by
  refine .of_first rfl rfl (by decide) (by decide) fun n hn => ?_
  rw [primary]
  refine reads_take fun token htoken => ?_
  rw [htoken]
  refine reads_typeId (reads_lastSpan fun span => reads_pure ?_)
  simp [Expr.Same, unplaced_untyped hnote]

theorem reread_cond {p a b : Expr} (hnote : note.type? = none) (hp : Reread p) (ha : Reread a)
    (hb : Reread b) : Reread (.cond note p a b) := by
  refine .of_first rfl rfl (by decide) (by decide) fun n hn => ?_
  simp only [List.length_cons, List.length_append] at hn
  rw [primary]
  refine reads_take fun token htoken => ?_
  rw [htoken]
  refine hp.before (by omega) (by decide) rfl fun p' _ hp' => ?_
  refine ha.before (by omega) (by decide) rfl fun a' _ ha' => ?_
  refine hb.before (by omega) (by decide) rfl fun b' stop hb' => reads_pure ?_
  rw [Expr.Same, Expr.unplaced, Expr.unplaced, unplaced_untyped hnote, hp', ha', hb']

theorem reread_loop {p body : Expr} (hnote : note.type? = none) (hp : Reread p)
    (hbody : Reread body) : Reread (.loop note p body) := by
  refine .of_first rfl rfl (by decide) (by decide) fun n hn => ?_
  simp only [List.length_cons, List.length_append] at hn
  rw [primary]
  refine reads_take fun token htoken => ?_
  rw [htoken]
  refine hp.before (by omega) (by decide) rfl fun p' _ hp' => ?_
  refine hbody.before (by omega) (by decide) rfl fun body' stop hbody' => reads_pure ?_
  rw [Expr.Same, Expr.unplaced, Expr.unplaced, unplaced_untyped hnote, hp', hbody']

/-! ## Lists -/

theorem map_eq_of_forall₂ {γ δ : Type} {g : γ → δ} : ∀ {xs ys : List γ},
    List.Forall₂ (fun x y => g y = g x) xs ys → ys.map g = xs.map g
  | _, _, .nil => rfl
  | _, _, .cons h hs => by rw [List.map_cons, List.map_cons, h, map_eq_of_forall₂ hs]

variable {args body : List Expr} {branches : List Branch}

/-- The arguments of a call. -/
theorem reads_args (h : ∀ e ∈ args, Reread e)
    (hn : 4 * (Kind.commaList (Expr.kindsAll args)).length ≤ n) :
    Reads (Kind.commaList (Expr.kindsAll args)) F
      (fun ys => Expr.unplacedAll ys = Expr.unplacedAll args) (commaList (exprAt n 0) n) := by
  rw [Expr.kindsAll_eq] at hn ⊢
  obtain ⟨hcount, hlength⟩ := Kind.length_commaList (args.map Expr.kinds)
  rw [List.length_map] at hcount hlength
  have hitem : ∀ e ∈ args, Reads e.kinds (fun k => k = .symbol .comma ∨ k = .symbol .parenClose)
      e.Same (exprAt n 0) := by
    intro e he
    have := hlength _ (List.mem_map_of_mem he)
    refine ((h e he).inner (by omega)).follow ?_
    rintro k (rfl | rfl) <;> decide
  refine (reads_commaList hitem (fun e he k => ((h e he).head k).1) (by omega)).imp fun ys hys => ?_
  rw [Expr.unplacedAll_eq, Expr.unplacedAll_eq]
  exact map_eq_of_forall₂ hys

theorem reread_selfDispatch (hnote : note.type? = none) (method : String)
    (hargs : ∀ e ∈ args, Reread e) : Reread (.selfDispatch note method args) := by
  refine .of_first rfl rfl ⟨nofun, nofun⟩ ⟨nofun, nofun, nofun⟩ fun n hn => ?_
  rw [primary]
  refine reads_take fun token htoken => ?_
  rw [htoken]
  have hopen : ∀ k, ((Kind.commaList (Expr.kindsAll args)).headD k) = .symbol .parenOpen := by
    intro k
    cases Expr.kindsAll args <;> rfl
  refine reads_accept_false (fun k _ => ?_) (reads_check_true (fun k _ => ?_) ?_)
  · rw [hopen]
    nofun
  · rw [hopen]
    rfl
  · rw [← List.append_nil (Kind.commaList _)]
    refine (reads_args hargs (by omega)).bind (fun ys hys => ?_) fun _ hk => hk
    refine reads_lastSpan fun span => reads_pure ?_
    rw [Expr.Same, Expr.unplaced, Expr.unplaced, unplaced_untyped hnote, hys]

theorem reread_block (hnote : note.type? = none) (hne : body ≠ [])
    (hbody : ∀ e ∈ body, Reread e) : Reread (.block note body) := by
  refine .of_first rfl rfl (by decide) (by decide) fun n hn => ?_
  rw [List.length_append, Expr.kindsAll_eq] at hn
  obtain ⟨hcount, hlength⟩ := Kind.length_semicolonList (body.map Expr.kinds)
  rw [List.length_map] at hcount hlength
  rw [primary, Expr.kindsAll_eq, Kind.semicolonList, List.flatMap_map]
  refine reads_take fun token htoken => ?_
  rw [htoken]
  refine (reads_someUntil (F := fun k => k.category = .symbol .braceClose) (R := Expr.Same)
    (fun _ hk => hk) hne (fun e he => ?_) (fun e he k => ?_) (by omega)).bind
      (fun ys hys => ?_) fun _ _ => rfl
  · have := hlength _ (List.mem_map_of_mem he)
    exact (hbody e he).before (by omega) (by decide) rfl fun x _ hx => reads_pure hx
  · rw [headD_append]
    exact ((hbody e he).head _).2
  · refine reads_expect rfl fun stop _ => reads_pure ?_
    rw [Expr.Same, Expr.unplaced, Expr.unplaced, unplaced_untyped hnote, Expr.unplacedAll_eq,
      Expr.unplacedAll_eq, map_eq_of_forall₂ hys]

theorem reread_typeCase {scrutinee : Expr} (hnote : note.type? = none)
    (hscrutinee : Reread scrutinee) (hne : branches ≠ [])
    (hbranches : ∀ b ∈ branches, Reread b.body) : Reread (.typeCase note scrutinee branches) := by
  refine .of_first rfl rfl (by decide) (by decide) fun n hn => ?_
  simp only [List.length_append, List.length_cons, Branch.kindsAll_eq] at hn
  obtain ⟨hcount, hlength⟩ := Kind.length_semicolonList (branches.map Branch.kinds)
  rw [List.length_map] at hcount hlength
  rw [primary, Branch.kindsAll_eq, Kind.semicolonList, List.flatMap_map]
  refine reads_take fun token htoken => ?_
  rw [htoken]
  refine hscrutinee.before (by omega) (by decide) rfl fun scrutinee' _ hscrutinee' => ?_
  extract_lets branch
  have hbranch : ∀ b ∈ branches, Reads (b.kinds ++ [.symbol .semicolon]) (fun _ => True)
      (fun b' => b'.unplaced = b.unplaced) branch := by
    intro b hb
    have := hlength _ (List.mem_map_of_mem hb)
    rw [Branch.kinds] at this
    simp only [List.length_cons] at this
    refine reads_peek fun first _ _ _ => reads_objectId (reads_expect rfl fun _ _ => ?_)
    refine reads_typeId (reads_expect rfl fun _ _ => ?_)
    refine (hbranches b hb).before (by omega) (by decide) rfl fun body' stop hbody' => ?_
    exact reads_pure (by rw [Branch.unplaced, Branch.unplaced, hbody'])
  refine (reads_someUntil (F := fun k => k.category = .keyword .esacKw) (fun _ hk => hk) hne
    hbranch (fun b _ k => ?_) (by omega)).bind (fun ys hys => ?_) fun _ _ => rfl
  · nofun
  · refine reads_expect rfl fun stop _ => reads_pure ?_
    rw [Expr.Same, Expr.unplaced, Expr.unplaced, unplaced_untyped hnote, hscrutinee',
      Branch.unplacedAll_eq, Branch.unplacedAll_eq, map_eq_of_forall₂ hys]

/-! ## Calls on receivers -/

/-- A receiver with the tokens of one more call behind it. -/
theorem reread_of_call {receiver : Expr} {call : List Kind} (hlevel : e.level = 5)
    (hkinds : e.kinds = Kind.guarded 5 receiver.level receiver.kinds ++ call)
    (hreceiver : Reread receiver) (hfirst : ∀ k, NoCall (call.headD k))
    (h : ∀ x m ks (F : Kind → Prop) (Q : Expr → Prop), receiver.Same x →
      4 * (call.length + ks.length) < m + 1 →
        (∀ y n, e.Same y → 4 * ks.length < n → Reads ks F Q (dispatches n y)) →
          Reads (call ++ ks) F Q (dispatches (m + 1) x)) : Reread e := by
  have hchain : IsChain e.kinds e.Same := by
    intro n ks F Q hn hF hmore
    rw [hkinds, List.length_append] at hn
    rw [hkinds, List.append_assoc]
    refine hreceiver.chain_guarded n (call ++ ks) F Q ?_ (fun k _ => ?_) fun x m hx hm => ?_
    · rw [List.length_append]
      omega
    · rw [headD_append]
      exact hfirst _
    · rw [List.length_append] at hm
      obtain ⟨m, rfl⟩ := Nat.exists_eq_add_one.mpr (show 0 < m by omega)
      exact h x m ks F Q hx hm hmore
  refine .of_chain hlevel hchain (fun k => ?_) fun k => ?_ <;> rw [hkinds, headD_append]
  · exact hreceiver.head_guarded _
  · exact hreceiver.noPrefix_guarded _

theorem reread_dispatch {receiver : Expr} (hnote : note.type? = none) (hreceiver : Reread receiver)
    (method : String) (hargs : ∀ e ∈ args, Reread e) :
    Reread (.dispatch note receiver method args) := by
  refine reread_of_call rfl rfl hreceiver (fun _ => ⟨nofun, nofun⟩) fun x m ks F Q hx hm hmore => ?_
  simp only [List.length_cons] at hm
  rw [dispatches]
  refine reads_accept_false (fun _ _ => nofun) (reads_accept_true rfl (reads_objectId ?_))
  refine (reads_args (F := fun _ => True) hargs (by omega)).bind (fun ys hys => ?_)
    fun _ _ => trivial
  refine reads_lastSpan fun span => hmore _ m ?_ (by omega)
  rw [Expr.Same, Expr.unplaced, Expr.unplaced, unplaced_untyped hnote, hx, hys]

theorem reread_staticDispatch {receiver : Expr} (hnote : note.type? = none)
    (hreceiver : Reread receiver) (type method : String) (hargs : ∀ e ∈ args, Reread e) :
    Reread (.staticDispatch note receiver type method args) := by
  refine reread_of_call rfl rfl hreceiver (fun _ => ⟨nofun, nofun⟩) fun x m ks F Q hx hm hmore => ?_
  simp only [List.length_cons] at hm
  rw [dispatches]
  refine reads_accept_true rfl (reads_typeId (reads_expect rfl fun _ _ => reads_objectId ?_))
  refine (reads_args (F := fun _ => True) hargs (by omega)).bind (fun ys hys => ?_)
    fun _ _ => trivial
  refine reads_lastSpan fun span => hmore _ m ?_ (by omega)
  rw [Expr.Same, Expr.unplaced, Expr.unplaced, unplaced_untyped hnote, hx, hys]

/-! ## Operators -/

theorem reread_isVoid {operand : Expr} (hnote : note.type? = none) (hoperand : Reread operand) :
    Reread (.isVoid note operand) := by
  refine .of_operand rfl (fun n hn => ?_) fun _ => (show Starts (.keyword .isvoidKw) by decide)
  rw [Expr.kinds, List.length_cons] at hn
  obtain ⟨n, rfl⟩ := Nat.exists_eq_add_one.mpr (show 0 < n by omega)
  rw [unary, Expr.kinds]
  refine reads_peek fun start _ _ _ => reads_accept_false (fun _ _ => nofun) ?_
  refine reads_accept_true rfl ((hoperand.operand_guarded n (by omega)).bind_pure fun x hx => ?_)
  rw [Expr.Same, Expr.unplaced, Expr.unplaced, unplaced_untyped hnote, hx]

theorem reread_negate {operand : Expr} (hnote : note.type? = none) (hoperand : Reread operand) :
    Reread (.unary note .negate operand) := by
  refine .of_operand rfl (fun n hn => ?_) fun _ => (show Starts (.symbol .tilde) by decide)
  rw [Expr.kinds, List.length_cons] at hn
  obtain ⟨n, rfl⟩ := Nat.exists_eq_add_one.mpr (show 0 < n by omega)
  rw [unary, Expr.kinds]
  refine reads_peek fun start _ _ _ => reads_accept_false (fun _ _ => nofun) ?_
  refine reads_accept_false (fun _ _ => nofun) (reads_accept_true rfl ?_)
  refine (hoperand.operand_guarded n (by omega)).bind_pure fun x hx => ?_
  rw [Expr.Same, Expr.unplaced, Expr.unplaced, unplaced_untyped hnote, hx]

theorem reread_not {operand : Expr} (hnote : note.type? = none) (hoperand : Reread operand) :
    Reread (.unary note .not operand) := by
  refine .of_open rfl (isWhole_of_unary (List.cons_ne_nil _ _) fun n hn => ?_)
    fun _ => (show Starts (.keyword .notKw) by decide)
  rw [Expr.kinds, List.length_cons] at hn
  obtain ⟨n, rfl⟩ := Nat.exists_eq_add_one.mpr (show 0 < n by omega)
  rw [unary, Expr.kinds]
  refine reads_peek fun start _ _ _ => reads_accept_true rfl ?_
  have hwhole := hoperand.whole n 1 (by omega) (by omega)
  refine (hwhole.follow fun k hk => hk.ends 1 operand.level).bind_pure fun x hx => ?_
  rw [Expr.Same, Expr.unplaced, Expr.unplaced, unplaced_untyped hnote, hx]

theorem binaryOp?_sign (op : BinaryOp) : binaryOp? (.symbol op.sign) = some op := by
  cases op <;> rfl

theorem meets_sign (op : BinaryOp) : Meets op.leftLevel (.symbol op.sign) := by
  refine ⟨by cases op <;> decide, fun op' hop' => ?_⟩
  rw [binaryOp?_sign] at hop'
  cases hop'
  exact Nat.le_refl _

/-- What may come behind an operation ends its right operand. -/
theorem Meets.ends_right {op : BinaryOp} (h : Meets op.level k) :
    Ends op.rightLevel op.rightLevel k :=
  ⟨h.mono (Nat.le_succ _), fun op' hop' =>
    Nat.lt_succ_of_le (Nat.le_trans (BinaryOp.level_le_leftLevel op') (h.2 op' hop'))⟩

theorem reads_noComparison {op : BinaryOp} (hop : op.isComparison = true) :
    Reads [] (Meets op.level) (fun _ => True) noComparison := by
  unfold noComparison
  refine reads_peek fun token k hk htoken => ?_
  rw [htoken, List.headD_nil]
  cases hop' : binaryOp? k with
  | none => exact reads_pure trivial
  | some op' =>
    have hlevel := hk.2 op' hop'
    have hnot : op'.isComparison = false := by
      revert hop hlevel
      cases op <;> cases op' <;> decide
    dsimp only
    rw [if_neg (by simp [hnot])]
    exact reads_pure trivial

theorem reread_binary {left right : Expr} (hnote : note.type? = none) (op : BinaryOp)
    (hleft : Reread left) (hright : Reread right) : Reread (.binary note op left right) := by
  have hspine : IsSpine op.level (Expr.binary note op left right).kinds
      (Expr.binary note op left right).Same := by
    intro n least ks F Q hle hn hF hmore
    simp only [Expr.kinds, List.length_append, List.length_cons] at hn
    rw [Expr.kinds, List.append_assoc]
    have hpos : 0 < op.leftLevel := by cases op <;> decide
    refine hleft.spine_guarded hpos n least _ F Q
      (Nat.le_trans hle (BinaryOp.level_le_leftLevel op)) ?_ (fun _ _ => meets_sign op)
      fun x m hx hm => ?_
    · simp only [List.length_append, List.length_cons]
      omega
    simp only [List.length_append, List.length_cons] at hm
    obtain ⟨m, rfl⟩ := Nat.exists_eq_add_one.mpr (show 0 < m by omega)
    rw [operators, List.cons_append]
    refine reads_peek fun token k hk htoken => ?_
    rw [htoken, List.headD_cons, binaryOp?_sign]
    dsimp only
    rw [if_neg (Nat.not_lt.mpr hle)]
    refine reads_take fun _ _ => ?_
    have hpos' : 0 < op.rightLevel := Nat.succ_pos _
    have hwhole := (hright.spine_guarded hpos').whole hpos' m op.rightLevel (by omega)
      (Or.inr (Nat.le_refl _))
    refine hwhole.bind (fun y hy => ?_) fun k hk => (hF k hk).ends_right
    have hrest := hmore (.binary (.untyped (x.span.through y.span)) op x y) m
      (by rw [Expr.Same, Expr.unplaced, Expr.unplaced, unplaced_untyped hnote, hx, hy]) (by omega)
    split
    · rename_i hop
      exact (reads_noComparison hop).bind (fun _ _ => hrest) hF
    · exact hrest
  have hlevel : 0 < op.level ∧ op.level < 4 := by cases op <;> decide
  refine .of_spine hlevel.1 hlevel.2 hspine fun k => ?_
  rw [Expr.kinds, headD_append]
  exact hleft.head_guarded _

/-! ## Assignments and bindings -/

theorem reread_assign {value : Expr} (hnote : note.type? = none) (name : String)
    (hvalue : Reread value) : Reread (.assign note name value) := by
  refine .of_open rfl (isWhole_of_primary (fun _ => ⟨nofun, nofun, nofun⟩) fun n hn => ?_)
    fun _ => ⟨nofun, nofun⟩
  simp only [Expr.kinds, List.length_cons] at hn
  obtain ⟨n, rfl⟩ := Nat.exists_eq_add_one.mpr (show 0 < n by omega)
  rw [primary, Expr.kinds]
  refine reads_take fun token htoken => ?_
  rw [htoken]
  refine reads_accept_true rfl ((hvalue.inner (by omega)).bind_pure fun x hx => ?_)
  rw [Expr.Same, Expr.unplaced, Expr.unplaced, unplaced_untyped hnote, hx]

/-- An initial value, if there is one. -/
theorem reads_init {init : Option Expr} {p : Parser Expr} {f : Option Expr → Parser α}
    (hp : ∀ e ∈ init, Reads e.kinds Closes e.Same p) (hks : ∀ k, F k → Closes (ks.headD k))
    (hf : ∀ init', Expr.unplacedInit init' = Expr.unplacedInit init → Reads ks F Q (f init')) :
    Reads (Expr.kindsInit init ++ ks) F Q
      (accept (.symbol .assign) >>= fun found =>
        if found = true then (some <$> p) >>= f else pure none >>= f) := by
  cases init with
  | none => exact reads_accept_false (fun k hk => (hks k hk).1.1.2) (hf none rfl)
  | some e =>
    have hvalue : Reads e.kinds Closes (fun init' => Expr.unplacedInit init' = some e.unplaced)
        (some <$> p) :=
      (hp e rfl).map fun x hx => congrArg some hx
    exact reads_accept_true rfl (hvalue.bind hf hks)

theorem reread_letIn {init : Option Expr} {body : Expr} (hnote : note.type? = none)
    (name type : String) (hinit : ∀ e ∈ init, Reread e) (hbody : Reread body) :
    Reread (.letIn note name type init body) := by
  refine .of_open rfl (isWhole_of_primary (fun _ => ⟨nofun, nofun, nofun⟩) fun n hn => ?_)
    fun _ => ⟨nofun, nofun⟩
  simp only [Expr.kinds, List.length_cons, List.length_append] at hn
  obtain ⟨n, rfl⟩ := Nat.exists_eq_add_one.mpr (show 0 < n by omega)
  rw [primary, Expr.kinds]
  refine reads_take fun token htoken => ?_
  rw [htoken]
  obtain ⟨n, rfl⟩ := Nat.exists_eq_add_one.mpr (show 0 < n by omega)
  show Reads _ _ _ (bindings (n + 1) token.span)
  rw [bindings]
  refine reads_objectId (reads_expect rfl fun _ _ => reads_typeId ?_)
  -- what comes behind the initial value, which may be missing
  extract_lets behind
  refine reads_init (fun e he => (hinit e he).inner ?_) (fun _ _ => ?_) fun init' hinit' => ?_
  · rw [he, Expr.kindsInit, List.length_cons] at hn
    omega
  · exact (show Closes (.keyword .inKw) by decide)
  · refine reads_accept_false (fun _ _ => by rintro ⟨⟩) (reads_expect rfl fun _ _ => ?_)
    refine (hbody.inner (by omega)).bind_pure fun x hx => ?_
    rw [Expr.Same, Expr.unplaced, Expr.unplaced, unplaced_untyped hnote, hinit', hx]

/-! ## All expressions -/

mutual

theorem reread_of_raw : ∀ e : Expr, Note.Untyped e.notes → e.NonEmpty → Reread e
  | .int _ value, hu, _ => reread_int (hu _ List.mem_cons_self) value
  | .string _ value, hu, _ => reread_string (hu _ List.mem_cons_self) value
  | .bool _ value, hu, _ => reread_bool (hu _ List.mem_cons_self) value
  | .object _ name, hu, _ => reread_object (hu _ List.mem_cons_self) name
  | .new _ type, hu, _ => reread_new (hu _ List.mem_cons_self) type
  | .assign _ name value, hu, hne => by
    obtain ⟨hnote, hu⟩ := List.forall_mem_cons.mp hu
    exact reread_assign hnote name (reread_of_raw value hu hne)
  | .selfDispatch _ method args, hu, hne => by
    obtain ⟨hnote, hu⟩ := List.forall_mem_cons.mp hu
    exact reread_selfDispatch hnote method (reread_of_rawAll args hu hne)
  | .dispatch _ receiver method args, hu, hne => by
    obtain ⟨hnote, hu⟩ := List.forall_mem_cons.mp hu
    obtain ⟨hr, hargs⟩ := List.forall_mem_append.mp hu
    exact reread_dispatch hnote (reread_of_raw receiver hr hne.1) method
      (reread_of_rawAll args hargs hne.2)
  | .staticDispatch _ receiver type method args, hu, hne => by
    obtain ⟨hnote, hu⟩ := List.forall_mem_cons.mp hu
    obtain ⟨hr, hargs⟩ := List.forall_mem_append.mp hu
    exact reread_staticDispatch hnote (reread_of_raw receiver hr hne.1) type method
      (reread_of_rawAll args hargs hne.2)
  | .cond _ p a b, hu, hne => by
    obtain ⟨hnote, hu⟩ := List.forall_mem_cons.mp hu
    obtain ⟨hp, hu⟩ := List.forall_mem_append.mp hu
    obtain ⟨ha, hb⟩ := List.forall_mem_append.mp hu
    exact reread_cond hnote (reread_of_raw p hp hne.1) (reread_of_raw a ha hne.2.1)
      (reread_of_raw b hb hne.2.2)
  | .loop _ p body, hu, hne => by
    obtain ⟨hnote, hu⟩ := List.forall_mem_cons.mp hu
    obtain ⟨hp, hbody⟩ := List.forall_mem_append.mp hu
    exact reread_loop hnote (reread_of_raw p hp hne.1) (reread_of_raw body hbody hne.2)
  | .block _ body, hu, hne => by
    obtain ⟨hnote, hu⟩ := List.forall_mem_cons.mp hu
    exact reread_block hnote hne.1 (reread_of_rawAll body hu hne.2)
  | .letIn _ name type init body, hu, hne => by
    obtain ⟨hnote, hu⟩ := List.forall_mem_cons.mp hu
    obtain ⟨hinit, hbody⟩ := List.forall_mem_append.mp hu
    exact reread_letIn hnote name type (reread_of_rawInit init hinit hne.1)
      (reread_of_raw body hbody hne.2)
  | .typeCase _ scrutinee branches, hu, hne => by
    obtain ⟨hnote, hu⟩ := List.forall_mem_cons.mp hu
    obtain ⟨hs, hbranches⟩ := List.forall_mem_append.mp hu
    exact reread_typeCase hnote (reread_of_raw scrutinee hs hne.1) hne.2.1
      (reread_of_rawBranches branches hbranches hne.2.2)
  | .binary _ op left right, hu, hne => by
    obtain ⟨hnote, hu⟩ := List.forall_mem_cons.mp hu
    obtain ⟨hl, hr⟩ := List.forall_mem_append.mp hu
    exact reread_binary hnote op (reread_of_raw left hl hne.1) (reread_of_raw right hr hne.2)
  | .unary _ .negate operand, hu, hne => by
    obtain ⟨hnote, hu⟩ := List.forall_mem_cons.mp hu
    exact reread_negate hnote (reread_of_raw operand hu hne)
  | .unary _ .not operand, hu, hne => by
    obtain ⟨hnote, hu⟩ := List.forall_mem_cons.mp hu
    exact reread_not hnote (reread_of_raw operand hu hne)
  | .isVoid _ operand, hu, hne => by
    obtain ⟨hnote, hu⟩ := List.forall_mem_cons.mp hu
    exact reread_isVoid hnote (reread_of_raw operand hu hne)

theorem reread_of_rawAll : ∀ es : List Expr, Note.Untyped (Expr.notesAll es) →
    Expr.NonEmptyAll es → ∀ e ∈ es, Reread e
  | [], _, _ => List.forall_mem_nil _
  | e :: es, hu, hne => by
    obtain ⟨he, hes⟩ := List.forall_mem_append.mp hu
    exact List.forall_mem_cons.mpr ⟨reread_of_raw e he hne.1, reread_of_rawAll es hes hne.2⟩

theorem reread_of_rawInit : ∀ init : Option Expr, Note.Untyped (Expr.notesInit init) →
    Expr.NonEmptyInit init → ∀ e ∈ init, Reread e
  | none, _, _ => nofun
  | some e, hu, hne => fun _ he => Option.mem_some.mp he ▸ reread_of_raw e hu hne

theorem reread_of_rawBranches : ∀ bs : List Branch, Note.Untyped (Branch.notesAll bs) →
    Branch.NonEmptyAll bs → ∀ b ∈ bs, Reread b.body
  | [], _, _ => List.forall_mem_nil _
  | ⟨_, _, body, _⟩ :: bs, hu, hne => by
    obtain ⟨hb, hbs⟩ := List.forall_mem_append.mp hu
    exact List.forall_mem_cons.mpr
      ⟨reread_of_raw body hb hne.1, reread_of_rawBranches bs hbs hne.2⟩

end

end Grammar

/-- An expression as it is read, printed and read again. -/
theorem Expr.Raw.reread {e : Expr} (h : e.Raw) : Grammar.Reread e :=
  Grammar.reread_of_raw e h.untyped h.nonEmpty

end Cool
