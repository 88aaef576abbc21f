import Cool.Proofs.Grammar.Reads

/-!
# Reading by level

The functions that read expressions call each other from the loosest level down to the tightest,
and come back up with what they have read, to which the next tokens may add. What a function reads
at its level is therefore said with whatever the functions above it go on to read. Each level
follows from the one below it, and parentheses lead from the loosest to the tightest.

* `NoCall`, `NoJoin`, `Meets`, `Ends` : what may come behind an expression;
* `IsPrimary`, `IsChain`, `IsOperand`, `IsSpine`, `IsWhole` : tokens that are read at a level;
* `IsPrimary.chain`, `IsChain.operand`, `IsOperand.spine`, `IsSpine.whole`,
  `IsWhole.parenthesized` : from one level to the next.
-/

namespace Cool

namespace Grammar

open Cool.Parser

/-! ## What may follow -/

/-- The token does not make a call or an assignment of a name in front of it. -/
def NoCall (k : Kind) : Prop :=
  k.category ≠ .symbol .parenOpen ∧ k.category ≠ .symbol .assign

/-- Nor does it call a method of an expression in front of it. -/
def NoJoin (k : Kind) : Prop :=
  NoCall k ∧ k.category ≠ .symbol .dot ∧ k.category ≠ .symbol .atSign

/-- The token may be an operator that takes an expression of a level for its left operand. -/
def Meets (level : Nat) (k : Kind) : Prop :=
  NoJoin k ∧ ∀ op ∈ binaryOp? k, op.leftLevel ≤ level

/-- The token ends an expression of a level where operators of at least some level are read. -/
def Ends (least level : Nat) (k : Kind) : Prop :=
  Meets level k ∧ ∀ op ∈ binaryOp? k, op.level < least

/-- The token ends every expression. -/
def Closes (k : Kind) : Prop :=
  NoJoin k ∧ binaryOp? k = none

theorem Closes.ends {k : Kind} (h : Closes k) (least level : Nat) : Ends least level k := by
  refine ⟨⟨h.1, ?_⟩, ?_⟩ <;> rw [h.2] <;> exact nofun

instance (k : Kind) : Decidable (NoCall k) :=
  inferInstanceAs (Decidable (_ ∧ _))

instance (k : Kind) : Decidable (NoJoin k) :=
  inferInstanceAs (Decidable (_ ∧ _))

instance (k : Kind) : Decidable (Closes k) :=
  inferInstanceAs (Decidable (_ ∧ _))

/-- The token does not start an expression with an operator in front. -/
def NoPrefix (k : Kind) : Prop :=
  k.category ≠ .keyword .notKw ∧ k.category ≠ .keyword .isvoidKw ∧ k.category ≠ .symbol .tilde

instance (k : Kind) : Decidable (NoPrefix k) :=
  inferInstanceAs (Decidable (_ ∧ _ ∧ _))

theorem BinaryOp.level_le_leftLevel (op : BinaryOp) : op.level ≤ op.leftLevel := by
  cases op <;> decide

/-! ## Levels -/

variable {ks : List Kind} {P : Expr → Prop} {level : Nat}

def IsPrimary (ks : List Kind) (P : Expr → Prop) : Prop :=
  ∀ n, 4 * ks.length ≤ n + 2 → Reads ks NoCall P (primary n)

/-- Whatever calls of methods come behind, they are calls on what the tokens `ks` stand for. -/
def IsChain (ks : List Kind) (P : Expr → Prop) : Prop :=
  ∀ (n : Nat) (ks' : List Kind) (F : Kind → Prop) (Q : Expr → Prop),
    4 * (ks.length + ks'.length) ≤ n + 2 → (∀ k, F k → NoCall (ks'.headD k)) →
      (∀ x m, P x → 4 * ks'.length < m → Reads ks' F Q (dispatches m x)) →
        Reads (ks ++ ks') F Q (primary n >>= dispatches n)

def IsOperand (ks : List Kind) (P : Expr → Prop) : Prop :=
  ∀ n, 4 * ks.length ≤ n + 1 → Reads ks NoJoin P (unary n)

/-- Whatever operators come behind, the first one has what the tokens `ks` stand for on its left. -/
def IsSpine (level : Nat) (ks : List Kind) (P : Expr → Prop) : Prop :=
  ∀ (n least : Nat) (ks' : List Kind) (F : Kind → Prop) (Q : Expr → Prop),
    least ≤ level → 4 * (ks.length + ks'.length) ≤ n → (∀ k, F k → Meets level (ks'.headD k)) →
      (∀ x m, P x → 4 * ks'.length < m → Reads ks' F Q (operators m least x)) →
        Reads (ks ++ ks') F Q (exprAt n least)

/-- What is open to the right can stand at any level, as nothing comes behind it. -/
def IsWhole (level : Nat) (ks : List Kind) (P : Expr → Prop) : Prop :=
  ∀ n least, 4 * ks.length ≤ n → level = 0 ∨ least ≤ level →
    Reads ks (Ends least level) P (exprAt n least)

theorem IsPrimary.chain (h : IsPrimary ks P) (hne : ks ≠ []) : IsChain ks P := by
  intro n ks' F Q hn hF hmore
  have hpos := List.length_pos_iff.mpr hne
  refine (h n (by omega)).bind (fun x hx => hmore x n hx (by omega)) hF

theorem reads_dispatches_nil {x : Expr} {m : Nat} (hm : 0 < m) (hx : P x) :
    Reads [] NoJoin P (dispatches m x) := by
  obtain ⟨m, rfl⟩ := Nat.exists_eq_add_one.mpr hm
  rw [dispatches]
  refine reads_accept_false (fun k hk => hk.2.2) ?_
  exact reads_accept_false (fun k hk => hk.2.1) (reads_pure hx)

theorem reads_unary {F : Kind → Prop} {n : Nat} (hhead : ∀ k, NoPrefix (ks.headD k))
    (h : Reads ks F P (primary n >>= dispatches n)) : Reads ks F P (unary (n + 1)) := by
  rw [unary]
  refine reads_peek fun start _ _ _ => ?_
  refine reads_accept_false (fun k _ => (hhead k).1) ?_
  refine reads_accept_false (fun k _ => (hhead k).2.1) ?_
  exact reads_accept_false (fun k _ => (hhead k).2.2) h

theorem ne_nil_of_noPrefix (h : ∀ k, NoPrefix (ks.headD k)) : ks ≠ [] := by
  rintro rfl
  exact (h (.keyword .notKw)).1 rfl

theorem IsChain.operand (h : IsChain ks P) (hhead : ∀ k, NoPrefix (ks.headD k)) :
    IsOperand ks P := by
  intro n hn
  have hpos := List.length_pos_iff.mpr (ne_nil_of_noPrefix hhead)
  obtain ⟨n, rfl⟩ := Nat.exists_eq_add_one.mpr (show 0 < n by omega)
  refine reads_unary hhead ?_
  rw [← List.append_nil ks]
  refine h n [] NoJoin P (by simpa using by omega) (fun k hk => hk.1) fun x m hx hm => ?_
  exact reads_dispatches_nil hm hx

theorem Meets.mono {least : Nat} {k : Kind} (h : Meets least k) (hle : least ≤ level) :
    Meets level k :=
  ⟨h.1, fun op hop => Nat.le_trans (h.2 op hop) hle⟩

theorem IsOperand.spine (h : IsOperand ks P) (hne : ks ≠ []) (level : Nat) :
    IsSpine level ks P := by
  intro n least ks' F Q hle hn hF hmore
  have hpos := List.length_pos_iff.mpr hne
  obtain ⟨n, rfl⟩ := Nat.exists_eq_add_one.mpr (show 0 < n by omega)
  rw [exprAt]
  exact (h n (by omega)).bind (fun x hx => hmore x n hx (by omega)) fun k hk => (hF k hk).1

/-- What reaches up to a level can be taken where less is asked for. -/
theorem IsSpine.mono {least : Nat} (h : IsSpine level ks P) (hle : least ≤ level) :
    IsSpine least ks P :=
  fun n low ks' F Q hlow hn hF hmore =>
    h n low ks' F Q (Nat.le_trans hlow hle) hn (fun k hk => (hF k hk).mono hle) hmore

theorem reads_operators_nil {x : Expr} {m least : Nat} (hm : 0 < m) (hx : P x) :
    Reads [] (Ends least level) P (operators m least x) := by
  obtain ⟨m, rfl⟩ := Nat.exists_eq_add_one.mpr hm
  rw [operators]
  refine reads_peek fun token k hk htoken => ?_
  rw [htoken, List.headD_nil]
  cases hop : binaryOp? k with
  | none => exact reads_pure hx
  | some op =>
    dsimp only
    rw [if_pos (hk.2 op hop)]
    exact reads_pure hx

theorem IsSpine.whole (h : IsSpine level ks P) (hpos : 0 < level) : IsWhole level ks P := by
  intro n least hn hle
  rw [← List.append_nil ks]
  refine h n least [] _ _ (hle.resolve_left (Nat.ne_of_gt hpos)) (by simpa using hn)
    (fun k hk => hk.1) ?_
  exact fun x m hx hm => reads_operators_nil hm hx

/-! ## Open expressions -/

theorem Ends.closes {least : Nat} {k : Kind} (h : Ends least 0 k) : Closes k := by
  refine ⟨h.1.1, ?_⟩
  cases hop : binaryOp? k with
  | none => rfl
  | some op =>
    have hlevel := h.1.2 op hop
    cases op <;> cases hlevel

/-- What is open to the right is read with an operator in front, or as a primary expression. -/
theorem isWhole_of_unary (hne : ks ≠ [])
    (h : ∀ n, 4 * ks.length ≤ n + 1 → Reads ks Closes P (unary n)) : IsWhole 0 ks P := by
  intro n least hn _
  have hpos := List.length_pos_iff.mpr hne
  obtain ⟨n, rfl⟩ := Nat.exists_eq_add_one.mpr (show 0 < n by omega)
  rw [exprAt, ← List.append_nil ks]
  refine (h n (by omega)).bind (fun x hx => ?_) fun k hk => hk.closes
  exact reads_operators_nil (by omega) hx

theorem isWhole_of_primary (hhead : ∀ k, NoPrefix (ks.headD k))
    (h : ∀ n, 4 * ks.length ≤ n + 2 → Reads ks Closes P (primary n)) : IsWhole 0 ks P := by
  have hne := ne_nil_of_noPrefix hhead
  have hpos := List.length_pos_iff.mpr hne
  refine isWhole_of_unary hne fun n hn => ?_
  obtain ⟨n, rfl⟩ := Nat.exists_eq_add_one.mpr (show 0 < n by omega)
  refine reads_unary hhead ?_
  rw [← List.append_nil ks]
  refine (h n (by omega)).bind (fun x hx => ?_) fun _ hk => hk
  exact (reads_dispatches_nil (by omega) hx).follow fun _ hk => hk.1

/-! ## Parentheses -/

/-- Everything can stand in parentheses. -/
theorem IsWhole.parenthesized (h : IsWhole level ks P) : IsPrimary (Kind.parenthesized ks) P := by
  intro n hn
  rw [Kind.parenthesized, List.length_cons, List.length_append, List.length_singleton] at hn
  obtain ⟨n, rfl⟩ := Nat.exists_eq_add_one.mpr (show 0 < n by omega)
  rw [primary, Kind.parenthesized]
  refine reads_take fun token htoken => ?_
  rw [htoken]
  refine (h n 0 (by omega) (Or.inr (Nat.zero_le _))).bind (fun x hx => ?_) fun k _ => ?_
  · exact reads_expect rfl fun _ _ => reads_pure hx
  · exact (show Closes (.symbol .parenClose) by decide).ends 0 level

end Grammar

end Cool
