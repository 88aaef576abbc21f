import Cool.Proofs.Typing.Erase
import Cool.Proofs.Typing.Node
import Cool.Proofs.Typing.Scopes

/-!
# The check decides the rules

An expression that is checked without a report obeys the rules, with the types that the check
notes; and an expression whose nodes carry types by the rules is checked without a report and stays
as it is. As the check does not read the types that it finds noted, it follows that no expression
can be annotated by the rules in two ways.

* `Expr.hasType_of_check` : what the check accepts obeys the rules;
* `HasType.check_eq` : what obeys the rules is accepted.
-/

namespace Cool

/-! ## Joins of branches -/

/-- The join of the types of the branches so far, if there are any. -/
def World.JoinedTo (W : World) (enclosing : String) (types : List Ty) : Option Ty → Prop
  | none => types = []
  | some τ => W.IsJoin enclosing types τ

namespace Context

variable {Γ : Context} {span : Span} {types : List Ty} {joined : Option Ty} {τ υ : Ty}

theorem joinBranch_eq_pure_iff (hΓ : Γ.Lawful) (hτ : Γ.world.IsType τ)
    (h : Γ.world.JoinedTo Γ.className types joined) :
    Γ.joinBranch span τ joined = pure υ ↔ Γ.world.IsJoin Γ.className (types ++ [τ]) υ := by
  cases joined with
  | none =>
    obtain rfl : types = [] := h
    have hjoin : Γ.world.IsJoin Γ.className [τ] τ := .singleton hτ
    rw [joinBranch, Diagnosed.pure_inj, List.nil_append]
    exact ⟨fun heq => heq ▸ hjoin, fun h => hΓ.world.isJoin_unique hjoin h⟩
  | some σ =>
    have hσ : Γ.world.IsJoin Γ.className types σ := h
    rw [joinBranch, join_eq_pure_iff hΓ, hσ.snoc_iff]

theorem exists_joinBranch {s : Span} (hΓ : Γ.Lawful) (hτ : Γ.world.IsType τ)
    (htypes : ∀ σ ∈ types, Γ.world.IsType σ)
    (h : Γ.world.JoinedTo Γ.className types joined) : ∃ υ, Γ.joinBranch s τ joined = pure υ := by
  cases joined with
  | none => exact ⟨τ, rfl⟩
  | some σ =>
    have hσ : Γ.world.IsType σ := hΓ.world.isType_of_isJoin h htypes
    obtain ⟨υ, hυ⟩ := exists_join hΓ hσ hτ
    exact ⟨υ, (join_eq_pure_iff hΓ).mpr hυ⟩

end Context

/-! ## What the check accepts -/

theorem Expr.length_checkAll (Γ : Context) (σ : Scope) (es : List Expr) :
    (Expr.checkAll Γ σ es).value.2.length = es.length := by
  induction es with
  | nil => rfl
  | cons e es ih =>
    simp only [Expr.checkAll, Diagnosed.value_bind, Diagnosed.value_pure, List.length_cons, ih]

theorem Branch.ne_nil_of_checkAll {Γ : Context} {σ : Scope} {span : Span} {seen : List String}
    {joined joined' : Option Ty} {branches bs : List Branch} (hne : branches ≠ [])
    (h : Branch.checkAll Γ σ span seen joined branches = pure (bs, joined')) : bs ≠ [] := by
  obtain ⟨⟨_, _, _, _⟩, branches, rfl⟩ := List.exists_cons_of_ne_nil hne
  simp only [Branch.checkAll, Diagnosed.bind_eq_pure_iff, Diagnosed.pure_inj, Prod.exists] at h
  obtain ⟨_, _, _, _, _, _, _, _, _, _, _, _, _, _, heq⟩ := h
  cases heq
  exact List.cons_ne_nil _ _

variable {Γ : Context}

mutual

theorem Expr.hasType_of_check (hΓ : Γ.Lawful) : ∀ {e : Expr} {σ : Scope} {a : Expr} {τ : Ty},
    e.NonEmpty → Env.Valid Γ.world σ.lookup? → e.check Γ σ = pure (a, τ) →
      HasType Γ.world Γ.className σ.lookup? a τ
  | .int .., _, _, _, _, _, h => by
    cases Diagnosed.pure_inj.mp h
    exact .int
  | .string .., _, _, _, _, _, h => by
    cases Diagnosed.pure_inj.mp h
    exact .string
  | .bool .., _, _, _, _, _, h => by
    cases Diagnosed.pure_inj.mp h
    exact .bool
  | .object note name, σ, _, _, _, _, h => by
    simp only [Expr.check, Diagnosed.bind_eq_pure_iff, Diagnosed.pure_inj,
      Context.objectType_eq_pure_iff] at h
    obtain ⟨τ, hname, heq⟩ := h
    cases heq
    by_cases hself : name = Names.self
    · subst hself
      cases hname
      exact .self
    · exact .object hself hname
  | .assign note name value, σ, _, _, hne, henv, h => by
    simp only [Expr.check, Diagnosed.bind_eq_pure_iff, Diagnosed.pure_inj, Prod.exists,
      Context.assignType_eq_pure_iff hΓ] at h
    obtain ⟨a, ι, hvalue, τ, ⟨hself, rfl, declared, hname, hconforms⟩, heq⟩ := h
    cases heq
    exact .assign hself hname (Expr.hasType_of_check hΓ (e := value) hne henv hvalue) hconforms
  | .selfDispatch note method args, σ, _, _, hne, henv, h => by
    simp only [Expr.check, Diagnosed.bind_eq_pure_iff, Diagnosed.pure_inj, Prod.exists,
      Context.callType_eq_pure_iff hΓ hΓ.enclosing] at h
    obtain ⟨as, types, hargs, τ, hcall, heq⟩ := h
    cases heq
    exact .selfDispatch (Expr.hasTypes_of_checkAll hΓ hne henv hargs) hcall
  | .dispatch note receiver method args, σ, _, _, hne, henv, h => by
    simp only [Expr.check, Diagnosed.bind_eq_pure_iff, Diagnosed.pure_inj, Prod.exists] at h
    obtain ⟨r, ρ, hreceiver, as, types, hargs, τ, hcall, heq⟩ := h
    cases heq
    have hr := Expr.hasType_of_check hΓ hne.1 henv hreceiver
    have hρ := hr.isType hΓ.world henv
    rw [Context.callType_eq_pure_iff hΓ (Context.contains_resolve hΓ hρ)] at hcall
    exact .dispatch hr (Expr.hasTypes_of_checkAll hΓ hne.2 henv hargs) hcall
  | .staticDispatch note receiver type method args, σ, _, _, hne, henv, h => by
    simp only [Expr.check, Diagnosed.bind_eq_pure_iff, Diagnosed.pure_inj, Prod.exists,
      Context.staticCallType_eq_pure_iff hΓ] at h
    obtain ⟨r, ρ, hreceiver, as, types, hargs, τ, ⟨htype, hconforms, hcall⟩, heq⟩ := h
    cases heq
    have hr := Expr.hasType_of_check hΓ hne.1 henv hreceiver
    exact .staticDispatch hr (Expr.hasTypes_of_checkAll hΓ hne.2 henv hargs) htype hconforms hcall
  | .new note type, _, _, _, _, _, h => by
    simp only [Expr.check, Diagnosed.bind_eq_pure_iff, Diagnosed.pure_inj,
      Context.newType_eq_pure_iff] at h
    obtain ⟨τ, htype, heq⟩ := h
    cases heq
    exact .new htype
  | .cond note predicate thenBranch elseBranch, σ, _, _, hne, henv, h => by
    simp only [Expr.check, Diagnosed.bind_eq_pure_iff, Diagnosed.pure_inj, Prod.exists,
      Context.require_eq_pure_iff, Context.isClass_iff, Context.join_eq_pure_iff hΓ] at h
    obtain ⟨p, _, hpredicate, -, rfl, t, ι, hthen, e, κ, helse, υ, hjoin, heq⟩ := h
    cases heq
    have hp := Expr.hasType_of_check hΓ hne.1 henv hpredicate
    have ht := Expr.hasType_of_check hΓ hne.2.1 henv hthen
    have he := Expr.hasType_of_check hΓ hne.2.2 henv helse
    exact .cond hp ht he hjoin
  | .loop note predicate body, σ, _, _, hne, henv, h => by
    simp only [Expr.check, Diagnosed.bind_eq_pure_iff, Diagnosed.pure_inj, Prod.exists,
      Context.require_eq_pure_iff, Context.isClass_iff] at h
    obtain ⟨p, _, hpredicate, -, rfl, b, ι, hbody, heq⟩ := h
    cases heq
    have hp := Expr.hasType_of_check hΓ hne.1 henv hpredicate
    exact .loop hp (Expr.hasType_of_check hΓ hne.2 henv hbody)
  | .block note body, σ, _, _, hne, henv, h => by
    simp only [Expr.check, Diagnosed.bind_eq_pure_iff, Diagnosed.pure_inj, Prod.exists] at h
    obtain ⟨b, types, hbody, heq⟩ := h
    cases heq
    have hlength : types.length = body.length := by
      have hvalue := Expr.length_checkAll Γ σ body
      rwa [hbody] at hvalue
    have htypes : types ≠ [] := by
      rw [← List.length_pos_iff, hlength, List.length_pos_iff]
      exact hne.1
    have hlast : types.getLast? = some (types.getLastD .object) := by
      rw [List.getLastD_eq_getLast?, List.getLast?_eq_some_getLast htypes]
      rfl
    exact .block (Expr.hasTypes_of_checkAll hΓ hne.2 henv hbody) hlast
  | .letIn note name type init body, σ, _, _, hne, henv, h => by
    simp only [Expr.check, Diagnosed.bind_eq_pure_iff, Diagnosed.pure_inj, Prod.exists,
      Context.require_eq_pure_iff, Context.letType_eq_pure_iff, decide_eq_true_eq] at h
    obtain ⟨-, hself, declared, htype, i, ι, hinit, _, hdeclared, b, τ, hbody, heq⟩ := h
    cases heq
    have henv' := Scope.valid_push_declare henv hself htype.isType
    have hb := Expr.hasType_of_check hΓ hne.2 henv' hbody
    rw [Scope.lookup?_push_declare σ declared hself] at hb
    cases init with
    | none =>
      cases Diagnosed.pure_inj.mp hinit
      exact .letIn hself htype hb
    | some init =>
      simp only [Expr.checkInit, Diagnosed.bind_eq_pure_iff, Diagnosed.pure_inj,
        Prod.exists] at hinit
      obtain ⟨i, ι, hinit, heq⟩ := hinit
      cases heq
      have hi := Expr.hasType_of_check hΓ hne.1 henv hinit
      exact .letInit hself htype hi ((Context.checkLetInit_some_eq_pure_iff hΓ).mp hdeclared) hb
  | .typeCase note scrutinee branches, σ, _, _, hne, henv, h => by
    simp only [Expr.check, Diagnosed.bind_eq_pure_iff, Diagnosed.pure_inj, Prod.exists] at h
    obtain ⟨s, ι, hscrutinee, bs, joined, hbranches, heq⟩ := h
    cases heq
    have hs := Expr.hasType_of_check hΓ hne.1 henv hscrutinee
    have hbefore : Γ.world.JoinedTo Γ.className [] none := rfl
    obtain ⟨types, hbs, hdistinct, -, hjoined⟩ :=
      Branch.branchTypes_of_checkAll hΓ hne.2.2 henv (List.forall_mem_nil _) hbefore hbranches
    obtain ⟨b, bs', rfl⟩ :=
      List.exists_cons_of_ne_nil (Branch.ne_nil_of_checkAll hne.2.1 hbranches)
    cases joined with
    | none =>
      have hnil : types = [] := hjoined
      rw [hnil] at hbs
      cases hbs
    | some τ => exact .typeCase hs nofun hbs hdistinct hjoined
  | .binary note op left right, σ, _, _, hne, henv, h => by
    simp only [Expr.check, Diagnosed.bind_eq_pure_iff, Diagnosed.pure_inj, Prod.exists,
      Context.binaryType_eq_pure_iff] at h
    obtain ⟨l, ι, hleft, r, κ, hright, τ, hop, heq⟩ := h
    cases heq
    have hl := Expr.hasType_of_check hΓ hne.1 henv hleft
    have hr := Expr.hasType_of_check hΓ hne.2 henv hright
    rcases hop with ⟨rfl, hvalue, rfl⟩ | ⟨rfl, rfl, ⟨hop, rfl⟩ | ⟨hop, rfl⟩⟩
    · exact .equal hl hr hvalue
    · exact .arithmetic hop hl hr
    · exact .compare hop hl hr
  | .unary note op operand, σ, _, _, hne, henv, h => by
    simp only [Expr.check, Diagnosed.bind_eq_pure_iff, Diagnosed.pure_inj, Prod.exists,
      Context.unaryType_eq_pure_iff] at h
    obtain ⟨o, ι, hoperand, τ, hop, heq⟩ := h
    cases heq
    have ho := Expr.hasType_of_check hΓ (e := operand) hne henv hoperand
    rcases hop with ⟨rfl, rfl, rfl⟩ | ⟨rfl, rfl, rfl⟩
    · exact .negate ho
    · exact .not ho
  | .isVoid note operand, σ, _, _, hne, henv, h => by
    simp only [Expr.check, Diagnosed.bind_eq_pure_iff, Diagnosed.pure_inj, Prod.exists] at h
    obtain ⟨o, ι, hoperand, heq⟩ := h
    cases heq
    exact .isVoid (Expr.hasType_of_check hΓ (e := operand) hne henv hoperand)

theorem Expr.hasTypes_of_checkAll (hΓ : Γ.Lawful) : ∀ {es : List Expr} {σ : Scope} {as : List Expr}
    {types : List Ty}, Expr.NonEmptyAll es → Env.Valid Γ.world σ.lookup? →
      Expr.checkAll Γ σ es = pure (as, types) →
        HasTypes Γ.world Γ.className σ.lookup? as types
  | [], _, _, _, _, _, h => by
    cases Diagnosed.pure_inj.mp h
    exact .nil
  | e :: es, σ, _, _, hne, henv, h => by
    simp only [Expr.checkAll, Diagnosed.bind_eq_pure_iff, Diagnosed.pure_inj, Prod.exists] at h
    obtain ⟨a, τ, he, as, types, hes, heq⟩ := h
    cases heq
    have ha := Expr.hasType_of_check hΓ hne.1 henv he
    exact .cons ha (Expr.hasTypes_of_checkAll hΓ hne.2 henv hes)

theorem Branch.branchTypes_of_checkAll (hΓ : Γ.Lawful) : ∀ {branches : List Branch} {σ : Scope}
    {span : Span} {seen : List String} {before : List Ty} {joined joined' : Option Ty}
    {bs : List Branch}, Branch.NonEmptyAll branches → Env.Valid Γ.world σ.lookup? →
      (∀ τ ∈ before, Γ.world.IsType τ) → Γ.world.JoinedTo Γ.className before joined →
      Branch.checkAll Γ σ span seen joined branches = pure (bs, joined') →
        ∃ types, BranchTypes Γ.world Γ.className σ.lookup? bs types ∧
          (bs.map Branch.type).Nodup ∧ (∀ b ∈ bs, b.type ∉ seen) ∧
          Γ.world.JoinedTo Γ.className (before ++ types) joined'
  | [], _, _, _, before, _, _, _, _, _, _, hjoined, h => by
    cases Diagnosed.pure_inj.mp h
    exact ⟨[], .nil, List.nodup_nil, nofun, (List.append_nil before).symm ▸ hjoined⟩
  | ⟨name, type, body, place⟩ :: branches, σ, span, seen, before, _, _, _, hne, henv, hbefore,
      hjoined, h => by
    simp only [Branch.checkAll, Diagnosed.bind_eq_pure_iff, Diagnosed.pure_inj, Prod.exists,
      Context.require_eq_pure_iff, Context.branchType_eq_pure_iff, decide_eq_true_eq] at h
    obtain ⟨-, hself, _, ⟨htype, rfl⟩, -, hnew, b, τ, hbody, υ, hbranch, bs, joined', hrest, heq⟩ :=
      h
    cases heq
    have henv' := Scope.valid_push_declare henv hself htype.isType
    have hb := Expr.hasType_of_check hΓ hne.1 henv' hbody
    have hτ := hb.isType hΓ.world henv'
    rw [Scope.lookup?_push_declare σ _ hself] at hb
    have hbranch' : Γ.world.JoinedTo Γ.className (before ++ [τ]) (some υ) :=
      (Context.joinBranch_eq_pure_iff hΓ hτ hjoined).mp hbranch
    have hbefore' : ∀ ρ ∈ before ++ [τ], Γ.world.IsType ρ := by
      rw [List.forall_mem_append, List.forall_mem_singleton]
      exact ⟨hbefore, hτ⟩
    obtain ⟨types, hbs, hdistinct, hseen, hjoined'⟩ :=
      Branch.branchTypes_of_checkAll hΓ hne.2 henv hbefore' hbranch' hrest
    rw [List.append_assoc] at hjoined'
    refine ⟨τ :: types, .cons hself htype hb hbs, ?_, ?_, hjoined'⟩
    · rw [List.map_cons, List.nodup_cons]
      refine ⟨fun hmem => ?_, hdistinct⟩
      obtain ⟨c, hc, heq⟩ := List.mem_map.mp hmem
      exact hseen c hc (heq ▸ List.mem_cons_self)
    · rw [List.forall_mem_cons]
      refine ⟨by simpa using hnew, fun c hc hmem => ?_⟩
      exact hseen c hc (List.mem_cons_of_mem _ hmem)

end

/-! ## What obeys the rules -/

section

variable {Γ : Context}

mutual

theorem HasType.check_eq (hΓ : Γ.Lawful) : ∀ {a : Expr} {σ : Scope} {τ : Ty},
    Env.Valid Γ.world σ.lookup? → HasType Γ.world Γ.className σ.lookup? a τ →
      a.check Γ σ = pure (a, τ)
  | .int .., _, _, _, h | .string .., _, _, _, h | .bool .., _, _, _, h => by
    cases h
    rfl
  | .object .., σ, _, _, h => by
    cases h with
    | self =>
      have hself : σ.lookup? Names.self = some .selfType := rfl
      simp only [Expr.check, Context.objectType_eq_pure_iff.mpr hself, Diagnosed.pure_bind]
      rfl
    | object _ hname =>
      simp only [Expr.check, Context.objectType_eq_pure_iff.mpr hname, Diagnosed.pure_bind]
      rfl
  | .assign _ _ value, σ, τ, henv, h => by
    cases h with
    | assign hne hname hvalue hconforms =>
      have hv := HasType.check_eq hΓ (a := value) henv hvalue
      have ht : ∀ span, Γ.assignType σ span _ τ = pure τ := fun span =>
        (Context.assignType_eq_pure_iff hΓ).mpr ⟨hne, rfl, _, hname, hconforms⟩
      simp only [Expr.check, hv, ht, Diagnosed.pure_bind]
      rfl
  | .selfDispatch note method args, σ, τ, henv, h => by
    cases h with
    | selfDispatch hargs hcall =>
      have has := HasTypes.checkAll_eq hΓ henv hargs
      have ht : ∀ span, Γ.callType span .selfType Γ.className method _ = pure τ := fun span =>
        (Context.callType_eq_pure_iff hΓ hΓ.enclosing).mpr hcall
      simp only [Expr.check, has, ht, Diagnosed.pure_bind]
      rfl
  | .dispatch note receiver method args, σ, τ, henv, h => by
    cases h with
    | dispatch hreceiver hargs hcall =>
      have hr := HasType.check_eq hΓ (a := receiver) henv hreceiver
      have has := HasTypes.checkAll_eq hΓ henv hargs
      have hc := Context.contains_resolve hΓ (hreceiver.isType hΓ.world henv)
      have ht : ∀ span, Γ.callType span _ _ method _ = pure τ := fun span =>
        (Context.callType_eq_pure_iff hΓ hc).mpr hcall
      simp only [Expr.check, hr, has, ht, Diagnosed.pure_bind]
      rfl
  | .staticDispatch note receiver type method args, σ, τ, henv, h => by
    cases h with
    | staticDispatch hreceiver hargs htype hconforms hcall =>
      have hr := HasType.check_eq hΓ (a := receiver) henv hreceiver
      have has := HasTypes.checkAll_eq hΓ henv hargs
      have ht : ∀ span, Γ.staticCallType span _ type method _ = pure τ := fun span =>
        (Context.staticCallType_eq_pure_iff hΓ).mpr ⟨htype, hconforms, hcall⟩
      simp only [Expr.check, hr, has, ht, Diagnosed.pure_bind]
      rfl
  | .new note type, σ, τ, _, h => by
    cases h with
    | new htype =>
      have ht : ∀ span, Γ.newType span type = pure τ := fun span =>
        Context.newType_eq_pure_iff.mpr htype
      simp only [Expr.check, ht, Diagnosed.pure_bind]
      rfl
  | .cond note predicate thenBranch elseBranch, σ, τ, henv, h => by
    cases h with
    | cond hpredicate hthen helse hjoin =>
      have hp := HasType.check_eq hΓ (a := predicate) henv hpredicate
      have ht := HasType.check_eq hΓ (a := thenBranch) henv hthen
      have he := HasType.check_eq hΓ (a := elseBranch) henv helse
      have hj : ∀ span, Γ.join span _ _ = pure τ := fun span =>
        (Context.join_eq_pure_iff hΓ).mpr hjoin
      have hb : Ty.isClass Names.bool .bool = true := by decide
      simp only [Expr.check, hp, ht, he, hj, hb, Context.require_true, Diagnosed.pure_bind]
      rfl
  | .loop note predicate body, σ, τ, henv, h => by
    cases h with
    | loop hpredicate hbody =>
      have hp := HasType.check_eq hΓ (a := predicate) henv hpredicate
      have hb := HasType.check_eq hΓ (a := body) henv hbody
      have hbool : Ty.isClass Names.bool .bool = true := by decide
      simp only [Expr.check, hp, hb, hbool, Context.require_true, Diagnosed.pure_bind]
      rfl
  | .block note body, σ, τ, henv, h => by
    cases h with
    | block hbody hlast =>
      have hb := HasTypes.checkAll_eq hΓ henv hbody
      simp only [Expr.check, hb, List.getLastD_eq_getLast?, hlast, Diagnosed.pure_bind]
      rfl
  | .letIn note name type none body, σ, τ, henv, h => by
    cases h with
    | letIn hself htype hbody =>
      have hd : ∀ span, Γ.letType span name type = pure _ := fun span =>
        Context.letType_eq_pure_iff.mpr htype
      have henv' := Scope.valid_push_declare henv hself htype.isType
      rw [← Scope.lookup?_push_declare σ _ hself] at hbody
      have hb := HasType.check_eq hΓ (a := body) henv' hbody
      simp only [Expr.check, hd, hb, hself, ne_eq, not_false_eq_true, decide_true,
        Context.require_true, Diagnosed.pure_bind]
      rfl
  | .letIn note name type (some init) body, σ, τ, henv, h => by
    cases h with
    | @letInit _ _ _ _ _ _ declared ι _ hself htype hinit hconforms hbody =>
      have hd : ∀ span, Γ.letType span name type = pure declared := fun span =>
        Context.letType_eq_pure_iff.mpr htype
      have hi := HasType.check_eq hΓ (a := init) henv hinit
      have hc : ∀ span, Γ.checkLetInit span name declared (some ι) = pure () := fun span =>
        (Context.checkLetInit_some_eq_pure_iff hΓ).mpr hconforms
      have henv' := Scope.valid_push_declare henv hself htype.isType
      rw [← Scope.lookup?_push_declare σ _ hself] at hbody
      have hb := HasType.check_eq hΓ (a := body) henv' hbody
      simp only [Expr.check, Expr.checkInit, hd, hi, hc, hb, hself, ne_eq, not_false_eq_true,
        decide_true, Context.require_true, Diagnosed.pure_bind]
      rfl
  | .typeCase note scrutinee branches, σ, τ, henv, h => by
    cases h with
    | @typeCase _ _ _ _ types _ _ hscrutinee hne hbranches hdistinct hjoin =>
      have hs := HasType.check_eq hΓ (a := scrutinee) henv hscrutinee
      have hbs : ∀ span, Branch.checkAll Γ σ span [] none branches = pure (branches, some τ) := by
        intro span
        obtain ⟨joined, hall, hjoined⟩ := BranchTypes.checkAll_eq hΓ (s := span) henv
          (List.forall_mem_nil _) (show Γ.world.JoinedTo Γ.className [] none from rfl) hbranches
          hdistinct (fun _ _ => List.not_mem_nil)
        cases joined with
        | none =>
          have hnil : types = [] := hjoined
          rw [hnil] at hbranches
          cases hbranches
          exact absurd rfl hne
        | some υ => rw [hall, hΓ.world.isJoin_unique hjoin hjoined]
      simp only [Expr.check, hs, hbs, Diagnosed.pure_bind]
      rfl
  | .binary note op left right, σ, τ, henv, h => by
    cases h with
    | arithmetic hop hleft hright =>
      have hl := HasType.check_eq hΓ (a := left) henv hleft
      have hr := HasType.check_eq hΓ (a := right) henv hright
      have ht : ∀ span, Γ.binaryType span op .int .int = pure .int := fun span =>
        Context.binaryType_eq_pure_iff.mpr (Or.inr ⟨rfl, rfl, Or.inl ⟨hop, rfl⟩⟩)
      simp only [Expr.check, hl, hr, ht, Diagnosed.pure_bind]
      rfl
    | compare hop hleft hright =>
      have hl := HasType.check_eq hΓ (a := left) henv hleft
      have hr := HasType.check_eq hΓ (a := right) henv hright
      have ht : ∀ span, Γ.binaryType span op .int .int = pure .bool := fun span =>
        Context.binaryType_eq_pure_iff.mpr (Or.inr ⟨rfl, rfl, Or.inr ⟨hop, rfl⟩⟩)
      simp only [Expr.check, hl, hr, ht, Diagnosed.pure_bind]
      rfl
    | equal hleft hright hvalue =>
      have hl := HasType.check_eq hΓ (a := left) henv hleft
      have hr := HasType.check_eq hΓ (a := right) henv hright
      have ht : ∀ span, Γ.binaryType span .eq _ _ = pure .bool := fun span =>
        Context.binaryType_eq_pure_iff.mpr (Or.inl ⟨rfl, hvalue, rfl⟩)
      simp only [Expr.check, hl, hr, ht, Diagnosed.pure_bind]
      rfl
  | .unary note op operand, σ, τ, henv, h => by
    cases h with
    | negate hoperand =>
      have ho := HasType.check_eq hΓ (a := operand) henv hoperand
      have ht : ∀ span, Γ.unaryType span .negate .int = pure .int := fun span =>
        Context.unaryType_eq_pure_iff.mpr (Or.inl ⟨rfl, rfl, rfl⟩)
      simp only [Expr.check, ho, ht, Diagnosed.pure_bind]
      rfl
    | not hoperand =>
      have ho := HasType.check_eq hΓ (a := operand) henv hoperand
      have ht : ∀ span, Γ.unaryType span .not .bool = pure .bool := fun span =>
        Context.unaryType_eq_pure_iff.mpr (Or.inr ⟨rfl, rfl, rfl⟩)
      simp only [Expr.check, ho, ht, Diagnosed.pure_bind]
      rfl
  | .isVoid note operand, σ, τ, henv, h => by
    cases h with
    | isVoid hoperand =>
      have ho := HasType.check_eq hΓ (a := operand) henv hoperand
      simp only [Expr.check, ho, Diagnosed.pure_bind]
      rfl

theorem HasTypes.checkAll_eq (hΓ : Γ.Lawful) : ∀ {as : List Expr} {σ : Scope} {types : List Ty},
    Env.Valid Γ.world σ.lookup? → HasTypes Γ.world Γ.className σ.lookup? as types →
      Expr.checkAll Γ σ as = pure (as, types)
  | [], _, _, _, h => by
    cases h
    rfl
  | a :: as, σ, _, henv, h => by
    cases h with
    | cons ha has =>
      have h := HasType.check_eq hΓ (a := a) henv ha
      have hs := HasTypes.checkAll_eq hΓ henv has
      simp only [Expr.checkAll, h, hs, Diagnosed.pure_bind]

theorem BranchTypes.checkAll_eq (hΓ : Γ.Lawful) : ∀ {branches : List Branch} {σ : Scope} {s : Span}
    {seen : List String} {before types : List Ty} {joined : Option Ty},
    Env.Valid Γ.world σ.lookup? → (∀ τ ∈ before, Γ.world.IsType τ) →
      Γ.world.JoinedTo Γ.className before joined →
      BranchTypes Γ.world Γ.className σ.lookup? branches types →
      (branches.map Branch.type).Nodup → (∀ b ∈ branches, b.type ∉ seen) →
        ∃ joined', Branch.checkAll Γ σ s seen joined branches = pure (branches, joined') ∧
          Γ.world.JoinedTo Γ.className (before ++ types) joined'
  | [], _, _, _, before, _, joined, _, _, hjoined, h, _, _ => by
    cases h
    exact ⟨joined, rfl, (List.append_nil before).symm ▸ hjoined⟩
  | ⟨name, type, body, place⟩ :: branches, σ, s, seen, before, _, joined, henv, hbefore, hjoined, h,
      hdistinct, hseen => by
    rw [List.map_cons, List.nodup_cons] at hdistinct
    rw [List.forall_mem_cons] at hseen
    cases h with
    | @cons _ _ _ _ _ _ τ types hself htype hbody hbranches =>
      have henv' := Scope.valid_push_declare henv hself htype.isType
      rw [← Scope.lookup?_push_declare σ _ hself] at hbody
      have hb := HasType.check_eq hΓ (a := body) henv' hbody
      have hτ := hbody.isType hΓ.world henv'
      have hd : Γ.branchType place name type = pure (.named type) :=
        Context.branchType_eq_pure_iff.mpr ⟨htype, rfl⟩
      have hnew : seen.contains type = false := by simpa using hseen.1
      obtain ⟨υ, hυ⟩ := Context.exists_joinBranch (s := s) hΓ hτ hbefore hjoined
      have hjoined' : Γ.world.JoinedTo Γ.className (before ++ [τ]) (some υ) :=
        (Context.joinBranch_eq_pure_iff hΓ hτ hjoined).mp hυ
      have hbefore' : ∀ ρ ∈ before ++ [τ], Γ.world.IsType ρ := by
        rw [List.forall_mem_append, List.forall_mem_singleton]
        exact ⟨hbefore, hτ⟩
      have hseen' : ∀ b ∈ branches, b.type ∉ type :: seen := by
        intro b hmem
        rw [List.mem_cons, not_or]
        exact ⟨fun heq => hdistinct.1 (List.mem_map.mpr ⟨b, hmem, heq⟩), hseen.2 b hmem⟩
      obtain ⟨joined', hall, hjoined''⟩ := BranchTypes.checkAll_eq hΓ (s := s) henv hbefore'
        hjoined' hbranches hdistinct.2 hseen'
      rw [List.append_assoc] at hjoined''
      refine ⟨joined', ?_, hjoined''⟩
      simp only [Branch.checkAll, hd, hb, hυ, hnew, hall, hself, ne_eq, not_false_eq_true,
        decide_true, Bool.not_false, Context.require_true, Diagnosed.pure_bind]

end

end

end Cool
