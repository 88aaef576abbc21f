import Cool.Check.Expr
import Cool.Proofs.Diagnosed
import Cool.Proofs.Hierarchy.Order
import Cool.Proofs.Signature.Class
import Cool.Proofs.Typing.Rules

/-!
# Single nodes

The functions that find the type of a node from the types of its parts report nothing exactly if
the rule for the node applies, and then find the type that the rule gives. There is one lemma for
each function, in tables all of whose classes are resolved.

* `Context.Lawful` : such tables, with a class of them around the expression;
* `lookupMethod?_eq_some_iff` : the method that a class has, in the table and in the world;
* `objectType_eq_pure_iff`, ..., `unaryType_eq_pure_iff` : the functions.
-/

namespace Cool

/-! ## Methods -/

namespace FeatureTable

variable {t : FeatureTable} {classes : ClassTable} {a name : String} {m : MethodSig}

theorem name_of_ownMethod? (h : t.ownMethod? a name = some m) : m.name = name := by
  obtain ⟨own, -, hm⟩ := Option.bind_eq_some_iff.mp h
  simpa using List.find?_some hm

theorem ownMethod?_eq_none_iff : t.ownMethod? a name = none ↔
    ∀ m, (World.ofTables classes t).Declares a m → m.name ≠ name := by
  constructor
  · rintro h m hm rfl
    rw [show t.ownMethod? a m.name = some m from hm] at h
    cases h
  · intro h
    cases hm : t.ownMethod? a name with
    | none => rfl
    | some m =>
      have hname := name_of_ownMethod? hm
      exact absurd hname (h m (show t.ownMethod? a m.name = some m from hname.symm ▸ hm))

theorem finds_iff_of_some {n : MethodSig} (h : t.ownMethod? a name = some n) :
    (World.ofTables classes t).Finds a name m ↔ n = m := by
  obtain rfl := name_of_ownMethod? h
  have hn : (World.ofTables classes t).Declares a n := h
  refine ⟨fun hfinds => ?_, fun heq => heq ▸ .own hn⟩
  generalize hname : n.name = name at hfinds
  cases hfinds with
  | own hm =>
    have hm : t.ownMethod? a m.name = some m := hm
    rw [← hname, h] at hm
    exact Option.some.inj hm
  | inherited hnot _ _ => exact absurd hname (hnot n hn)

theorem finds_iff_of_none (h : t.ownMethod? a name = none) :
    (World.ofTables classes t).Finds a name m ↔
      ∃ b, classes.parentOf? a = some b ∧ (World.ofTables classes t).Finds b name m := by
  have hnot : ∀ n, (World.ofTables classes t).Declares a n → n.name ≠ name :=
    ownMethod?_eq_none_iff.mp h
  constructor
  · intro hfinds
    cases hfinds with
    | own hm => exact absurd rfl (hnot m hm)
    | inherited _ hparent hfinds => exact ⟨_, hparent, hfinds⟩
  · rintro ⟨b, hparent, hfinds⟩
    exact .inherited hnot hparent hfinds

theorem findSome?_iff_finds {l : List ClassInfo} (h : classes.IsChain a l) :
    (l.findSome? fun c => t.ownMethod? c.name name) = some m ↔
      (World.ofTables classes t).Finds a name m := by
  induction h with
  | @root a info hinfo hp =>
    rw [List.findSome?_cons, ClassTable.name_of_find? hinfo]
    cases hm : t.ownMethod? a name with
    | some n => rw [finds_iff_of_some hm, Option.some.injEq]
    | none =>
      rw [finds_iff_of_none hm, ClassTable.parentOf?_eq_of_find? hinfo, hp]
      exact ⟨nofun, nofun⟩
  | @child a b info l hinfo hp hl ih =>
    rw [List.findSome?_cons, ClassTable.name_of_find? hinfo]
    cases hm : t.ownMethod? a name with
    | some n => rw [finds_iff_of_some hm, Option.some.injEq]
    | none =>
      rw [finds_iff_of_none hm, ClassTable.parentOf?_eq_of_find? hinfo, hp]
      simpa using ih

theorem lookupMethod?_eq_some_iff (hs : classes.Sound) (ha : classes.isResolved a = true) :
    t.lookupMethod? classes a name = some m ↔ (World.ofTables classes t).Finds a name m := by
  obtain ⟨l, hl⟩ := hs.chain a ha
  rw [lookupMethod?, ClassTable.ancestors_eq_of_isChain hl]
  exact findSome?_iff_finds hl

end FeatureTable

namespace Context

variable {Γ : Context} {σ : Scope} {span : Span} {name type method start : String}
  {receiver τ υ : Ty} {args : List Ty}

/-- The world as the tables of a context have it. -/
abbrev world (Γ : Context) : World :=
  .ofTables Γ.classes Γ.features

/-- The place is in a class of tables without defects. -/
structure Lawful (Γ : Context) : Prop where
  sound : Γ.classes.Sound
  resolved : ∀ a, Γ.classes.contains a = true → Γ.classes.isResolved a = true
  enclosing : Γ.classes.contains Γ.className = true
  world : Γ.world.Lawful

/-! ## Questions about types -/

theorem denotes_iff : Γ.classes.resolveType? type = some τ ↔ Γ.world.Denotes type τ := by
  rw [ClassTable.resolveType?_eq_some_iff]
  unfold Ty.ofName
  constructor
  · rintro ⟨rfl, h⟩
    split_ifs with hself
    · rw [hself]
      exact .selfType
    · exact .named (h.resolve_left hself) hself
  · intro h
    cases h with
    | selfType => exact ⟨rfl, Or.inl rfl⟩
    | named hc hne => exact ⟨(if_neg hne).symm, Or.inr hc⟩

theorem denotes_named_iff : Γ.world.Denotes type (.named type) ↔
    type ≠ Names.selfType ∧ Γ.classes.contains type = true := by
  constructor
  · intro h
    cases h with
    | named hc hne => exact ⟨hne, hc⟩
  · intro h
    exact .named h.2 h.1

theorem newType_eq_pure_iff : Γ.newType span type = pure τ ↔ Γ.world.Denotes type τ := by
  rw [← denotes_iff, newType]
  cases Γ.classes.resolveType? type with
  | none => exact ⟨fun h => absurd h (recover_ne_pure _ _), nofun⟩
  | some υ => rw [Diagnosed.pure_inj, Option.some.injEq]

theorem letType_eq_pure_iff : Γ.letType span name type = pure τ ↔ Γ.world.Denotes type τ := by
  rw [← denotes_iff, letType]
  cases Γ.classes.resolveType? type with
  | none => exact ⟨fun h => absurd h (recover_ne_pure _ _), nofun⟩
  | some υ => rw [Diagnosed.pure_inj, Option.some.injEq]

theorem branchType_eq_pure_iff : Γ.branchType span name type = pure τ ↔
    Γ.world.Denotes type (.named type) ∧ τ = .named type := by
  rw [denotes_named_iff, branchType]
  split_ifs with hself hc
  · exact ⟨fun h => absurd h (recover_ne_pure _ _), fun h => absurd hself h.1.1⟩
  · rw [Diagnosed.pure_inj]
    exact ⟨fun h => ⟨⟨hself, hc⟩, h.symm⟩, fun h => h.2.symm⟩
  · exact ⟨fun h => absurd h (recover_ne_pure _ _), fun h => absurd h.1.2 hc⟩

theorem objectType_eq_pure_iff : Γ.objectType σ span name = pure τ ↔ σ.lookup? name = some τ := by
  rw [objectType]
  cases σ.lookup? name with
  | none => exact ⟨fun h => absurd h (recover_ne_pure _ _), nofun⟩
  | some υ => rw [Diagnosed.pure_inj, Option.some.injEq]

/-! ## Operators -/

theorem isClass_iff : τ.isClass name = true ↔ τ = .named name := by
  cases τ <;> simp [Ty.isClass]

theorem unaryType_eq_pure_iff {op : UnaryOp} : Γ.unaryType span op υ = pure τ ↔
    (op = .negate ∧ υ = .int ∧ τ = .int) ∨ (op = .not ∧ υ = .bool ∧ τ = .bool) := by
  cases op <;>
    simp [unaryType, Diagnosed.bind_eq_pure_iff, require_eq_pure_iff, Diagnosed.pure_inj,
      isClass_iff, Ty.int, Ty.bool, @eq_comm _ _ τ]

theorem binaryType_eq_pure_iff {op : BinaryOp} {left right : Ty} :
    Γ.binaryType span op left right = pure τ ↔
      (op = .eq ∧ left.isValue = right.isValue ∧ τ = .bool) ∨
        (left = .int ∧ right = .int ∧
          (op.isComparison = false ∧ τ = .int ∨ (op = .lt ∨ op = .le) ∧ τ = .bool)) := by
  cases op <;>
    simp [binaryType, Diagnosed.bind_eq_pure_iff, require_eq_pure_iff, Diagnosed.pure_inj,
      isClass_iff, Ty.int, Ty.bool, BinaryOp.isComparison, and_assoc, @eq_comm _ _ τ]

theorem result_eq (m : MethodSig) (receiver : Ty) :
    (if m.returnType.isSelfType then receiver else m.returnType) = m.result receiver := by
  unfold MethodSig.result
  cases m.returnType with
  | named a => rfl
  | selfType => rfl

/-! ## Conformance and joins -/

theorem requireConforms_eq_pure_iff_conforms {defect : TypingDefect} {u : Unit} :
    Γ.requireConforms span τ υ defect = pure u ↔ Γ.conforms span τ υ = pure true := by
  rw [requireConforms, Diagnosed.bind_eq_pure_iff]
  constructor
  · rintro ⟨answer, hanswer, h⟩
    rw [hanswer, require_eq_pure_iff.mp h]
  · intro h
    exact ⟨true, h, require_eq_pure_iff.mpr rfl⟩

/-- Of the formal parameters, only the types count. -/
theorem checkArguments_eq_pure_iff_conforms : ∀ {pairs : List (Ty × FormalSig)} {u : Unit},
    Γ.checkArguments span method pairs = pure u ↔
      ∀ x ∈ pairs, Γ.conforms span x.1 x.2.type = pure true
  | [], _ => ⟨fun _ => nofun, fun _ => rfl⟩
  | (type, formal) :: pairs, u => by
    rw [checkArguments, Diagnosed.bind_eq_pure_iff, List.forall_mem_cons]
    constructor
    · rintro ⟨_, hfirst, hrest⟩
      exact ⟨requireConforms_eq_pure_iff_conforms.mp hfirst,
        checkArguments_eq_pure_iff_conforms.mp hrest⟩
    · rintro ⟨hfirst, hrest⟩
      exact ⟨(), requireConforms_eq_pure_iff_conforms.mpr hfirst,
        checkArguments_eq_pure_iff_conforms.mpr hrest⟩

section Lawful

variable (hΓ : Γ.Lawful)
include hΓ

theorem conforms_eq_pure_true_iff :
    Γ.conforms span τ υ = pure true ↔ Γ.world.Conforms Γ.className τ υ := by
  rw [world, ← ClassTable.conforms_iff hΓ.sound hΓ.resolved, conforms]
  cases Γ.classes.conforms Γ.className τ υ with
  | error e => exact ⟨fun h => absurd h (Diagnosed.report_bind_ne_pure _ _ _), nofun⟩
  | ok answer => rw [Diagnosed.pure_inj, Except.ok.injEq]

theorem requireConforms_eq_pure_iff {defect : TypingDefect} {u : Unit} :
    Γ.requireConforms span τ υ defect = pure u ↔ Γ.world.Conforms Γ.className τ υ := by
  rw [requireConforms_eq_pure_iff_conforms]
  exact conforms_eq_pure_true_iff hΓ

theorem join_eq_pure_iff {left right : Ty} :
    Γ.join span left right = pure τ ↔ Γ.world.IsJoin Γ.className [left, right] τ := by
  rw [world, ← ClassTable.join_iff hΓ.sound hΓ.resolved, join]
  cases Γ.classes.join Γ.className left right with
  | error e => exact ⟨fun h => absurd h (recover_ne_pure _ _), nofun⟩
  | ok υ => rw [Diagnosed.pure_inj, Except.ok.injEq]

theorem contains_resolve (hτ : Γ.world.IsType τ) :
    Γ.classes.contains (τ.resolve Γ.className) = true := by
  cases τ with
  | named a => exact hτ
  | selfType => exact hΓ.enclosing

theorem exists_join {left right : Ty} (hleft : Γ.world.IsType left)
    (hright : Γ.world.IsType right) : ∃ τ, Γ.world.IsJoin Γ.className [left, right] τ := by
  by_cases hself : (left.isSelfType && right.isSelfType) = true
  · have hjoin : Γ.classes.join Γ.className left right = .ok .selfType := if_pos hself
    exact ⟨_, (ClassTable.join_iff hΓ.sound hΓ.resolved).mp hjoin⟩
  · obtain ⟨c, -, hc⟩ := hΓ.sound.exists_join (by simpa using hself)
      (hΓ.resolved _ (contains_resolve hΓ hleft)) (hΓ.resolved _ (contains_resolve hΓ hright))
    exact ⟨.named c, hc⟩

/-! ## Assignments and bindings -/

theorem assignType_eq_pure_iff : Γ.assignType σ span name υ = pure τ ↔
    name ≠ Names.self ∧ τ = υ ∧ ∃ declared, σ.lookup? name = some declared ∧
      Γ.world.Conforms Γ.className υ declared := by
  rw [assignType]
  split_ifs with hself
  · exact ⟨fun h => absurd h (recover_ne_pure _ _), fun h => absurd hself h.1⟩
  · cases σ.lookup? name with
    | none => exact ⟨fun h => absurd h (recover_ne_pure _ _), fun ⟨_, _, _, h, _⟩ => nomatch h⟩
    | some declared =>
      simp only [Diagnosed.bind_eq_pure_iff, Option.some.injEq, exists_eq_left']
      constructor
      · rintro ⟨answer, hanswer, h⟩
        cases answer with
        | true =>
          exact ⟨hself, (Diagnosed.pure_inj.mp h).symm, (conforms_eq_pure_true_iff hΓ).mp hanswer⟩
        | false => exact absurd h (recover_ne_pure _ _)
      · rintro ⟨-, rfl, hconforms⟩
        exact ⟨true, (conforms_eq_pure_true_iff hΓ).mpr hconforms, rfl⟩

theorem checkLetInit_some_eq_pure_iff {u : Unit} :
    Γ.checkLetInit span name υ (some τ) = pure u ↔
      υ = .selfType ∨ Γ.world.Conforms Γ.className τ υ := by
  rw [checkLetInit]
  cases υ with
  | selfType => exact ⟨fun _ => Or.inl rfl, fun _ => rfl⟩
  | named a =>
    refine (requireConforms_eq_pure_iff hΓ).trans ⟨Or.inr, fun h => ?_⟩
    exact h.resolve_left nofun

/-! ## Calls -/

theorem checkArguments_eq_pure_iff {pairs : List (Ty × FormalSig)} {u : Unit} :
    Γ.checkArguments span method pairs = pure u ↔
      ∀ x ∈ pairs, Γ.world.Conforms Γ.className x.1 x.2.type := by
  rw [checkArguments_eq_pure_iff_conforms]
  exact forall₂_congr fun x _ => conforms_eq_pure_true_iff hΓ

theorem callType_eq_pure_iff (hstart : Γ.classes.contains start = true) :
    Γ.callType span receiver start method args = pure τ ↔
      Γ.world.Calls Γ.className receiver start method args τ := by
  have hr := hΓ.resolved start hstart
  have hfinds : ∀ {m}, Γ.features.lookupMethod? Γ.classes start method = some m ↔
      Γ.world.Finds start method m := FeatureTable.lookupMethod?_eq_some_iff hΓ.sound hr
  rw [callType, if_pos hr]
  cases hm : Γ.features.lookupMethod? Γ.classes start method with
  | none =>
    refine ⟨fun h => absurd h (recover_ne_pure _ _), fun ⟨h, _⟩ => ?_⟩
    rw [hfinds.mpr h] at hm
    cases hm
  | some m =>
    have hcalls : Γ.world.Calls Γ.className receiver start method args τ ↔
        List.Forall₂ (fun τ formal => Γ.world.Conforms Γ.className τ formal.type) args m.formals ∧
          m.result receiver = τ := by
      constructor
      · rintro ⟨hn, hargs⟩
        rw [hfinds.mpr hn] at hm
        cases hm
        exact ⟨hargs, rfl⟩
      · rintro ⟨hargs, rfl⟩
        exact ⟨hfinds.mp hm, hargs⟩
    rw [hcalls, List.forall₂_iff_zip]
    simp only [result_eq]
    by_cases hlen : args.length = m.formals.length
    · rw [if_neg (not_not.mpr hlen), Diagnosed.bind_eq_pure_iff]
      simp only [checkArguments_eq_pure_iff hΓ, Diagnosed.pure_inj]
      constructor
      · rintro ⟨_, hargs, hresult⟩
        exact ⟨⟨hlen, fun hx => hargs _ hx⟩, hresult⟩
      · rintro ⟨⟨-, hargs⟩, hresult⟩
        exact ⟨(), fun x hx => hargs hx, hresult⟩
    · rw [if_pos hlen]
      exact ⟨fun h => absurd h (recover_ne_pure _ _), fun h => absurd h.1.1 hlen⟩

theorem staticCallType_eq_pure_iff :
    Γ.staticCallType span receiver type method args = pure τ ↔
      Γ.world.Denotes type (.named type) ∧ Γ.world.Conforms Γ.className receiver (.named type) ∧
        Γ.world.Calls Γ.className receiver type method args τ := by
  rw [denotes_named_iff, staticCallType]
  split_ifs with hself hc
  · exact ⟨fun h => absurd h (recover_ne_pure _ _), fun h => absurd hself h.1.1⟩
  · rw [Diagnosed.bind_eq_pure_iff]
    constructor
    · rintro ⟨_, hconforms, hcall⟩
      exact ⟨⟨hself, hc⟩, (requireConforms_eq_pure_iff hΓ).mp hconforms,
        (callType_eq_pure_iff hΓ hc).mp hcall⟩
    · rintro ⟨-, hconforms, hcall⟩
      exact ⟨(), (requireConforms_eq_pure_iff hΓ).mpr hconforms,
        (callType_eq_pure_iff hΓ hc).mpr hcall⟩
  · exact ⟨fun h => absurd h (recover_ne_pure _ _), fun h => absurd h.1.2 hc⟩

end Lawful

end Context

end Cool
