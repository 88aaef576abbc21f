import Cool.Proofs.Signature.Class
import Cool.Proofs.Typing.Rules

/-!
# The types in an heir

What is typed in a class is typed in every class that inherits from it, an heir: `SELF_TYPE` stays
what it is but stands for less, and so the types of expressions can only become smaller.

* `World.Coherent` : overriding methods agree with what they override, and values have no heirs;
* `World.Refines` : a type in the heir that takes the place of a type in the class;
* `World.Heir` : a class that inherits from another;
* `Refines.conforms`, `Refines.of_isJoin`, `Calls.refine` : conformance, joins and calls in the
  heir.
-/

namespace Cool

namespace World

/-- A method that overrides another agrees with it, and nothing inherits from a class of values. -/
structure Coherent (W : World) : Prop where
  agrees : ∀ a b name m, W.IsClass a → W.Inherits a b → W.Finds b name m →
    ∃ n, W.Finds a name n ∧ n.Agrees m
  values : ∀ a b, W.IsClass a → W.Inherits a b → b ∈ Names.values → a = b

/-- The first type may take the place of the second: `SELF_TYPE` that of `SELF_TYPE`, and a class
that of one it inherits from. A value takes the place of a value only. -/
inductive Refines (W : World) : Ty → Ty → Prop
  | selfType : Refines W .selfType .selfType
  | named {a b : String} (ha : W.IsClass a) (h : W.Inherits a b)
    (hvalue : a ∈ Names.values ↔ b ∈ Names.values) : Refines W (.named a) (.named b)

/-- A class that inherits from another, and is not a class of values. -/
structure Heir (W : World) (heir enclosing : String) : Prop where
  isClass : W.IsClass heir
  inherits : W.Inherits heir enclosing
  notValue : heir ∉ Names.values

variable {W : World} {heir enclosing b start start' method : String}
  {σ σ' τ τ' υ υ' receiver receiver' : Ty} {args args' : List Ty} {formals : List FormalSig}

namespace Refines

theorem refl (h : W.IsType τ) : W.Refines τ τ := by
  cases τ with
  | selfType => exact .selfType
  | named a => exact .named h .refl Iff.rfl

theorem isType (h : W.Refines τ' τ) : W.IsType τ' := by
  cases h with
  | selfType => trivial
  | named ha _ _ => exact ha

theorem isValue_eq (h : W.Refines τ' τ) : τ'.isValue = τ.isValue := by
  cases h with
  | selfType => rfl
  | named ha h hvalue =>
    rw [Bool.eq_iff_iff]
    simpa only [Ty.isValue, List.contains_iff_mem] using hvalue

/-- The type of a value stays the same. -/
theorem eq_of_mem_values (hW : W.Coherent) (hb : b ∈ Names.values)
    (h : W.Refines τ' (.named b)) : τ' = .named b := by
  cases h with
  | named ha h _ => rw [hW.values _ b ha h hb]

/-- Only the type of a value has the type of that value in its place. -/
theorem eq_named_of_mem_values (hW : W.Coherent) (ha : b ∈ Names.values)
    (h : W.Refines (.named b) τ) : τ = .named b := by
  cases h with
  | named hclass h hvalue => rw [hW.values b _ hclass h (hvalue.mp ha)]

theorem isClass_resolve (hheir : W.Heir heir enclosing) (h : W.Refines τ' τ) :
    W.IsClass (τ'.resolve heir) := by
  cases h with
  | selfType => exact hheir.isClass
  | named ha _ _ => exact ha

theorem inherits_resolve (hheir : W.Heir heir enclosing) (h : W.Refines τ' τ) :
    W.Inherits (τ'.resolve heir) (τ.resolve enclosing) := by
  cases h with
  | selfType => exact hheir.inherits
  | named _ h _ => exact h

/-- What conforms in a class conforms in an heir. -/
theorem conforms (hheir : W.Heir heir enclosing) (h : W.Refines τ' τ)
    (hconforms : W.Conforms enclosing τ υ) : W.Conforms heir τ' υ := by
  cases υ with
  | selfType =>
    obtain rfl := conforms_selfType_iff.mp hconforms
    cases h
    exact .selfType
  | named b =>
    have hb := (conforms_named_iff.mp hconforms).2
    have hresolve := h.inherits_resolve hheir
    exact conforms_named_iff.mpr ⟨h.isClass_resolve hheir, hresolve.trans hb⟩

theorem conformsAll (hheir : W.Heir heir enclosing) (h : List.Forall₂ W.Refines args' args)
    (hconforms : List.Forall₂ (fun τ formal => W.Conforms enclosing τ formal.type) args formals) :
    List.Forall₂ (fun τ formal => W.Conforms heir τ formal.type) args' formals := by
  induction h generalizing formals with
  | nil =>
    cases hconforms
    exact .nil
  | cons hτ _ ih =>
    cases hconforms with
    | cons hfirst hrest => exact .cons (hτ.conforms hheir hfirst) (ih hrest)

/-- What conforms to a value is that value. -/
theorem eq_of_conforms (hW : W.Coherent) (hheir : W.Heir heir enclosing) (hb : b ∈ Names.values)
    (h : W.Conforms heir τ (.named b)) : τ = .named b := by
  obtain ⟨hc, hinherits⟩ := conforms_named_iff.mp h
  have heq := hW.values _ b hc hinherits hb
  cases τ with
  | named a => exact congrArg Ty.named heq
  | selfType =>
    have hself : heir = b := heq
    rw [← hself] at hb
    exact absurd hb hheir.notValue

/-- A join in an heir takes the place of the join in the class. -/
theorem of_isJoin (hW : W.Coherent) (hheir : W.Heir heir enclosing)
    (hσ : W.Refines σ' σ) (hτ : W.Refines τ' τ) (hjoin : W.IsJoin enclosing [σ, τ] υ)
    (hjoin' : W.IsJoin heir [σ', τ'] υ') : W.Refines υ' υ := by
  have hupper : ∀ κ ∈ [σ', τ'], W.Conforms heir κ υ := by
    refine List.forall_mem_cons.mpr ⟨?_, List.forall_mem_singleton.mpr ?_⟩
    · exact hσ.conforms hheir (hjoin.upper σ (by simp))
    · exact hτ.conforms hheir (hjoin.upper τ (by simp))
  have hle : W.Conforms heir υ' υ := hjoin'.least υ hupper
  have hσ' := hjoin'.upper σ' (by simp)
  have hτ' := hjoin'.upper τ' (by simp)
  cases υ' with
  | selfType =>
    -- both types are `SELF_TYPE` in the heir, and so in the class
    obtain rfl := conforms_selfType_iff.mp hσ'
    obtain rfl := conforms_selfType_iff.mp hτ'
    cases hσ
    cases hτ
    have hself : W.Conforms enclosing υ .selfType :=
      hjoin.least .selfType (by simp [conforms_selfType_iff])
    rw [conforms_selfType_iff.mp hself]
    exact .selfType
  | named c' =>
    obtain ⟨c, rfl⟩ : ∃ c, υ = .named c := by
      cases hle with
      | named _ _ => exact ⟨_, rfl⟩
    obtain ⟨hc', hinherits⟩ := conforms_named_iff.mp hle
    refine .named hc' hinherits ⟨fun hvalue => ?_, fun hvalue => ?_⟩
    · -- both types are one value in the heir, and so in the class
      obtain rfl := eq_of_conforms hW hheir hvalue hσ'
      obtain rfl := eq_of_conforms hW hheir hvalue hτ'
      have hσ := hσ.eq_named_of_mem_values hW hvalue
      have hτ := hτ.eq_named_of_mem_values hW hvalue
      rw [hσ, hτ] at hjoin
      have hle' : W.Conforms enclosing (.named c) (.named c') :=
        hjoin.least _ (by simp [Conforms.refl (show W.IsType (.named c') from hc')])
      obtain ⟨hc, hback⟩ := conforms_named_iff.mp hle'
      rw [show c = c' from hW.values c c' hc hback hvalue]
      exact hvalue
    · exact hW.values c' c hc' hinherits hvalue ▸ hvalue

end Refines

/-- A call in an heir, of the method that a heir of the class has. -/
theorem Calls.refine (hL : W.Lawful) (hW : W.Coherent) (hheir : W.Heir heir enclosing)
    (hreceiver : W.Refines receiver' receiver) (hclass : W.IsClass start')
    (hstart : W.Inherits start' start) (hargs : List.Forall₂ W.Refines args' args)
    (h : W.Calls enclosing receiver start method args τ) :
    ∃ τ', W.Calls heir receiver' start' method args' τ' ∧ W.Refines τ' τ := by
  obtain ⟨hm, hconforms⟩ := h
  rename_i m
  obtain ⟨n, hn, hformals, hreturn⟩ := hW.agrees start' start method m hclass hstart hm
  have hconforms := Refines.conformsAll hheir hargs hconforms
  have htypes : List.Forall₂ (W.Conforms heir) args' (n.formals.map FormalSig.type) := by
    rw [hformals, List.forall₂_map_right_iff]
    exact hconforms
  refine ⟨n.result receiver', .intro hn (List.forall₂_map_right_iff.mp htypes), ?_⟩
  unfold MethodSig.result
  rw [hreturn]
  split_ifs with hself
  · exact hreceiver
  · obtain ⟨a, ha⟩ := hm.exists_declares
    exact .refl (hL.returnType a m ha)

end World

end Cool
