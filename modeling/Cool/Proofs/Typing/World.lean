import Cool.FeatureTable.Basic
import Cool.Tree.Program
import Mathlib.Logic.Relation

/-!
# What types depend on

The types of expressions depend on which classes there are, which class each inherits from, and
which methods each declares. A `World` says this and no more, as relations, so that the rules of
typing can be given without tables: a table and the program that it is made of can be two views of
one world.

* `World.Inherits`, `World.Conforms`, `World.IsJoin` : the order of the types, and least upper
  bounds in it;
* `Conforms.trans`, `Conforms.antisymm`, `IsJoin.unique`, `IsJoin.snoc_iff` : that it is an order,
  and that bounds of many types are found from bounds of two;
* `World.Finds` : the method that a class declares or inherits;
* `World.Denotes` : the type that a name stands for;
* `World.Lawful` : the types of the world are closed under what is done with them;
* `Program.world` : the world as a program declares it;
* `World.ofTables` : the world as tables have it.
-/

namespace Cool

structure World where
  IsClass : String → Prop
  /-- The second class is the one that the first inherits from. -/
  Parent : String → String → Prop
  Declares : String → MethodSig → Prop

namespace World

variable (W : World)

def Inherits : String → String → Prop :=
  Relation.ReflTransGen W.Parent

/-- A value of the first type may stand where one of the second is asked for, inside a class. -/
inductive Conforms (enclosing : String) : Ty → Ty → Prop
  | selfType : Conforms enclosing .selfType .selfType
  | below {b : String} (hc : W.IsClass enclosing) (h : W.Inherits enclosing b) :
    Conforms enclosing .selfType (.named b)
  | named {a b : String} (hc : W.IsClass a) (h : W.Inherits a b) :
    Conforms enclosing (.named a) (.named b)

/-- The least type that all of some types conform to. -/
structure IsJoin (enclosing : String) (types : List Ty) (join : Ty) : Prop where
  upper : ∀ τ ∈ types, W.Conforms enclosing τ join
  least : ∀ υ, (∀ τ ∈ types, W.Conforms enclosing τ υ) → W.Conforms enclosing join υ

/-- The nearest declaration of a method on the way up from a class. -/
inductive Finds : String → String → MethodSig → Prop
  | own {a : String} {m : MethodSig} (h : W.Declares a m) : Finds a m.name m
  | inherited {a b name : String} {m : MethodSig} (hnot : ∀ m, W.Declares a m → m.name ≠ name)
    (hp : W.Parent a b) (h : Finds b name m) : Finds a name m

/-- The type that a name stands for: `SELF_TYPE`, or a class that there is. -/
inductive Denotes : String → Ty → Prop
  | selfType : Denotes Names.selfType .selfType
  | named {a : String} (h : W.IsClass a) (hne : a ≠ Names.selfType) : Denotes a (.named a)

/-- `SELF_TYPE`, or a class that there is. -/
def IsType : Ty → Prop
  | .selfType => True
  | .named a => W.IsClass a

/-! ## The order of the types -/

variable {W : World} {enclosing b name : String} {σ τ υ : Ty} {types : List Ty}

theorem conforms_named_iff : W.Conforms enclosing τ (.named b) ↔
    W.IsClass (τ.resolve enclosing) ∧ W.Inherits (τ.resolve enclosing) b := by
  constructor
  · intro h
    cases h with
    | below hc h => exact ⟨hc, h⟩
    | named hc h => exact ⟨hc, h⟩
  · rintro ⟨hc, h⟩
    cases τ with
    | named a => exact .named hc h
    | selfType => exact .below hc h

theorem conforms_selfType_iff : W.Conforms enclosing τ .selfType ↔ τ = .selfType := by
  constructor
  · intro h
    cases h
    rfl
  · rintro rfl
    exact .selfType

theorem Conforms.refl (h : W.IsType τ) : W.Conforms enclosing τ τ := by
  cases τ with
  | named a => exact .named h .refl
  | selfType => exact .selfType

theorem Conforms.trans (h : W.Conforms enclosing σ τ) (h' : W.Conforms enclosing τ υ) :
    W.Conforms enclosing σ υ := by
  cases h with
  | selfType => exact h'
  | below hc h =>
    cases h' with
    | named _ h' => exact .below hc (h.trans h')
  | named hc h =>
    cases h' with
    | named _ h' => exact .named hc (h.trans h')

theorem Conforms.antisymm
    (hanti : ∀ a b, W.IsClass a → W.Inherits a b → W.Inherits b a → a = b)
    (h : W.Conforms enclosing σ τ) (h' : W.Conforms enclosing τ σ) : σ = τ := by
  cases h with
  | selfType => rfl
  | below => cases h'
  | named hc h =>
    cases h' with
    | named _ h' => rw [hanti _ _ hc h h']

theorem IsJoin.unique (hanti : ∀ a b, W.IsClass a → W.Inherits a b → W.Inherits b a → a = b)
    (h : W.IsJoin enclosing types τ) (h' : W.IsJoin enclosing types υ) : τ = υ :=
  (h.least υ h'.upper).antisymm hanti (h'.least τ h.upper)

theorem IsJoin.singleton (h : W.IsType τ) : W.IsJoin enclosing [τ] τ where
  upper σ hσ := by
    rw [List.mem_singleton.mp hσ]
    exact .refl h
  least υ hυ := hυ τ List.mem_cons_self

/-- Least upper bounds are found one type after the other. -/
theorem IsJoin.snoc_iff (h : W.IsJoin enclosing types σ) :
    W.IsJoin enclosing (types ++ [τ]) υ ↔ W.IsJoin enclosing [σ, τ] υ := by
  have hupper : ∀ ρ, (∀ κ ∈ types ++ [τ], W.Conforms enclosing κ ρ) ↔
      ∀ κ ∈ [σ, τ], W.Conforms enclosing κ ρ := by
    intro ρ
    rw [List.forall_mem_append, List.forall_mem_cons (a := σ)]
    exact and_congr_left' ⟨h.least ρ, fun hσ κ hκ => (h.upper κ hκ).trans hσ⟩
  constructor
  · intro hjoin
    exact ⟨(hupper υ).mp hjoin.upper, fun ρ hρ => hjoin.least ρ ((hupper ρ).mpr hρ)⟩
  · intro hjoin
    exact ⟨(hupper υ).mpr hjoin.upper, fun ρ hρ => hjoin.least ρ ((hupper ρ).mp hρ)⟩

theorem Denotes.isType (h : W.Denotes name τ) : W.IsType τ := by
  cases h with
  | selfType => trivial
  | named h _ => exact h

theorem Finds.exists_declares {a : String} {m : MethodSig} (h : W.Finds a name m) :
    ∃ b, W.Declares b m := by
  induction h with
  | own h => exact ⟨_, h⟩
  | inherited _ _ _ ih => exact ih

/-! ## Lawful worlds -/

/-- The basic classes are there, parents are classes and no class is above itself, and methods
return values of types that there are. -/
structure Lawful (W : World) : Prop where
  basic : ∀ a ∈ Names.basic, W.IsClass a
  parent : ∀ a b, W.IsClass a → W.Parent a b → W.IsClass b
  antisymm : ∀ a b, W.IsClass a → W.Inherits a b → W.Inherits b a → a = b
  returnType : ∀ a m, W.Declares a m → W.IsType m.returnType

namespace Lawful

variable (hW : W.Lawful)
include hW

theorem isClass_of_inherits {a : String} (ha : W.IsClass a) (h : W.Inherits a b) : W.IsClass b := by
  induction h with
  | refl => exact ha
  | tail _ hp ih => exact hW.parent _ _ ih hp

theorem isType_of_conforms (hσ : W.IsType σ) (h : W.Conforms enclosing σ τ) : W.IsType τ := by
  cases h with
  | selfType => exact hσ
  | below hc h => exact hW.isClass_of_inherits hc h
  | named hc h => exact hW.isClass_of_inherits hc h

theorem isType_of_isJoin (h : W.IsJoin enclosing types τ) (htypes : ∀ σ ∈ types, W.IsType σ) :
    W.IsType τ := by
  cases types with
  | nil =>
    rw [conforms_selfType_iff.mp (h.least .selfType nofun)]
    trivial
  | cons σ types =>
    have hσ := htypes σ List.mem_cons_self
    exact hW.isType_of_conforms hσ (h.upper σ List.mem_cons_self)

theorem isJoin_unique (h : W.IsJoin enclosing types τ) (h' : W.IsJoin enclosing types υ) : τ = υ :=
  h.unique hW.antisymm h'

end Lawful

end World

/-! ## Programs -/

def Formal.signature (f : Formal) : FormalSig :=
  ⟨f.name, .ofName f.type⟩

/-- The signature of a method as it is written. -/
def Method.signature (owner : String) (m : Method) : MethodSig :=
  ⟨m.name, m.formals.map Formal.signature, .ofName m.returnType, owner⟩

/-- The basic classes and those that a program declares, as it declares them. -/
def Program.world (p : Program) : World where
  IsClass a := (∃ k ∈ Builtin.classes, k.name = a) ∨ ∃ c ∈ p.classes, c.name = a
  Parent a b :=
    (∃ k ∈ Builtin.classes, k.name = a ∧ k.parent = some b) ∨
      ∃ c ∈ p.classes, c.name = a ∧ c.parent = b
  Declares a m :=
    (∃ k ∈ Builtin.classes, k.name = a ∧ ∃ d ∈ k.methods, m = FeatureTable.signature a d) ∨
      ∃ c ∈ p.classes, c.name = a ∧ ∃ d ∈ c.methods, m = d.signature a

/-! ## Tables -/

def World.ofTables (t : ClassTable) (f : FeatureTable) : World where
  IsClass a := t.contains a = true
  Parent a b := t.parentOf? a = some b
  Declares a m := f.ownMethod? a m.name = some m

end Cool
