import Cool.Proofs.Tree.Notes
import Cool.Proofs.Typing.World
import Mathlib.Data.List.Forall2
import Mathlib.Tactic.SplitIfs

/-!
# The rules of typing

When an expression has a type, given the types of the variables around it, and when the types noted
at its nodes are theirs. The rules speak of the world and of environments, not of tables, scopes or
reports, and there is one for each way in which an expression can be correct.

* `Env`, `Env.bind` : the types of the variables at some place;
* `World.Calls` : what a call of a method takes and gives;
* `HasType` : an expression has a type, and every one of its nodes carries its own;
* `HasType.isType` : the type is one of the world.
-/

namespace Cool

/-- The types of the variables at some place. -/
abbrev Env := String → Option Ty

namespace Env

/-- The types behind a further binder. -/
def bind (env : Env) (name : String) (type : Ty) : Env :=
  fun x => if x = name then some type else env x

/-- All variables have types of the world. -/
def Valid (W : World) (env : Env) : Prop :=
  ∀ x τ, env x = some τ → W.IsType τ

theorem Valid.bind {W : World} {env : Env} {name : String} {type : Ty} (h : env.Valid W)
    (htype : W.IsType type) : (env.bind name type).Valid W := by
  intro x τ hx
  unfold Env.bind at hx
  split_ifs at hx with heq
  · exact Option.some.inj hx ▸ htype
  · exact h x τ hx

end Env

/-- The type of a call: a method that returns `SELF_TYPE` returns a value of the receiver's type. -/
def MethodSig.result (m : MethodSig) (receiver : Ty) : Ty :=
  if m.returnType = .selfType then receiver else m.returnType

/-- A call, inside a class, of the method that the class `start` has: the arguments conform to the
types of the formal parameters, one by one. -/
inductive World.Calls (W : World) (enclosing : String) (receiver : Ty) (start method : String)
    (args : List Ty) : Ty → Prop
  | intro {m : MethodSig} (hm : W.Finds start method m)
    (hargs : List.Forall₂ (fun τ formal => W.Conforms enclosing τ formal.type) args m.formals) :
    Calls W enclosing receiver start method args (m.result receiver)

mutual

/-- The expression is correct where variables have the types of `env`, has the type, and the types
noted at its nodes are theirs. -/
inductive HasType (W : World) (enclosing : String) : Env → Expr → Ty → Prop
  | int {env : Env} {span : Span} {value : Nat} :
    HasType W enclosing env (.int ⟨span, some .int⟩ value) .int
  | string {env : Env} {span : Span} {value : String} :
    HasType W enclosing env (.string ⟨span, some .string⟩ value) .string
  | bool {env : Env} {span : Span} {value : Bool} :
    HasType W enclosing env (.bool ⟨span, some .bool⟩ value) .bool
  | self {env : Env} {span : Span} :
    HasType W enclosing env (.object ⟨span, some .selfType⟩ Names.self) .selfType
  | object {env : Env} {span : Span} {name : String} {τ : Ty} (hne : name ≠ Names.self)
    (hname : env name = some τ) :
    HasType W enclosing env (.object ⟨span, some τ⟩ name) τ
  | assign {env : Env} {span : Span} {name : String} {value : Expr} {τ declared : Ty}
    (hne : name ≠ Names.self) (hname : env name = some declared)
    (hvalue : HasType W enclosing env value τ) (hconforms : W.Conforms enclosing τ declared) :
    HasType W enclosing env (.assign ⟨span, some τ⟩ name value) τ
  | selfDispatch {env : Env} {span : Span} {method : String} {args : List Expr} {types : List Ty}
    {τ : Ty} (hargs : HasTypes W enclosing env args types)
    (hcall : W.Calls enclosing .selfType enclosing method types τ) :
    HasType W enclosing env (.selfDispatch ⟨span, some τ⟩ method args) τ
  | dispatch {env : Env} {span : Span} {receiver : Expr} {method : String} {args : List Expr}
    {types : List Ty} {ρ τ : Ty} (hreceiver : HasType W enclosing env receiver ρ)
    (hargs : HasTypes W enclosing env args types)
    (hcall : W.Calls enclosing ρ (ρ.resolve enclosing) method types τ) :
    HasType W enclosing env (.dispatch ⟨span, some τ⟩ receiver method args) τ
  | staticDispatch {env : Env} {span : Span} {receiver : Expr} {type method : String}
    {args : List Expr} {types : List Ty} {ρ τ : Ty}
    (hreceiver : HasType W enclosing env receiver ρ) (hargs : HasTypes W enclosing env args types)
    (htype : W.Denotes type (.named type)) (hconforms : W.Conforms enclosing ρ (.named type))
    (hcall : W.Calls enclosing ρ type method types τ) :
    HasType W enclosing env (.staticDispatch ⟨span, some τ⟩ receiver type method args) τ
  | new {env : Env} {span : Span} {type : String} {τ : Ty} (htype : W.Denotes type τ) :
    HasType W enclosing env (.new ⟨span, some τ⟩ type) τ
  | cond {env : Env} {span : Span} {predicate thenBranch elseBranch : Expr} {σ τ υ : Ty}
    (hpredicate : HasType W enclosing env predicate .bool)
    (hthen : HasType W enclosing env thenBranch σ) (helse : HasType W enclosing env elseBranch τ)
    (hjoin : W.IsJoin enclosing [σ, τ] υ) :
    HasType W enclosing env (.cond ⟨span, some υ⟩ predicate thenBranch elseBranch) υ
  | loop {env : Env} {span : Span} {predicate body : Expr} {τ : Ty}
    (hpredicate : HasType W enclosing env predicate .bool)
    (hbody : HasType W enclosing env body τ) :
    HasType W enclosing env (.loop ⟨span, some .object⟩ predicate body) .object
  | block {env : Env} {span : Span} {body : List Expr} {types : List Ty} {τ : Ty}
    (hbody : HasTypes W enclosing env body types) (hlast : types.getLast? = some τ) :
    HasType W enclosing env (.block ⟨span, some τ⟩ body) τ
  | letIn {env : Env} {span : Span} {name type : String} {body : Expr} {declared τ : Ty}
    (hne : name ≠ Names.self) (htype : W.Denotes type declared)
    (hbody : HasType W enclosing (env.bind name declared) body τ) :
    HasType W enclosing env (.letIn ⟨span, some τ⟩ name type none body) τ
  /-- A variable of type `SELF_TYPE` takes any value. -/
  | letInit {env : Env} {span : Span} {name type : String} {init body : Expr}
    {declared ι τ : Ty} (hne : name ≠ Names.self) (htype : W.Denotes type declared)
    (hinit : HasType W enclosing env init ι)
    (hconforms : declared = .selfType ∨ W.Conforms enclosing ι declared)
    (hbody : HasType W enclosing (env.bind name declared) body τ) :
    HasType W enclosing env (.letIn ⟨span, some τ⟩ name type (some init) body) τ
  | typeCase {env : Env} {span : Span} {scrutinee : Expr} {branches : List Branch}
    {types : List Ty} {σ τ : Ty} (hscrutinee : HasType W enclosing env scrutinee σ)
    (hne : branches ≠ []) (hbranches : BranchTypes W enclosing env branches types)
    (hdistinct : (branches.map Branch.type).Nodup) (hjoin : W.IsJoin enclosing types τ) :
    HasType W enclosing env (.typeCase ⟨span, some τ⟩ scrutinee branches) τ
  | arithmetic {env : Env} {span : Span} {op : BinaryOp} {left right : Expr}
    (hop : op.isComparison = false) (hleft : HasType W enclosing env left .int)
    (hright : HasType W enclosing env right .int) :
    HasType W enclosing env (.binary ⟨span, some .int⟩ op left right) .int
  | compare {env : Env} {span : Span} {op : BinaryOp} {left right : Expr}
    (hop : op = .lt ∨ op = .le) (hleft : HasType W enclosing env left .int)
    (hright : HasType W enclosing env right .int) :
    HasType W enclosing env (.binary ⟨span, some .bool⟩ op left right) .bool
  /-- Values are compared with values, and other objects with other objects. -/
  | equal {env : Env} {span : Span} {left right : Expr} {σ τ : Ty}
    (hleft : HasType W enclosing env left σ) (hright : HasType W enclosing env right τ)
    (hvalue : σ.isValue = τ.isValue) :
    HasType W enclosing env (.binary ⟨span, some .bool⟩ .eq left right) .bool
  | negate {env : Env} {span : Span} {operand : Expr}
    (hoperand : HasType W enclosing env operand .int) :
    HasType W enclosing env (.unary ⟨span, some .int⟩ .negate operand) .int
  | not {env : Env} {span : Span} {operand : Expr}
    (hoperand : HasType W enclosing env operand .bool) :
    HasType W enclosing env (.unary ⟨span, some .bool⟩ .not operand) .bool
  | isVoid {env : Env} {span : Span} {operand : Expr} {τ : Ty}
    (hoperand : HasType W enclosing env operand τ) :
    HasType W enclosing env (.isVoid ⟨span, some .bool⟩ operand) .bool

/-- Expressions in one environment, and their types. -/
inductive HasTypes (W : World) (enclosing : String) : Env → List Expr → List Ty → Prop
  | nil {env : Env} : HasTypes W enclosing env [] []
  | cons {env : Env} {e : Expr} {es : List Expr} {τ : Ty} {types : List Ty}
    (he : HasType W enclosing env e τ) (hes : HasTypes W enclosing env es types) :
    HasTypes W enclosing env (e :: es) (τ :: types)

/-- The branches of a `case`, each of which binds a variable of a class, and their types. -/
inductive BranchTypes (W : World) (enclosing : String) : Env → List Branch → List Ty → Prop
  | nil {env : Env} : BranchTypes W enclosing env [] []
  | cons {env : Env} {name type : String} {body : Expr} {span : Span} {branches : List Branch}
    {τ : Ty} {types : List Ty} (hne : name ≠ Names.self) (htype : W.Denotes type (.named type))
    (hbody : HasType W enclosing (env.bind name (.named type)) body τ)
    (hbranches : BranchTypes W enclosing env branches types) :
    BranchTypes W enclosing env (⟨name, type, body, span⟩ :: branches) (τ :: types)

end

/-! ## Types of expressions are types of the world -/

theorem World.Calls.isType {W : World} (hW : W.Lawful) {enclosing start method : String}
    {receiver τ : Ty} {args : List Ty} (hreceiver : W.IsType receiver)
    (h : W.Calls enclosing receiver start method args τ) : W.IsType τ := by
  obtain ⟨hm, -⟩ := h
  obtain ⟨a, ha⟩ := hm.exists_declares
  unfold MethodSig.result
  split_ifs with hself
  · exact hreceiver
  · exact hW.returnType a _ ha

section

variable {W : World} {enclosing : String}

mutual

theorem HasType.isType (hW : W.Lawful) : ∀ {e : Expr} {env : Env} {τ : Ty}, env.Valid W →
    HasType W enclosing env e τ → W.IsType τ
  | .int .., _, _, _, h => by
    cases h
    exact hW.basic Names.int (by decide)
  | .string .., _, _, _, h => by
    cases h
    exact hW.basic Names.string (by decide)
  | .bool .., _, _, _, h => by
    cases h
    exact hW.basic Names.bool (by decide)
  | .object .., _, _, henv, h => by
    cases h with
    | self => trivial
    | object _ hname => exact henv _ _ hname
  | .assign _ _ value, _, _, henv, h => by
    cases h with
    | assign _ _ hvalue _ => exact HasType.isType hW (e := value) henv hvalue
  | .selfDispatch .., _, _, _, h => by
    cases h with
    | selfDispatch _ hcall =>
      have hself : W.IsType .selfType := trivial
      exact hcall.isType hW hself
  | .dispatch _ receiver _ _, _, _, henv, h => by
    cases h with
    | dispatch hreceiver _ hcall =>
      have hρ := HasType.isType hW (e := receiver) henv hreceiver
      exact hcall.isType hW hρ
  | .staticDispatch _ receiver _ _ _, _, _, henv, h => by
    cases h with
    | staticDispatch hreceiver _ _ _ hcall =>
      have hρ := HasType.isType hW (e := receiver) henv hreceiver
      exact hcall.isType hW hρ
  | .new .., _, _, _, h => by
    cases h with
    | new htype => exact htype.isType
  | .cond _ _ thenBranch _, _, _, henv, h => by
    cases h with
    | cond _ hthen _ hjoin =>
      have hσ := HasType.isType hW (e := thenBranch) henv hthen
      exact hW.isType_of_conforms hσ (hjoin.upper _ List.mem_cons_self)
  | .loop .., _, _, _, h => by
    cases h
    exact hW.basic Names.object (by decide)
  | .block _ body, _, _, henv, h => by
    cases h with
    | block hbody hlast =>
      exact HasTypes.isType hW henv hbody _ (List.mem_of_getLast? hlast)
  | .letIn _ _ _ _ body, _, _, henv, h => by
    cases h with
    | letIn _ htype hbody => exact HasType.isType hW (e := body) (henv.bind htype.isType) hbody
    | letInit _ htype _ _ hbody =>
      exact HasType.isType hW (e := body) (henv.bind htype.isType) hbody
  | .typeCase _ _ branches, _, _, henv, h => by
    cases h with
    | typeCase _ _ hbranches _ hjoin =>
      have hall := BranchTypes.isType hW (b := branches) henv hbranches
      exact hW.isType_of_isJoin hjoin hall
  | .binary .., _, _, _, h => by
    cases h with
    | arithmetic => exact hW.basic Names.int (by decide)
    | compare => exact hW.basic Names.bool (by decide)
    | equal => exact hW.basic Names.bool (by decide)
  | .unary .., _, _, _, h => by
    cases h with
    | negate => exact hW.basic Names.int (by decide)
    | not => exact hW.basic Names.bool (by decide)
  | .isVoid .., _, _, _, h => by
    cases h
    exact hW.basic Names.bool (by decide)

theorem HasTypes.isType (hW : W.Lawful) : ∀ {es : List Expr} {env : Env} {types : List Ty},
    env.Valid W → HasTypes W enclosing env es types → ∀ τ ∈ types, W.IsType τ
  | [], _, _, _, h => by
    cases h
    exact nofun
  | e :: es, _, _, henv, h => by
    cases h with
    | cons he hes =>
      rw [List.forall_mem_cons]
      exact ⟨HasType.isType hW (e := e) henv he, HasTypes.isType hW henv hes⟩

theorem BranchTypes.isType (hW : W.Lawful) : ∀ {b : List Branch} {env : Env} {types : List Ty},
    env.Valid W → BranchTypes W enclosing env b types → ∀ τ ∈ types, W.IsType τ
  | [], _, _, _, h => by
    cases h
    exact nofun
  | ⟨_, _, body, _⟩ :: branches, _, _, henv, h => by
    cases h with
    | cons _ htype hbody hbranches =>
      rw [List.forall_mem_cons]
      exact ⟨HasType.isType hW (e := body) (henv.bind htype.isType) hbody,
        BranchTypes.isType hW (b := branches) henv hbranches⟩

end

end

end Cool
