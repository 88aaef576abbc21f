import Cool.Builtin
import Cool.Source.Span

/-!
# Class tables

A class table holds the accepted classes of a program with their parents, the basic classes first.
A class whose chain of ancestors is not sound (it runs into a cycle, an undefined class, or one that
must not be inherited from) stays in the table as unresolved: it can be named, but nothing is said
about it.

* `ClassInfo`, `ClassTable` : the classes;
* `ClassTable.find?`, `ClassTable.contains`, `ClassTable.isResolved`, `ClassTable.parentOf?` :
  single classes;
* `ClassTable.ancestors` : a class, its parent, and so on;
* `ClassTable.resolvedOrder` : the resolved classes, parents before children;
* `ClassTable.resolveType?` : the type that a name stands for.
-/

namespace Cool

/-- Where a class comes from: it is basic, or the program declares it at this position. -/
inductive Origin where
  | basic
  | declared (index : Nat)
  deriving DecidableEq

structure ClassInfo where
  name : String
  /-- Nothing for `Object` alone. -/
  parent : Option String
  file : String
  span : Span
  origin : Origin
  deriving DecidableEq

def ClassInfo.isBasic (c : ClassInfo) : Bool :=
  c.origin == .basic

def Origin.index? : Origin → Option Nat
  | .basic => none
  | .declared index => some index

structure ClassTable where
  /-- The basic classes, then those declared, in order. No two have one name. -/
  classes : List ClassInfo
  /-- The names of the unresolved classes. -/
  unresolved : List String

namespace ClassTable

/-- The table without classes. -/
def empty : ClassTable :=
  ⟨[], []⟩

/-- The table of the basic classes. -/
def basic : ClassTable :=
  ⟨Builtin.classes.map fun c => ⟨c.name, c.parent, Builtin.file, ⟨0, 0, 0⟩, .basic⟩, []⟩

def find? (t : ClassTable) (name : String) : Option ClassInfo :=
  t.classes.find? fun c => c.name == name

def contains (t : ClassTable) (name : String) : Bool :=
  (t.find? name).isSome

/-- Whether a class is in the table with a sound chain of ancestors. -/
def isResolved (t : ClassTable) (name : String) : Bool :=
  t.contains name && !t.unresolved.contains name

def parentOf? (t : ClassTable) (name : String) : Option String :=
  (t.find? name).bind ClassInfo.parent

/-- At most so many classes of the chain that starts with `name` and goes on with parents. -/
def chain (t : ClassTable) : Nat → String → List ClassInfo
  | 0, _ => []
  | n + 1, name =>
    match t.find? name with
    | none => []
    | some c =>
      match c.parent with
      | none => [c]
      | some parent => c :: chain t n parent

/-- A class, its parent, and so on. A chain without repetition is no longer than the table; one
that runs into a cycle is cut at that length. -/
def ancestors (t : ClassTable) (name : String) : List ClassInfo :=
  t.chain t.classes.length name

/-- Adds to `order` the names of a chain, given from its far end, that are not in it. -/
def addChain (order : List String) (chain : List ClassInfo) : List String :=
  chain.foldl (fun order c => if order.contains c.name then order else order ++ [c.name]) order

/-- The resolved classes, every one behind its parent. -/
def resolvedOrder (t : ClassTable) : List String :=
  t.classes.foldl
    (fun order c =>
      if t.isResolved c.name then addChain order (t.ancestors c.name).reverse else order)
    []

/-- The type that a name stands for: `SELF_TYPE`, or a class of the table. -/
def resolveType? (t : ClassTable) (name : String) : Option Ty :=
  if name = Names.selfType then some .selfType
  else if t.contains name then some (.named name)
  else none

end ClassTable

end Cool
