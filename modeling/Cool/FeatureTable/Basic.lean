import Cool.ClassTable.Basic

/-!
# Feature tables

A feature table holds what each resolved class declares itself: its attributes and the signatures of
its methods. What a class inherits is found by going through its ancestors, so that nothing is
stored twice.

* `MethodSig`, `AttributeSig`, `ClassFeatures`, `FeatureTable` : signatures and tables;
* `FeatureTable.ownMethod?`, `FeatureTable.ownAttribute?` : what a class declares itself;
* `FeatureTable.lookupMethod?`, `FeatureTable.lookupAttribute?` : the nearest declaration in the
  chain of ancestors;
* `FeatureTable.visibleAttributes` : all attributes of the objects of a class.
-/

namespace Cool

structure FormalSig where
  name : String
  type : Ty
  deriving DecidableEq

structure MethodSig where
  name : String
  formals : List FormalSig
  returnType : Ty
  /-- The class that declares the method. -/
  owner : String
  deriving DecidableEq

structure AttributeSig where
  name : String
  type : Ty
  /-- The class that declares the attribute. -/
  owner : String
  deriving DecidableEq

/-- What a class declares, in order. No two attributes and no two methods have one name. -/
structure ClassFeatures where
  attributes : List AttributeSig
  methods : List MethodSig
  deriving DecidableEq

def ClassFeatures.empty : ClassFeatures :=
  ⟨[], []⟩

def ClassFeatures.method? (f : ClassFeatures) (name : String) : Option MethodSig :=
  f.methods.find? fun m => m.name == name

def ClassFeatures.attribute? (f : ClassFeatures) (name : String) : Option AttributeSig :=
  f.attributes.find? fun a => a.name == name

structure FeatureTable where
  entries : List (String × ClassFeatures)

namespace FeatureTable

/-- The table without classes. -/
def empty : FeatureTable :=
  ⟨[]⟩

def signature (owner : String) (m : BuiltinMethod) : MethodSig :=
  ⟨m.name, m.formals.map fun (name, type) => ⟨name, type⟩, m.returnType, owner⟩

/-- The table of the basic classes. -/
def basic : FeatureTable :=
  ⟨Builtin.classes.map fun c => (c.name, ⟨[], c.methods.map (signature c.name)⟩)⟩

/-- Adds a class that is not in the table. -/
def insert (t : FeatureTable) (name : String) (own : ClassFeatures) : FeatureTable :=
  ⟨t.entries ++ [(name, own)]⟩

def find? (t : FeatureTable) (name : String) : Option ClassFeatures :=
  (t.entries.find? fun entry => entry.1 == name).map Prod.snd

def hasClass (t : FeatureTable) (name : String) : Bool :=
  (t.find? name).isSome

def ownMethod? (t : FeatureTable) (name method : String) : Option MethodSig :=
  (t.find? name).bind fun own => own.method? method

def ownAttribute? (t : FeatureTable) (name attr : String) : Option AttributeSig :=
  (t.find? name).bind fun own => own.attribute? attr

/-- The method of this name that a call on an object of a class runs. -/
def lookupMethod? (t : FeatureTable) (classes : ClassTable) (name method : String) :
    Option MethodSig :=
  (classes.ancestors name).findSome? fun c => t.ownMethod? c.name method

/-- The attribute of this name that the objects of a class have. -/
def lookupAttribute? (t : FeatureTable) (classes : ClassTable) (name attr : String) :
    Option AttributeSig :=
  (classes.ancestors name).findSome? fun c => t.ownAttribute? c.name attr

/-- The attributes that the objects of a class have, those of the farthest ancestor first. -/
def visibleAttributes (t : FeatureTable) (classes : ClassTable) (name : String) :
    List AttributeSig :=
  (classes.ancestors name).reverse.flatMap fun c =>
    (t.find? c.name).elim [] ClassFeatures.attributes

end FeatureTable

end Cool
