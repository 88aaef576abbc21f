import Cool.Source.Span
import Cool.Tree.Expr
import Cool.Ty

/-!
# Defects of programs

What can be wrong with a program that has been read. The defects come in three tiers, one for each
pass of the analysis: of the class hierarchy, of the declared features, and of the types of
expressions. The wording of each is here and nowhere else.

* `StructuralDefect`, `DeclarationDefect`, `TypingDefect` : the defects of each tier;
* `Cause`, `Cause.tier`, `Cause.message` : a defect of any tier, and how it is worded.
-/

namespace Cool

/-- The passes of the analysis. -/
inductive Tier where
  | structural
  | declaration
  | typing
  deriving DecidableEq

/-! ## The class hierarchy -/

inductive StructuralDefect where
  | basicClassRedefined (name : String)
  | classRedefined (name : String)
  | illegalParent (name : String) (parent : String)
  | undefinedParent (name : String) (parent : String)
  | noMainClass
  | noEntryMethod
  | entryMethodHasFormals
  | inheritanceCycle (name : String)
  deriving DecidableEq

def StructuralDefect.message : StructuralDefect → String
  | .basicClassRedefined name => "Redefinition of basic class " ++ name ++ "."
  | .classRedefined name => "Class " ++ name ++ " was previously defined."
  | .illegalParent name parent => "Class " ++ name ++ " cannot inherit class " ++ parent ++ "."
  | .undefinedParent name parent =>
    "Class " ++ name ++ " inherits from an undefined class " ++ parent ++ "."
  | .noMainClass => "Class Main is not defined."
  | .noEntryMethod => "No 'main' method in class Main."
  | .entryMethodHasFormals => "'main' method in class Main should have no arguments."
  | .inheritanceCycle name =>
    "Class " ++ name ++ ", or an ancestor of " ++ name ++ ", is involved in an inheritance cycle."

/-! ## Declared features -/

inductive DeclarationDefect where
  | attributeNamedSelf
  | attributeRedefined (name : String)
  | attributeInherited (name : String)
  | attributeTypeUndefined (type : String) (name : String)
  | methodRedefined (name : String)
  | formalNamedSelf
  | formalRedefined (name : String)
  | formalSelfType (name : String)
  | formalTypeUndefined (type : String) (name : String)
  | returnTypeUndefined (type : String) (method : String)
  | overrideArity (method : String)
  | overrideFormal (method : String) (own : Ty) (inherited : Ty)
  | overrideReturn (method : String) (own : Ty) (inherited : Ty)
  deriving DecidableEq

def DeclarationDefect.message : DeclarationDefect → String
  | .attributeNamedSelf => "'self' cannot be the name of an attribute."
  | .attributeRedefined name => "Attribute " ++ name ++ " is multiply defined in class."
  | .attributeInherited name =>
    "Attribute " ++ name ++ " is an attribute of an inherited class."
  | .attributeTypeUndefined type name =>
    "Class " ++ type ++ " of attribute " ++ name ++ " is undefined."
  | .methodRedefined name => "Method " ++ name ++ " is multiply defined."
  | .formalNamedSelf => "'self' cannot be the name of a formal parameter."
  | .formalRedefined name => "Formal parameter " ++ name ++ " is multiply defined."
  | .formalSelfType name => "Formal parameter " ++ name ++ " cannot have type SELF_TYPE."
  | .formalTypeUndefined type name =>
    "Class " ++ type ++ " of formal parameter " ++ name ++ " is undefined."
  | .returnTypeUndefined type method =>
    "Undefined return type " ++ type ++ " in method " ++ method ++ "."
  | .overrideArity method =>
    "Incompatible number of formal parameters in redefined method " ++ method ++ "."
  | .overrideFormal method own inherited =>
    "In redefined method " ++ method ++ ", parameter type " ++ own.name ++
      " is different from original type " ++ inherited.name ++ "."
  | .overrideReturn method own inherited =>
    "In redefined method " ++ method ++ ", return type " ++ own.name ++
      " is different from original return type " ++ inherited.name ++ "."

/-! ## Types of expressions -/

inductive TypingDefect where
  | undeclared (name : String)
  | assignedSelf
  | assignedUndeclared (name : String)
  | assignedMismatch (type : Ty) (declared : Ty) (name : String)
  | undefinedMethod (method : String)
  | wrongArity (method : String)
  | argumentMismatch (method : String) (type : Ty) (formal : String) (declared : Ty)
  | staticSelfType
  | staticUndefined (type : String)
  | staticMismatch (receiver : Ty) (type : String)
  | newUndefined (type : String)
  | predicateNotBool
  | conditionNotBool
  | letSelf
  | letTypeUndefined (type : String) (name : String)
  | letMismatch (type : Ty) (name : String) (declared : Ty)
  | caseSelf
  | caseSelfType (name : String)
  | caseTypeUndefined (type : String)
  | caseDuplicate (type : String)
  | valueCompared
  | notIntegers (left : Ty) (op : BinaryOp) (right : Ty)
  | negatedType (type : Ty)
  | complementedType (type : Ty)
  | attributeMismatch (type : Ty) (name : String) (declared : Ty)
  | returnMismatch (type : Ty) (method : String) (declared : Ty)
  | undefinedType (name : String)
  deriving DecidableEq

def TypingDefect.message : TypingDefect → String
  | .undeclared name => "Undeclared identifier " ++ name ++ "."
  | .assignedSelf => "Cannot assign to 'self'."
  | .assignedUndeclared name => "Assignment to undeclared variable " ++ name ++ "."
  | .assignedMismatch type declared name =>
    "Type " ++ type.name ++ " of assigned expression does not conform to declared type " ++
      declared.name ++ " of identifier " ++ name ++ "."
  | .undefinedMethod method => "Dispatch to undefined method " ++ method ++ "."
  | .wrongArity method => "Method " ++ method ++ " called with wrong number of arguments."
  | .argumentMismatch method type formal declared =>
    "In call of method " ++ method ++ ", type " ++ type.name ++ " of parameter " ++ formal ++
      " does not conform to declared type " ++ declared.name ++ "."
  | .staticSelfType => "Static dispatch to SELF_TYPE."
  | .staticUndefined type => "Static dispatch to undefined class " ++ type ++ "."
  | .staticMismatch receiver type =>
    "Expression type " ++ receiver.name ++ " does not conform to declared static dispatch type " ++
      type ++ "."
  | .newUndefined type => "'new' used with undefined class " ++ type ++ "."
  | .predicateNotBool => "Predicate of 'if' does not have type Bool."
  | .conditionNotBool => "Loop condition does not have type Bool."
  | .letSelf => "'self' cannot be bound in a 'let' expression."
  | .letTypeUndefined type name =>
    "Class " ++ type ++ " of let-bound identifier " ++ name ++ " is undefined."
  | .letMismatch type name declared =>
    "Inferred type " ++ type.name ++ " of initialization of " ++ name ++
      " does not conform to identifier's declared type " ++ declared.name ++ "."
  | .caseSelf => "'self' bound in 'case'."
  | .caseSelfType name =>
    "Identifier " ++ name ++ " declared with type SELF_TYPE in case branch."
  | .caseTypeUndefined type => "Class " ++ type ++ " of case branch is undefined."
  | .caseDuplicate type => "Duplicate branch " ++ type ++ " in case statement."
  | .valueCompared => "Illegal comparison with a basic type."
  | .notIntegers left op right =>
    "non-Int arguments: " ++ left.name ++ " " ++ op.symbol ++ " " ++ right.name
  | .negatedType type => "Argument of '~' has type " ++ type.name ++ " instead of Int."
  | .complementedType type => "Argument of 'not' has type " ++ type.name ++ " instead of Bool."
  | .attributeMismatch type name declared =>
    "Inferred type " ++ type.name ++ " of initialization of attribute " ++ name ++
      " does not conform to declared type " ++ declared.name ++ "."
  | .returnMismatch type method declared =>
    "Inferred return type " ++ type.name ++ " of method " ++ method ++
      " does not conform to declared return type " ++ declared.name ++ "."
  | .undefinedType name => "Undefined type " ++ name ++ "."

/-! ## Causes -/

/-- Why something is reported: a defect, or a remark in somebody else's words. -/
inductive Cause where
  | structural (defect : StructuralDefect)
  | declaration (defect : DeclarationDefect)
  | typing (defect : TypingDefect)
  | remark (tier : Tier) (message : String)
  deriving DecidableEq

def Cause.tier : Cause → Tier
  | .structural _ => .structural
  | .declaration _ => .declaration
  | .typing _ => .typing
  | .remark tier _ => tier

def Cause.message : Cause → String
  | .structural defect => defect.message
  | .declaration defect => defect.message
  | .typing defect => defect.message
  | .remark _ message => message

end Cool
