import Cool.Grammar.Expr
import Cool.Tree.Program

/-!
# The grammar of programs

A source file is one or more class declarations, each with a semicolon behind it.

* `Grammar.formal`, `Grammar.feature`, `Grammar.classDecl`, `Grammar.program` : the declarations;
* `Program.parse` : the declarations of a file.
-/

namespace Cool

namespace Grammar

open Cool.Parser

def formal : Parser Formal := do
  let first ← peek
  let name ← objectId
  let _ ← expect (.symbol .colon)
  let type ← typeId
  return ⟨name, type, first.span.through (← lastSpan)⟩

/-- A method, if a parenthesis follows its name, or an attribute. -/
def feature : Parser Feature := do
  let first ← peek
  let name ← objectId
  if ← check (.symbol .parenOpen) then
    let formals ← withAllowance (commaList formal)
    let _ ← expect (.symbol .colon)
    let returnType ← typeId
    let _ ← expect (.symbol .braceOpen)
    let body ← expr
    let stop ← expect (.symbol .braceClose)
    return .method ⟨name, formals, returnType, body, first.span.through stop.span⟩
  else
    let _ ← expect (.symbol .colon)
    let type ← typeId
    let init ← if ← accept (.symbol .assign) then some <$> expr else pure none
    return .attr ⟨name, type, init, first.span.through (← lastSpan)⟩

def featureItem : Parser Feature := do
  let item ← feature
  let _ ← expect (.symbol .semicolon)
  return item

def classDecl (file : String) : Parser ClassDecl := do
  let first ← expect (.keyword .classKw)
  let name ← typeId
  let parent ←
    if ← accept (.keyword .inheritsKw) then typeId else pure Names.object
  let _ ← expect (.symbol .braceOpen)
  let features ← withAllowance (manyUntil (.symbol .braceClose) featureItem)
  let stop ← expect (.symbol .braceClose)
  return ⟨name, parent, features, file, first.span.through stop.span⟩

def classItem (file : String) : Parser ClassDecl := do
  let item ← classDecl file
  let _ ← expect (.symbol .semicolon)
  return item

def program (file : String) : Parser Program :=
  Program.mk <$> withAllowance (someUntil .endOfFile (classItem file))

end Grammar

/-- The class declarations of the file with this name and text. -/
def Program.parse (file : String) (text : String) : Except Fault Program := do
  let (p, _) ← (Grammar.program file).run (Stream.ofText text)
  return p

end Cool
