import Cool.Source.Span

/-!
# Tokens

What a token is, how each kind is named in a message, and which words are reserved.

A message names a token by `Kind.describe`: reserved words as they are, symbols in quotes,
constants and identifiers with their value. A `Category` is a kind without its value: it is what
a reader of tokens asks for. Three categories have no token, because the lexer deals with such
text itself.

* `Keyword`, `Symbol`, `Kind`, `Token` : the tokens;
* `Kind.reserved?` : the token of a word that cannot be an identifier;
* `Category`, `Kind.category` : kinds without values;
* `Kind.describe`, `Category.describe` : the words used for them in messages.
-/

namespace Cool

/-! ## Reserved words -/

inductive Keyword where
  | classKw
  | elseKw
  | fiKw
  | ifKw
  | inKw
  | inheritsKw
  | isvoidKw
  | letKw
  | loopKw
  | poolKw
  | thenKw
  | whileKw
  | caseKw
  | esacKw
  | newKw
  | ofKw
  | notKw
  deriving DecidableEq

/-- The spelling of a reserved word in lower case. -/
def Keyword.spelling : Keyword → String
  | .classKw => "class"
  | .elseKw => "else"
  | .fiKw => "fi"
  | .ifKw => "if"
  | .inKw => "in"
  | .inheritsKw => "inherits"
  | .isvoidKw => "isvoid"
  | .letKw => "let"
  | .loopKw => "loop"
  | .poolKw => "pool"
  | .thenKw => "then"
  | .whileKw => "while"
  | .caseKw => "case"
  | .esacKw => "esac"
  | .newKw => "new"
  | .ofKw => "of"
  | .notKw => "not"

def Keyword.all : List Keyword :=
  [.classKw, .elseKw, .fiKw, .ifKw, .inKw, .inheritsKw, .isvoidKw, .letKw, .loopKw, .poolKw,
    .thenKw, .whileKw, .caseKw, .esacKw, .newKw, .ofKw, .notKw]

theorem Keyword.mem_all (k : Keyword) : k ∈ Keyword.all := by
  cases k <;> decide

/-- The reserved word with this spelling in lower case. -/
def Keyword.ofSpelling? (s : String) : Option Keyword :=
  Keyword.all.find? (fun k => k.spelling == s)

/-! ## Symbols -/

inductive Symbol where
  | assign
  | arrow
  | le
  | plus
  | minus
  | star
  | slash
  | tilde
  | lt
  | eq
  | dot
  | atSign
  | parenOpen
  | parenClose
  | braceOpen
  | braceClose
  | semicolon
  | comma
  | colon
  deriving DecidableEq

def Symbol.spelling : Symbol → List Char
  | .assign => ['<', '-']
  | .arrow => ['=', '>']
  | .le => ['<', '=']
  | .plus => ['+']
  | .minus => ['-']
  | .star => ['*']
  | .slash => ['/']
  | .tilde => ['~']
  | .lt => ['<']
  | .eq => ['=']
  | .dot => ['.']
  | .atSign => ['@']
  | .parenOpen => ['(']
  | .parenClose => [')']
  | .braceOpen => ['\x7b']
  | .braceClose => ['\x7d']
  | .semicolon => [';']
  | .comma => [',']
  | .colon => [':']

/-- Every symbol, the long spellings before the short ones that begin them. -/
def Symbol.all : List Symbol :=
  [.assign, .arrow, .le, .plus, .minus, .star, .slash, .tilde, .lt, .eq, .dot, .atSign,
    .parenOpen, .parenClose, .braceOpen, .braceClose, .semicolon, .comma, .colon]

theorem Symbol.mem_all (s : Symbol) : s ∈ Symbol.all := by
  cases s <;> decide

/-- The symbol whose spelling starts a text, the longest one if there are several. -/
def Symbol.atFront? (text : List Char) : Option Symbol :=
  Symbol.all.find? (fun s => s.spelling.isPrefixOf text)

/-! ## Kinds -/

inductive Kind where
  | keyword (word : Keyword)
  | symbol (sign : Symbol)
  | int (value : Nat)
  | bool (value : Bool)
  | string (value : String)
  | typeId (name : String)
  | objectId (name : String)
  | endOfFile
  deriving DecidableEq

structure Token where
  kind : Kind
  span : Span
  deriving DecidableEq

/-- The reserved word or truth value that a word spells, if it spells one. Reserved words may be
written in any mixture of letter case; the truth values also, but for their first letter, which
has to be a small one. Only the letters of ASCII have two cases here. -/
def Kind.reserved? (word : String) : Option Kind :=
  let lower := String.ofList (word.toList.map Char.toLower)
  match Keyword.ofSpelling? lower with
  | some k => some (.keyword k)
  | none =>
    if word.toList.head?.any Char.isLower then
      if lower == "true" then some (.bool true)
      else if lower == "false" then some (.bool false)
      else none
    else none

/-- The words for a token in a message. -/
def Kind.describe : Kind → String
  | .keyword k => k.spelling
  | .symbol s => "'" ++ String.ofList s.spelling ++ "'"
  | .int n => "integer " ++ toString n
  | .bool true => "true"
  | .bool false => "false"
  | .string s => "string " ++ s
  | .typeId s => "type identifier '" ++ s ++ "'"
  | .objectId s => "identifier '" ++ s ++ "'"
  | .endOfFile => "end of file"

/-! ## Categories -/

/-- What a reader of tokens can ask for: a kind of token, whatever its value. The last three are
kinds of text that never become a token, so that asking for one always fails. -/
inductive Category where
  | keyword (word : Keyword)
  | symbol (sign : Symbol)
  | int
  | bool
  | string
  | typeId
  | objectId
  | endOfFile
  | commentOpen
  | commentClose
  | openString
  deriving DecidableEq

def Kind.category : Kind → Category
  | .keyword k => .keyword k
  | .symbol s => .symbol s
  | .int _ => .int
  | .bool _ => .bool
  | .string _ => .string
  | .typeId _ => .typeId
  | .objectId _ => .objectId
  | .endOfFile => .endOfFile

/-- The words for a category in a message: those of its token whose value is zero, false or
empty. -/
def Category.describe : Category → String
  | .keyword k => Kind.describe (.keyword k)
  | .symbol s => Kind.describe (.symbol s)
  | .int => Kind.describe (.int 0)
  | .bool => Kind.describe (.bool false)
  | .string => Kind.describe (.string "")
  | .typeId => Kind.describe (.typeId "")
  | .objectId => Kind.describe (.objectId "")
  | .endOfFile => Kind.describe .endOfFile
  | .commentOpen => "'(*'"
  | .commentClose => "'*)'"
  | .openString => "unterminated string"

end Cool
