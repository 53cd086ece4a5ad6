import SplFrontend.Accessor
import SplFrontend.Loc
import SplFrontend.Text.Quoted

/-!
# Tokens

What a source text is made of once blanks and comments are gone. A token is a kind with the place
where its lexeme begins. The end of the text is not a token: a stream of tokens carries the place of
the end beside it, and `Kind.describeNext` speaks of it as the absence of a token.

The types hold what a text can give and leave out what only a list put together by hand can: an end
of input in the middle of the list, tokens behind it, and an integer below zero, since a sign is a
token of its own. `RawKind` has these too, for the readers that must get along with any list.
-/

namespace SplFrontend

/-- The reserved lower-case words. -/
inductive Keyword where
  | kwVar
  | kwType
  | kwIf
  | kwElif
  | kwElse
  | kwWhile
  | kwFor
  | kwIn
  | kwReturn
  | kwBreak
  | kwContinue
  | kwFrom
  | kwImport
  | kwImportAll
  | kwAs
  | kwPrefix
  | kwInfixl
  | kwInfixr
deriving DecidableEq, Repr

namespace Keyword

/-- The spelling of a keyword. -/
def spelling : Keyword → String
  | kwVar => "var"
  | kwType => "type"
  | kwIf => "if"
  | kwElif => "elif"
  | kwElse => "else"
  | kwWhile => "while"
  | kwFor => "for"
  | kwIn => "in"
  | kwReturn => "return"
  | kwBreak => "break"
  | kwContinue => "continue"
  | kwFrom => "from"
  | kwImport => "import"
  | kwImportAll => "importall"
  | kwAs => "as"
  | kwPrefix => "prefix"
  | kwInfixl => "infixl"
  | kwInfixr => "infixr"

/-- Every keyword. -/
def all : List Keyword :=
  [kwVar, kwType, kwIf, kwElif, kwElse, kwWhile, kwFor, kwIn, kwReturn, kwBreak, kwContinue, kwFrom,
    kwImport, kwImportAll, kwAs, kwPrefix, kwInfixl, kwInfixr]

/-- The keyword that a word spells. -/
def ofWord? (word : String) : Option Keyword := all.find? fun k => k.spelling == word

theorem mem_all (k : Keyword) : k ∈ all := by
  cases k <;> decide

theorem spelling_of_ofWord? {word : String} {k : Keyword} (h : ofWord? word = some k) :
    k.spelling = word := by
  simpa using List.find?_some h

end Keyword

/-- Punctuation, and the three operator spellings that are reserved. -/
inductive Mark where
  | assign
  | doubleColon
  | arrow
  | comma
  | semicolon
  | lparen
  | rparen
  | lbrace
  | rbrace
  | lbracket
  | rbracket
deriving DecidableEq, Repr

namespace Mark

/-- The spelling of a mark. -/
def spelling : Mark → String
  | assign => "="
  | doubleColon => "::"
  | arrow => "->"
  | comma => ","
  | semicolon => ";"
  | lparen => "("
  | rparen => ")"
  | lbrace => "\x7b"
  | rbrace => "\x7d"
  | lbracket => "["
  | rbracket => "]"

end Mark

/-- What a token is, apart from where it stands. -/
inductive Kind where
  | int (value : Nat)
  | char (value : Char)
  | str (value : String)
  | bool (value : Bool)
  | ident (name : String)
  | typeName (name : String)
  | op (name : String)
  | accessor (a : Accessor)
  | keyword (k : Keyword)
  | mark (m : Mark)
deriving DecidableEq, Repr

namespace Kind

/-- Is the token a literal? -/
def isLiteral : Kind → Bool
  | int _ | char _ | str _ | bool _ => true
  | _ => false

/-- Is the token a keyword? -/
def isKeyword : Kind → Bool
  | keyword _ => true
  | _ => false

/-- The token in the words of a message. -/
def describe : Kind → String
  | int n => "integer `" ++ toString n ++ "`"
  | char c => "character " ++ Text.shown '\'' [c]
  | str s => "string " ++ Text.shown '"' s.toList
  | bool b => if b then "`True`" else "`False`"
  | ident s => "identifier `" ++ s ++ "`"
  | typeName s => "type `" ++ s ++ "`"
  | op s => "operator `" ++ s ++ "`"
  | accessor a => "accessor `." ++ a.name ++ "`"
  | keyword k => "keyword `" ++ k.spelling ++ "`"
  | mark m => "`" ++ m.spelling ++ "`"

/-- What comes next in the words of a message: a token, or the end of the text. -/
def describeNext : Option Kind → String
  | some k => k.describe
  | none => "end of input"

end Kind

/-- A token: what it is and where it begins. -/
structure Token where
  kind : Kind
  loc : Loc
deriving DecidableEq, Repr

/-- The tokens of a text, and the place where the text ends. -/
structure TokenStream where
  tokens : List Token
  stop : Loc
deriving DecidableEq, Repr

end SplFrontend
