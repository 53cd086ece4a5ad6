import SplFrontend.Stmt

/-!
# Programs

A program is the text of one module: import lines and items. Items are type synonyms, global
variables and callables.
-/

namespace SplFrontend

/-- The three classes of names that an import line can list. -/
inductive NameKind where
  | ident
  | typeName
  | op
deriving DecidableEq, Repr

/-- The class in the words of a message. -/
def NameKind.describe : NameKind → String
  | ident => "identifier"
  | typeName => "type identifier"
  | op => "operator"

/-- A name that an import line lists. -/
structure Name where
  text : String
  kind : NameKind
deriving DecidableEq, Repr

/-- A name of another module, with the name it gets here. -/
structure ImportName where
  name : Name
  asName : Option Name
  loc : Loc
deriving DecidableEq, Repr

/-- The name by which the imported entity is known in the importing module. -/
def ImportName.effective (n : ImportName) : Name := n.asName.getD n.name

/-- What an import line asks for. -/
inductive ImportSet where
  | all
  | names (ns : List ImportName)
deriving DecidableEq, Repr

/-- An import line. -/
structure Import where
  module : String
  names : ImportSet
  loc : Loc
deriving DecidableEq, Repr

/-- A type synonym. -/
structure Synonym where
  name : String
  ty : Ty
  loc : Loc
deriving DecidableEq, Repr

/-- A parameter of a callable. -/
structure Param where
  name : String
  loc : Loc
deriving DecidableEq, Repr

/-- The head of a callable: its kind, with the fixity of an infix operator. -/
inductive Head where
  | function
  | prefixOp
  | infixOp (fixity : Fixity)
deriving DecidableEq, Repr

namespace Head

/-- The space that the callable's name lives in. -/
def kind : Head → CallKind
  | function => .function
  | prefixOp => .prefixOp
  | infixOp _ => .infixOp

/-- The fixity, which only infix operators have. -/
def fixity? : Head → Option Fixity
  | infixOp f => some f
  | _ => none

end Head

/-- The definition of a function or an operator. -/
structure FnDef where
  head : Head
  name : String
  params : List Param
  sig : Option Signature
  body : List Stmt
  loc : Loc

/-- The space that the callable's name lives in. -/
abbrev FnDef.kind (f : FnDef) : CallKind := f.head.kind

/-- A declaration at the top of a module. -/
inductive Item where
  | synonym (s : Synonym)
  | global (d : VarDecl)
  | fn (f : FnDef)

/-- The text of one module. -/
structure Program where
  imports : List Import
  items : List Item

end SplFrontend
