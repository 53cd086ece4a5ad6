import SplFrontend.Proofs.Rereading.Program

/-!
# The phrases of the language

The concrete grammar, with one type for each nonterminal and one constructor for each of its
alternatives, so that a value is a derivation. `kinds` lists the tokens that a phrase consists of,
and `tree` is the tree that it stands for, at no place. A repetition is a list, or a type with the
shape of one where it takes part in the recursion.

    program := (uses | decl)* uses := 'from' IDENT ('importall' | 'import' name ('as' name)? (','
    name ('as' name)?)*) ';' name := IDENT | TYPE_IDENT | OP decl := 'type' TYPE_IDENT '=' type ';'
    | vardecl | fundecl vardecl := ('var' | type) IDENT '=' expr ';' fundecl := head '(' (IDENT (','
    IDENT)*)? ')' ('::' type* '->' type)? block head := IDENT | 'prefix' OP | ('infixl' | 'infixr')
    INT OP type := TYPE_IDENT | '(' type ',' type ')' | '[' type ']' block := '{' stmt* '}' stmt :=
    vardecl | 'if' '(' expr ')' block ('elif' '(' expr ')' block)* ('else' block)? | 'while' '('
    expr ')' block | 'for' '(' var 'in' expr ')' block | var '=' expr ';' | call ';' | 'return'
    expr? ';' | 'break' ';' | 'continue' ';' expr := unary (OP unary)* unary := OP unary | atom atom
    := INT | CHAR | STRING | 'True' | 'False' | '[' ']' | '(' expr ')' | '(' expr ',' expr ')' |
    call | var call := IDENT '(' (expr (',' expr)*)? ')' var := IDENT ('.hd' | '.tl' | '.fst' |
    '.snd')*

The number in the head of an infix operator is at most 255.
-/

namespace SplFrontend

namespace Phrase

/-! ## Types and variables -/

inductive Ty where
  | name (n : String)
  | pair (a b : Ty)
  | list (a : Ty)

namespace Ty

def kinds : Ty → List Kind
  | name n => [.typeName n]
  | pair a b => .mark .lparen :: (a.kinds ++ .mark .comma :: (b.kinds ++ [.mark .rparen]))
  | list a => .mark .lbracket :: (a.kinds ++ [.mark .rbracket])

def tree : Ty → SplFrontend.Ty
  | name n => .ofName n
  | pair a b => .pair a.tree b.tree
  | list a => .list a.tree

end Ty

/-- The parameter types and the result type of a signature. -/
structure Signature where
  params : List Ty
  result : Ty

namespace Signature

def kinds (s : Signature) : List Kind := s.params.flatMap Ty.kinds ++ .mark .arrow :: s.result.kinds

def tree (s : Signature) : SplFrontend.Signature := ⟨s.params.map Ty.tree, s.result.tree⟩

end Signature

structure Var where
  name : String
  accessors : List Accessor

namespace Var

def kinds (v : Var) : List Kind := .ident v.name :: v.accessors.map .accessor

def tree (v : Var) : Variable := ⟨.unresolved v.name, v.accessors, none, .nowhere⟩

end Var

/-! ## Expressions -/

mutual

inductive Expr where
  | mk (first : Unary) (rest : Rest)

/-- The operators and operands after the first operand. -/
inductive Rest where
  | done
  | more (op : String) (operand : Unary) (rest : Rest)

inductive Unary where
  | prefixed (op : String) (operand : Unary)
  | atom (a : Atom)

inductive Atom where
  | int (n : Nat)
  | char (c : Char)
  | str (s : String)
  | bool (b : Bool)
  | emptyList
  | paren (e : Expr)
  | pair (a b : Expr)
  | call (name : String) (args : Args)
  | var (v : Var)

inductive Args where
  | none
  | some (first : Expr) (rest : MoreArgs)

/-- The arguments after the first. -/
inductive MoreArgs where
  | done
  | more (e : Expr) (rest : MoreArgs)

end

mutual

def Expr.kinds : Expr → List Kind
  | .mk first rest => first.kinds ++ rest.kinds

def Rest.kinds : Rest → List Kind
  | .done => []
  | .more op operand rest => .op op :: (operand.kinds ++ rest.kinds)

def Unary.kinds : Unary → List Kind
  | .prefixed op operand => .op op :: operand.kinds
  | .atom a => a.kinds

def Atom.kinds : Atom → List Kind
  | .int n => [.int n]
  | .char c => [.char c]
  | .str s => [.str s]
  | .bool b => [.bool b]
  | .emptyList => [.mark .lbracket, .mark .rbracket]
  | .paren e => .mark .lparen :: (e.kinds ++ [.mark .rparen])
  | .pair a b => .mark .lparen :: (a.kinds ++ .mark .comma :: (b.kinds ++ [.mark .rparen]))
  | .call name args => .ident name :: .mark .lparen :: (args.kinds ++ [.mark .rparen])
  | .var v => v.kinds

def Args.kinds : Args → List Kind
  | .none => []
  | .some first rest => first.kinds ++ rest.kinds

def MoreArgs.kinds : MoreArgs → List Kind
  | .done => []
  | .more e rest => .mark .comma :: (e.kinds ++ rest.kinds)

end

/-- A single operand is the expression itself; more are a sequence whose grouping is left open. -/
def sequence (e : SplFrontend.Expr) : List (OpUse × SplFrontend.Expr) → SplFrontend.Expr
  | [] => e
  | os => .flat e os .nowhere

mutual

def Expr.tree : Expr → SplFrontend.Expr
  | .mk first rest => sequence first.tree rest.tree

def Rest.tree : Rest → List (OpUse × SplFrontend.Expr)
  | .done => []
  | .more op operand rest => (⟨op, .nowhere⟩, operand.tree) :: rest.tree

def Unary.tree : Unary → SplFrontend.Expr
  | .prefixed op operand => .call .prefixOp op [operand.tree] .nowhere
  | .atom a => a.tree

def Atom.tree : Atom → SplFrontend.Expr
  | .int n => .int n .nowhere
  | .char c => .char c .nowhere
  | .str s => .str s .nowhere
  | .bool b => .bool b .nowhere
  | .emptyList => .emptyList none .nowhere
  | .paren e => e.tree
  | .pair a b => .pair a.tree b.tree .nowhere
  | .call name args => .call .function name args.tree .nowhere
  | .var v => .var v.tree

def Args.tree : Args → List SplFrontend.Expr
  | .none => []
  | .some first rest => first.tree :: rest.tree

def MoreArgs.tree : MoreArgs → List SplFrontend.Expr
  | .done => []
  | .more e rest => e.tree :: rest.tree

end

/-! ## Statements -/

inductive VarDecl where
  | untyped (name : String) (init : Expr)
  | typed (ty : Ty) (name : String) (init : Expr)

namespace VarDecl

def kinds : VarDecl → List Kind
  | untyped name init =>
    .keyword .kwVar :: .ident name :: .mark .assign :: (init.kinds ++ [.mark .semicolon])
  | typed ty name init =>
    ty.kinds ++ .ident name :: .mark .assign :: (init.kinds ++ [.mark .semicolon])

def tree : VarDecl → SplFrontend.VarDecl
  | untyped name init => ⟨name, none, init.tree, .nowhere⟩
  | typed ty name init => ⟨name, some ty.tree, init.tree, .nowhere⟩

end VarDecl

mutual

inductive Stmt where
  | decl (d : VarDecl)
  | cond (guard : Expr) (body : Body) (elifs : Elifs) (otherwise : Else)
  | loop (guard : Expr) (body : Body)
  | each (v : Var) (e : Expr) (body : Body)
  | assign (v : Var) (e : Expr)
  | call (name : String) (args : Args)
  | ret (e : Expr)
  | retNone
  | brk
  | cont

/-- The statements between the braces of a block. -/
inductive Body where
  | done
  | more (s : Stmt) (rest : Body)

inductive Elifs where
  | done
  | more (guard : Expr) (body : Body) (rest : Elifs)

inductive Else where
  | none
  | some (body : Body)

end

/-- A condition and the opening of the block after it. -/
def guardKinds (e : Expr) : List Kind :=
  .mark .lparen :: (e.kinds ++ [.mark .rparen, .mark .lbrace])

mutual

def Stmt.kinds : Stmt → List Kind
  | .decl d => d.kinds
  | .cond guard body elifs otherwise =>
    .keyword .kwIf ::
      (guardKinds guard ++ (body.kinds ++ .mark .rbrace :: (elifs.kinds ++ otherwise.kinds)))
  | .loop guard body => .keyword .kwWhile :: (guardKinds guard ++ (body.kinds ++ [.mark .rbrace]))
  | .each v e body =>
    .keyword .kwFor :: .mark .lparen :: (v.kinds ++ .keyword .kwIn :: (e.kinds ++
      .mark .rparen :: .mark .lbrace :: (body.kinds ++ [.mark .rbrace])))
  | .assign v e => v.kinds ++ .mark .assign :: (e.kinds ++ [.mark .semicolon])
  | .call name args =>
    .ident name :: .mark .lparen :: (args.kinds ++ [.mark .rparen, .mark .semicolon])
  | .ret e => .keyword .kwReturn :: (e.kinds ++ [.mark .semicolon])
  | .retNone => [.keyword .kwReturn, .mark .semicolon]
  | .brk => [.keyword .kwBreak, .mark .semicolon]
  | .cont => [.keyword .kwContinue, .mark .semicolon]

def Body.kinds : Body → List Kind
  | .done => []
  | .more s rest => s.kinds ++ rest.kinds

def Elifs.kinds : Elifs → List Kind
  | .done => []
  | .more guard body rest =>
    .keyword .kwElif :: (guardKinds guard ++ (body.kinds ++ .mark .rbrace :: rest.kinds))

def Else.kinds : Else → List Kind
  | .none => []
  | .some body => .keyword .kwElse :: .mark .lbrace :: (body.kinds ++ [.mark .rbrace])

end

mutual

def Stmt.tree : Stmt → SplFrontend.Stmt
  | .decl d => .decl d.tree
  | .cond guard body elifs otherwise =>
    .cond (.mk guard.tree body.tree .nowhere :: elifs.tree) otherwise.tree .nowhere
  | .loop guard body => .loop guard.tree body.tree .nowhere
  | .each v e body => .each v.tree e.tree body.tree .nowhere
  | .assign v e => .assign v.tree e.tree .nowhere
  | .call name args => .expr (.call .function name args.tree .nowhere)
  | .ret e => .ret (some e.tree) .nowhere
  | .retNone => .ret none .nowhere
  | .brk => .brk .nowhere
  | .cont => .cont .nowhere

def Body.tree : Body → List SplFrontend.Stmt
  | .done => []
  | .more s rest => s.tree :: rest.tree

def Elifs.tree : Elifs → List Branch
  | .done => []
  | .more guard body rest => .mk guard.tree body.tree .nowhere :: rest.tree

def Else.tree : Else → Option (List SplFrontend.Stmt)
  | .none => none
  | .some body => some body.tree

end

/-! ## Programs -/

inductive ImportName where
  | plain (n : Name)
  | renamed (n a : Name)

namespace ImportName

def kinds : ImportName → List Kind
  | plain n => [n.kindOf]
  | renamed n a => [n.kindOf, .keyword .kwAs, a.kindOf]

def tree : ImportName → SplFrontend.ImportName
  | plain n => ⟨n, none, .nowhere⟩
  | renamed n a => ⟨n, some a, .nowhere⟩

end ImportName

inductive Import where
  | all (module : String)
  | names (module : String) (first : ImportName) (rest : List ImportName)

namespace Import

/-- The names after the first, up to the semicolon. -/
def restKinds (ns : List ImportName) : List Kind :=
  ns.flatMap (fun n => .mark .comma :: n.kinds) ++ [.mark .semicolon]

def kinds : Import → List Kind
  | all module => [.keyword .kwFrom, .ident module, .keyword .kwImportAll, .mark .semicolon]
  | names module first rest =>
    .keyword .kwFrom :: .ident module :: .keyword .kwImport :: (first.kinds ++ restKinds rest)

def tree : Import → SplFrontend.Import
  | all module => ⟨module, .all, .nowhere⟩
  | names module first rest => ⟨module, .names (first.tree :: rest.map ImportName.tree), .nowhere⟩

end Import

inductive Head where
  | function (name : String)
  | prefixOp (op : String)
  | infixOp (side : Assoc) (precedence : UInt8) (op : String)

namespace Head

def kinds : Head → List Kind
  | function name => [.ident name]
  | prefixOp op => [.keyword .kwPrefix, .op op]
  | infixOp side precedence op => [.keyword (Head.word side), .int precedence.toNat, .op op]

def name : Head → String
  | function name | prefixOp name | infixOp _ _ name => name

def tree : Head → SplFrontend.Head
  | function _ => .function
  | prefixOp _ => .prefixOp
  | infixOp side precedence _ => .infixOp ⟨side, precedence⟩

end Head

structure FnDecl where
  head : Head
  params : List String
  sig : Option Signature
  body : Body

namespace FnDecl

/-- The parameters, up to the closing parenthesis. -/
def paramKinds : List String → List Kind
  | [] => [.mark .rparen]
  | n :: ns => .ident n :: (ns.flatMap (fun m => [.mark .comma, .ident m]) ++ [.mark .rparen])

def sigKinds : Option Signature → List Kind
  | none => []
  | some s => .mark .doubleColon :: s.kinds

def kinds (f : FnDecl) : List Kind :=
  f.head.kinds ++ .mark .lparen :: (paramKinds f.params ++
    (sigKinds f.sig ++ .mark .lbrace :: (f.body.kinds ++ [.mark .rbrace])))

def tree (f : FnDecl) : FnDef :=
  ⟨f.head.tree, f.head.name, f.params.map fun n => ⟨n, .nowhere⟩, f.sig.map Signature.tree,
    f.body.tree, .nowhere⟩

end FnDecl

/-- An import line or a declaration. -/
inductive Decl where
  | imports (i : Import)
  | synonym (name : String) (ty : Ty)
  | global (d : VarDecl)
  | fn (f : FnDecl)

namespace Decl

def kinds : Decl → List Kind
  | imports i => i.kinds
  | synonym name ty =>
    .keyword .kwType :: .typeName name :: .mark .assign :: (ty.kinds ++ [.mark .semicolon])
  | global d => d.kinds
  | fn f => f.kinds

def import? : Decl → Option SplFrontend.Import
  | imports i => some i.tree
  | _ => none

def item? : Decl → Option Item
  | imports _ => none
  | synonym name ty => some (.synonym ⟨name, ty.tree, .nowhere⟩)
  | global d => some (.global d.tree)
  | fn f => some (.fn f.tree)

end Decl

abbrev Program := List Decl

namespace Program

def kinds (p : Program) : List Kind := p.flatMap Decl.kinds

/-- Import lines may stand between declarations. -/
def tree (p : Program) : SplFrontend.Program := ⟨p.filterMap Decl.import?, p.filterMap Decl.item?⟩

end Program

end Phrase

end SplFrontend
