import SplFrontend.Expr

/-!
# Statements

The statements of a function body. A block is a list of statements.
-/

namespace SplFrontend

/-- A variable declaration, of a global or of a local. Written with `var` it has no type. -/
structure VarDecl where
  name : String
  ty : Option Ty
  init : Expr
  loc : Loc
deriving Repr

mutual

/-- Statements. -/
inductive Stmt where
  | decl (d : VarDecl)
  | assign (target : Variable) (value : Expr) (loc : Loc)
  /-- An `if` branch with the `elif` branches after it, and the `else` block, if there is one. -/
  | cond (branches : List Branch) (otherwise : Option (List Stmt)) (loc : Loc)
  | loop (guard : Expr) (body : List Stmt) (loc : Loc)
  | each (v : Variable) (iterable : Expr) (body : List Stmt) (loc : Loc)
  | ret (value : Option Expr) (loc : Loc)
  | brk (loc : Loc)
  | cont (loc : Loc)
  /-- A call for its effect. -/
  | expr (e : Expr)

/-- A condition and the block that it guards. -/
inductive Branch where
  | mk (guard : Expr) (body : List Stmt) (loc : Loc)

end

/-- Where the statement is reported. -/
def Stmt.loc : Stmt → Loc
  | decl d => d.loc
  | assign _ _ l | cond _ _ l | loop _ _ l | each _ _ _ l | ret _ l | brk l | cont l => l
  | expr e => e.loc

end SplFrontend
