import SplFrontend.Stmt

/-!
# Rewriting statements

Several passes walk a block in source order and rewrite the declarations, variables and expressions
in it, while the statements themselves stay. `Rewriter` says what such a pass does at each place,
and `Stmt.rewrite` walks: a condition before the block that it guards, a loop's head before its
body.
-/

namespace SplFrontend

/-- What a pass does at each place of a block. -/
structure Rewriter (m : Type → Type) where
  /-- A declaration. -/
  decl : VarDecl → m VarDecl
  /-- The target and the value of an assignment. -/
  assign : Variable → Expr → m (Variable × Expr)
  /-- A condition of a branch or a loop. -/
  guard : Expr → m Expr
  /-- The variable and the list of a loop over a list. -/
  each : Variable → Expr → m (Variable × Expr)
  /-- The value of a return statement, if there is one. -/
  ret : Loc → Option Expr → m (Option Expr)
  /-- A call for its effect. -/
  call : Expr → m Expr

/-- The rewriter that leaves everything as it is. -/
def Rewriter.id (m : Type → Type) [Monad m] : Rewriter m where
  decl := pure
  assign v e := pure (v, e)
  guard := pure
  each v e := pure (v, e)
  ret _ e := pure e
  call := pure

section

variable {m : Type → Type} [Monad m]

mutual

/-- Rewrites a statement. -/
def Stmt.rewrite (w : Rewriter m) : Stmt → m Stmt
  | .decl d => do return .decl (← w.decl d)
  | .assign v e l => do
    let (v, e) ← w.assign v e
    return .assign v e l
  | .cond branches none l => do
    let branches ← Branch.rewriteAll w branches
    return .cond branches none l
  | .cond branches (some body) l => do
    let branches ← Branch.rewriteAll w branches
    let body ← Stmt.rewriteAll w body
    return .cond branches (some body) l
  | .loop e body l => do
    let e ← w.guard e
    let body ← Stmt.rewriteAll w body
    return .loop e body l
  | .each v e body l => do
    let (v, e) ← w.each v e
    let body ← Stmt.rewriteAll w body
    return .each v e body l
  | .ret e l => do return .ret (← w.ret l e) l
  | .brk l => pure (.brk l)
  | .cont l => pure (.cont l)
  | .expr e => do return .expr (← w.call e)

/-- Rewrites a block. -/
def Stmt.rewriteAll (w : Rewriter m) : List Stmt → m (List Stmt)
  | [] => pure []
  | s :: ss => do
    let s ← Stmt.rewrite w s
    let ss ← Stmt.rewriteAll w ss
    return s :: ss

/-- Rewrites branches in order. -/
def Branch.rewriteAll (w : Rewriter m) : List Branch → m (List Branch)
  | [] => pure []
  | .mk e body l :: bs => do
    let e ← w.guard e
    let body ← Stmt.rewriteAll w body
    let bs ← Branch.rewriteAll w bs
    return .mk e body l :: bs

end

end

end SplFrontend
