import SplFrontend.Fault
import SplFrontend.Stmt.Rewriting
import SplFrontend.Symbols.Visible

/-!
# Precedence

The pass that groups flat sequences of operands and infix operators into trees of infix calls, by
the fixities of the operators. A sequence with an operator that nothing defines is reported and
stays flat. Prefix operators are grouped already; here they are only checked to exist.
-/

namespace SplFrontend.Precedence

/-- An infix operator with its fixity and the operand to its right. -/
structure Operation where
  op : OpUse
  fixity : Fixity
  operand : Expr

/-- The call of an infix operator. -/
def Operation.apply (o : Operation) (left right : Expr) : Expr :=
  .call .infixOp o.op.name [left, right] o.op.loc

/-- A tree, and the operations that do not belong to it. -/
structure Climbed (n : Nat) where
  tree : Expr
  rest : List Operation
  le : rest.length ≤ n

/-- Takes operations for as long as their precedence is at least `least`. The right operand of each
takes first what binds tighter than the operator itself. -/
def climb (least : Nat) (left : Expr) : (os : List Operation) → Climbed os.length
  | [] => ⟨left, [], Nat.le_refl _⟩
  | o :: os =>
    if least ≤ o.fixity.precedence.toNat then
      let right := climb o.fixity.next o.operand os
      let whole := climb least (o.apply left right.tree) right.rest
      ⟨whole.tree, whole.rest, Nat.le_succ_of_le (Nat.le_trans whole.le right.le)⟩
    else ⟨left, o :: os, Nat.le_refl _⟩
termination_by os => os.length
decreasing_by
  · exact Nat.lt_succ_self _
  · exact Nat.lt_succ_of_le right.le

/-- Groups a sequence by the fixities of its operators. -/
def grouped (first : Expr) (os : List Operation) : Expr := (climb 0 first os).tree

/-- Finds the fixity of every operator in a sequence. Each one that has none is reported. -/
def operations (v : Visible) : List (OpUse × Expr) → Noted (Option (List Operation))
  | [] => pure (some [])
  | (op, operand) :: rest =>
    match v.fixityOf op.name with
    | some fixity => do return (← operations v rest).map (⟨op, fixity, operand⟩ :: ·)
    | none => do
      Noted.note ((Fault.undefinedCallable .infixOp op.name).report op.loc)
      let _ ← operations v rest
      return none

/-- Reports a prefix operator that nothing defines. -/
def prefixDefined (v : Visible) (name : String) (loc : Loc) : Noted Unit := do
  if (v.candidates .prefixOp name).isEmpty then
    Noted.note ((Fault.undefinedCallable .prefixOp name).report loc)

mutual

/-- Groups the sequences of an expression, inner ones first. -/
def expr (v : Visible) : Expr → Noted Expr
  | .flat e rest l => do
    let e ← expr v e
    let rest ← operands v rest
    match ← operations v rest with
    | some os => return grouped e os
    | none => return .flat e rest l
  | .call k n as l => do
    if k = .prefixOp then prefixDefined v n l
    return .call k n (← exprs v as) l
  | .bound b as l => do return .bound b (← exprs v as) l
  | .pair a b l => do
    let a ← expr v a
    let b ← expr v b
    return .pair a b l
  | .int n l => pure (.int n l)
  | .char c l => pure (.char c l)
  | .bool b l => pure (.bool b l)
  | .str s l => pure (.str s l)
  | .emptyList t l => pure (.emptyList t l)
  | .var x => pure (.var x)

/-- Groups the sequences of expressions. -/
def exprs (v : Visible) : List Expr → Noted (List Expr)
  | [] => pure []
  | e :: es => do
    let e ← expr v e
    let es ← exprs v es
    return e :: es

/-- Groups the sequences inside the operands of a sequence. -/
def operands (v : Visible) : List (OpUse × Expr) → Noted (List (OpUse × Expr))
  | [] => pure []
  | (op, e) :: rest => do
    let e ← expr v e
    let rest ← operands v rest
    return (op, e) :: rest

end

/-- The pass over a body. -/
def body (v : Visible) : Rewriter Noted where
  decl d := do return { d with init := ← expr v d.init }
  assign x e := do return (x, ← expr v e)
  guard := expr v
  each x e := do return (x, ← expr v e)
  ret _ e :=
    match e with
    | some e => do return some (← expr v e)
    | none => pure none
  call := expr v

/-- Groups the sequences of an item. -/
def item (v : Visible) : Item → Noted Item
  | .synonym s => pure (.synonym s)
  | .global d => do return .global { d with init := ← expr v d.init }
  | .fn f => do return .fn { f with body := ← Stmt.rewriteAll (body v) f.body }

/-- Groups the sequences of a program. -/
def resolve (v : Visible) (p : Program) : Noted Program := do
  return { p with items := ← p.items.mapM (item v) }

end SplFrontend.Precedence
