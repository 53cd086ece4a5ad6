import SplFrontend.Fault
import SplFrontend.Stmt.Rewriting
import SplFrontend.Symbols

/-!
# Scoping

The pass that tags every variable with what it refers to. In a function, a name is a variable
declared before in the body, in whatever block; else a parameter; else a global of the module; else
an imported global. The initializer of a global sees only the globals declared before it, and the
imported ones. What is tagged already stays as it is.
-/

namespace SplFrontend.Scoping

/-- A global that is imported under a name. -/
def importedRef (externals : ExternalTable) (name : String) : Option Ref :=
  (externals.globals.lookup name).map fun e => .imported e.module name e.exported

/-- What a name refers to in a function, after some declarations of its body. -/
def inFunction (t : ModuleTable) (externals : ExternalTable) (args locals : Scope) (name : String) :
    Option Ref :=
  if (locals.lookup name).isSome then some (.localVar name)
  else if (args.lookup name).isSome then some (.argument name)
  else if (t.globals.lookup name).isSome then some (.own name)
  else importedRef externals name

/-- What a name refers to in the initializer of a global that has `limit` globals before it. -/
def inGlobal (t : ModuleTable) (externals : ExternalTable) (limit : Nat) (name : String) :
    Option Ref :=
  if (t.globalIndex name).any (· < limit) then some (.own name) else importedRef externals name

/-- Tags a variable that has no tag yet. -/
def tag (lookup : String → Option Ref) (missing : String → Fault) (v : Variable) :
    Noted Variable :=
  match v.ref with
  | .unresolved name =>
    match lookup name with
    | some ref => pure { v with ref }
    | none => do
      Noted.note ((missing name).report v.loc)
      return v
  | _ => pure v

mutual

/-- Tags the variables of an expression. -/
def expr (f : Variable → Noted Variable) : Expr → Noted Expr
  | .var v => do return .var (← f v)
  | .pair a b l => do
    let a ← expr f a
    let b ← expr f b
    return .pair a b l
  | .flat e rest l => do
    let e ← expr f e
    let rest ← operands f rest
    return .flat e rest l
  | .call k n as l => do return .call k n (← exprs f as) l
  | .bound b as l => do return .bound b (← exprs f as) l
  | .int n l => pure (.int n l)
  | .char c l => pure (.char c l)
  | .bool b l => pure (.bool b l)
  | .str s l => pure (.str s l)
  | .emptyList t l => pure (.emptyList t l)

/-- Tags the variables of expressions. -/
def exprs (f : Variable → Noted Variable) : List Expr → Noted (List Expr)
  | [] => pure []
  | e :: es => do
    let e ← expr f e
    let es ← exprs f es
    return e :: es

/-- Tags the variables of the operands in a flat sequence. -/
def operands (f : Variable → Noted Variable) : List (OpUse × Expr) → Noted (List (OpUse × Expr))
  | [] => pure []
  | (op, e) :: rest => do
    let e ← expr f e
    let rest ← operands f rest
    return (op, e) :: rest

end

/-- Declares a variable of a body. One without a type is passed over, one that is declared already
is refused, and one that hides another name is reported. -/
def declare (t : ModuleTable) (externals : ExternalTable) (args locals : Scope) (d : VarDecl) :
    Noted Scope :=
  match d.ty, locals.lookup d.name with
  | none, _ => pure locals
  | some _, some first => do
    Noted.note ((Fault.localTwice d.name).report d.loc [first.loc])
    return locals
  | some ty, none => do
    match args.lookup d.name, t.globals.lookup d.name, externals.globals.lookup d.name with
    | some arg, _, _ => Noted.note ((Fault.shadowsArg d.name).report d.loc [arg.loc])
    | none, some g, _ => Noted.note ((Fault.shadowsGlobal d.name).report d.loc [g.loc])
    | none, none, some e => Noted.note ((Fault.shadowsImported d.name e.module).report d.loc)
    | none, none, none => pure ()
    return locals ++ [(d.name, ⟨ty, d.loc⟩)]

/-- Tags a variable in a body. -/
def bodyVar (t : ModuleTable) (externals : ExternalTable) (args : Scope) (v : Variable) :
    StateT Scope Noted Variable := do
  let locals ← get
  tag (inFunction t externals args locals) .undefinedVar v

/-- Tags the variables of an expression in a body. -/
def bodyExpr (t : ModuleTable) (externals : ExternalTable) (args : Scope) (e : Expr) :
    StateT Scope Noted Expr := do
  let locals ← get
  expr (tag (inFunction t externals args locals) .undefinedVar) e

/-- The pass over a body, which carries the variables declared so far. A declaration counts from its
end on, so its own initializer does not see it. -/
def body (t : ModuleTable) (externals : ExternalTable) (args : Scope) :
    Rewriter (StateT Scope Noted) where
  decl d := do
    let init ← bodyExpr t externals args d.init
    let locals ← get
    let locals ← declare t externals args locals d
    set locals
    return { d with init }
  assign v e := do
    let v ← bodyVar t externals args v
    let e ← bodyExpr t externals args e
    return (v, e)
  guard := bodyExpr t externals args
  each v e := do
    let v ← bodyVar t externals args v
    let e ← bodyExpr t externals args e
    return (v, e)
  ret _ e :=
    match e with
    | some e => do return some (← bodyExpr t externals args e)
    | none => pure none
  call := bodyExpr t externals args

/-- Tags the variables of a global's initializer. The declaration that the table holds is reported
if it hides an imported global. -/
def global (t : ModuleTable) (externals : ExternalTable) (d : VarDecl) : Noted VarDecl := do
  let limit := (t.globalIndex d.name).getD t.globals.length
  if (t.globals.lookup d.name).any fun e => e.loc = d.loc then
    if let some e := externals.globals.lookup d.name then
      Noted.note ((Fault.globalShadows d.name e.exported e.module).report d.loc)
  let init ← expr (tag (inGlobal t externals limit) .undefinedGlobal) d.init
  return { d with init }

/-- Tags the variables of the items from some place of the program on. A callable without an
overload is passed over; for the others the table receives the variables of the body. -/
def items (externals : ExternalTable) :
    Nat → List Item → ModuleTable → Noted (List Item × ModuleTable)
  | _, [], t => pure ([], t)
  | i, .synonym s :: rest, t => do
    let (rest, t) ← items externals (i + 1) rest t
    return (.synonym s :: rest, t)
  | i, .global d :: rest, t => do
    let d ← global t externals d
    let (rest, t) ← items externals (i + 1) rest t
    return (.global d :: rest, t)
  | i, .fn f :: rest, t =>
    match t.overloadForItem i with
    | none => do
      let (rest, t) ← items externals (i + 1) rest t
      return (.fn f :: rest, t)
    | some o => do
      let (stmts, locals) ← (Stmt.rewriteAll (body t externals o.args) f.body).run []
      let (rest, t) ← items externals (i + 1) rest (t.setLocals i locals)
      return (.fn { f with body := stmts } :: rest, t)

/-- Tags the variables of a program. -/
def resolve (externals : ExternalTable) (p : Program) (t : ModuleTable) :
    Noted (Program × ModuleTable) := do
  let (items, t) ← items externals 0 p.items t
  return ({ p with items }, t)

end SplFrontend.Scoping
