import SplFrontend.Fault

/-!
# Control flow

The analysis of paths through a body: does every path return, does any; is a statement cut off by
one before it; does a `break` or `continue` stand outside of all loops. Conditions are not looked
at, and a loop may run no time at all. A block reports its first unreachable statement only.
-/

namespace SplFrontend.Flow

/-- What is known of the returns in some statements. -/
structure Returns where
  /-- Every path through them returns. -/
  certain : Bool
  /-- Some statement among them returns. -/
  exist : Bool
deriving DecidableEq, Repr

/-- Statements that do not return. -/
def Returns.none : Returns := ⟨false, false⟩

/-- How far the walk through a block has come. -/
inductive Reach where
  /-- The next statement can be reached. -/
  | live
  /-- The statement before cuts off the next one, which is not reported yet. -/
  | cut (c : Cut)
  /-- The block's unreachable statements have been reported. -/
  | dead
deriving DecidableEq, Repr

/-- Where the walk stands after a statement that cuts off what follows it, or does not. -/
def Reach.after : Reach → Option Cut → Reach
  | live, some c => cut c
  | live, none => live
  | _, _ => dead

/-- The report that the next statement is due. -/
def Reach.report (loc : Loc) : Reach → Noted Unit
  | cut c => Noted.note ((Fault.unreachable c).report loc)
  | _ => pure ()

mutual

/-- Analyses a statement. The second answer is how it cuts off what follows it in its block. -/
def stmt (inLoop : Bool) : Stmt → Noted (Returns × Option Cut)
  | .ret _ _ => pure (⟨true, true⟩, some .ret)
  | .brk l => do
    if !inLoop then Noted.note (Fault.strayBreak.report l)
    return (.none, some .leaveLoop)
  | .cont l => do
    if !inLoop then Noted.note (Fault.strayContinue.report l)
    return (.none, some .leaveLoop)
  | .cond bs none _ => do
    let r ← branches inLoop bs
    return (⟨false, r.exist⟩, none)
  | .cond bs (some body) _ => do
    let r ← branches inLoop bs
    let s ← block inLoop .live body
    let certain := r.certain && s.certain
    return (⟨certain, r.exist || s.exist⟩, if certain then some .branches else none)
  | .loop _ body _ | .each _ _ body _ => do
    let r ← block true .live body
    return (⟨false, r.exist⟩, none)
  | .decl _ | .assign .. | .expr _ => pure (.none, none)

/-- Analyses the rest of a block. -/
def block (inLoop : Bool) (reach : Reach) : List Stmt → Noted Returns
  | [] => pure .none
  | s :: ss => do
    reach.report s.loc
    let (r, cut) ← stmt inLoop s
    let rest ← block inLoop (reach.after cut) ss
    return ⟨(reach = .live && r.certain) || rest.certain, r.exist || rest.exist⟩

/-- Analyses branches: a return is certain if it is in all of them. -/
def branches (inLoop : Bool) : List Branch → Noted Returns
  | [] => pure ⟨true, false⟩
  | .mk _ body _ :: bs => do
    let r ← block inLoop .live body
    let rest ← branches inLoop bs
    return ⟨r.certain && rest.certain, r.exist || rest.exist⟩

end

/-- Analyses a body. -/
def body (stmts : List Stmt) : Noted Returns := block false .live stmts

/-- Analyses a callable. One that has a value must return on every path. -/
def callable (f : FnDef) : Noted Unit := do
  let r ← body f.body
  if f.sig.any Signature.returnsValue && !r.certain then
    Noted.note ((Fault.notAllReturn f.name).report f.loc)

/-- Analyses the callables of a program. -/
def program (p : Program) : Noted Unit :=
  p.items.forM fun
    | .fn f => callable f
    | _ => pure ()

end SplFrontend.Flow
