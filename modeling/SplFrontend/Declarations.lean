import SplFrontend.Fault
import SplFrontend.Symbols

/-!
# Declarations

The pass that fills the module's table with its globals and callables, and checks that every infix
operator has one fixity, here and where it is imported from.
-/

namespace SplFrontend.Declarations

/-- The scope of the parameters. Of two with one name the first counts. -/
def argScope : Scope → List Param → List Ty → Scope
  | scope, p :: ps, ty :: tys =>
    argScope (if (scope.lookup p.name).isSome then scope
      else scope ++ [(p.name, ⟨ty, p.loc⟩)]) ps tys
  | scope, _, _ => scope

/-- Declares a global variable. One without a type is passed over. -/
def global (t : ModuleTable) (d : VarDecl) : Noted ModuleTable :=
  match d.ty with
  | none => pure t
  | some ty =>
    match t.declareGlobal d.name ⟨ty, d.loc⟩ with
    | .ok t => pure t
    | .error first => do
      Noted.note ((Fault.globalTwice d.name).report d.loc [first])
      return t

/-- Declares a callable. One whose signature is missing, or does not fit its parameters, is passed
over. -/
def callable (t : ModuleTable) (index : Nat) (f : FnDef) : Noted ModuleTable :=
  match f.sig with
  | none => pure t
  | some sig =>
    if sig.params.length ≠ f.params.length then pure t
    else
      let overload : LocalOverload :=
        ⟨sig, f.loc, index, f.head.fixity?, argScope [] f.params sig.params, []⟩
      match t.addOverload f.kind f.name overload with
      | .ok (_, t) => pure t
      | .error i => do
        let first := ((t.overloads f.kind f.name)[i]?.map LocalOverload.loc).toList
        Noted.note ((Fault.overloadTwice f.kind f.name sig).report f.loc first)
        return t

/-- Declares the items from some place of the program on. -/
def items : Nat → List Item → ModuleTable → Noted ModuleTable
  | _, [], t => pure t
  | i, .synonym _ :: rest, t => items (i + 1) rest t
  | i, .global d :: rest, t => do items (i + 1) rest (← global t d)
  | i, .fn f :: rest, t => do items (i + 1) rest (← callable t i f)

/-- Reports every infix operator whose fixity differs from an imported one, or else from that of its
first definition. -/
def fixities (externals : ExternalTable) : List (String × Fixity × Loc) → List Item → Noted Unit
  | _, [] => pure ()
  | seen, .fn ⟨.infixOp fixity, name, _, _, _, loc⟩ :: rest =>
    match (externals.fixityOf name).filter (· ≠ fixity) with
    | some imported => do
      Noted.note ((Fault.ownFixityImported name fixity imported).report loc)
      fixities externals seen rest
    | none =>
      match seen.lookup name with
      | none => fixities externals (seen ++ [(name, fixity, loc)]) rest
      | some (first, firstLoc) => do
        if first ≠ fixity then
          Noted.note ((Fault.ownFixity name fixity first).report loc [firstLoc])
        fixities externals seen rest
  | seen, _ :: rest => fixities externals seen rest

/-- Fills the table of a module. -/
def collect (externals : ExternalTable) (p : Program) (t : ModuleTable) : Noted ModuleTable := do
  let t ← items 0 p.items t
  fixities externals [] p.items
  return t

end SplFrontend.Declarations
