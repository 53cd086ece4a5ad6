import SplFrontend.Stmt.Rewriting
import SplFrontend.Symbols
import SplFrontend.Ty.Expansion
import SplFrontend.Header.Normal

/-!
# Type annotations

The first pass over a module declares its synonyms and expands every annotation in it, so that the
later passes compare types as they are. `Void` is refused anywhere but as the result of a callable,
and so is a missing annotation. A definition is expanded by what the module wrote, not by what the
pass has made of it, so the order of synonyms does not matter.
-/

namespace SplFrontend.Annotations

/-- Declares the synonyms of a module. A name that is imported, or declared before, is refused. -/
def declare (externals : ExternalTable) : List Item → ModuleTable → Noted ModuleTable
  | [], t => pure t
  | .synonym s :: items, t =>
    match externals.synonyms.lookup s.name with
    | some held => do
      Noted.note ((Fault.ownSynonymClash s.name held.exported held.module).report s.loc)
      declare externals items t
    | none =>
      match t.declareSynonym s.name ⟨s.ty, s.loc⟩ with
      | .ok t => declare externals items t
      | .error first => do
        Noted.note ((Fault.synonymTwice s.name).report s.loc [first])
        declare externals items t
  | _ :: items, t => declare externals items t

/-- The definitions that annotations are expanded by: those of the module, then imported ones. -/
def synonymDefs (t : ModuleTable) (externals : ExternalTable) : Synonyms :=
  t.synonyms.map (fun (name, e) => (name, ⟨e.ty, false⟩)) ++ externals.synonymDefs

/-- Does the table hold this very declaration? -/
def declares (t : ModuleTable) (s : Synonym) : Bool :=
  (t.synonyms.lookup s.name).any fun e => e.loc = s.loc

/-- Expands a synonym, if it is the declaration that the table holds. -/
def synonym (t : ModuleTable) (env : Synonyms) (s : Synonym) : Noted Synonym :=
  if declares t s then
    match env.expansion s.name with
    | .ok ty => do
      if ty.hasVoid then Noted.note ((Fault.synonymVoid s.name).report s.loc)
      return { s with ty }
    | .error why => do
      Noted.note ((Fault.expansion why).report s.loc)
      return s
  else pure s

/-- The type of a synonym's entry once the synonyms are expanded. -/
def entry (env : Synonyms) (items : List Item) (name : String) (e : Entry) : Entry :=
  let declared := items.any fun
    | .synonym s => s.name = name && s.loc = e.loc
    | _ => false
  match declared, env.expansion name with
  | true, .ok ty => { e with ty }
  | _, _ => e

/-- Expands an annotation. A cyclic synonym is not reported here, since it is at its declaration. -/
def expandTy (env : Synonyms) (loc : Loc) (ty : Ty) : Noted (Option Ty) :=
  match ty.expand env with
  | .ok ty => pure (some ty)
  | .error (.undefined name) => do
    Noted.note ((Fault.expansion (.undefined name)).report loc)
    return none
  | .error (.cycle ..) => pure none

/-- Expands the type of a declaration, which must be there and free of `Void`. -/
def decl (env : Synonyms) (untyped void : String → Fault) (d : VarDecl) : Noted VarDecl :=
  match d.ty with
  | none => do
    Noted.note ((untyped d.name).report d.loc)
    return d
  | some ty => do
    match ← expandTy env d.loc ty with
    | none => return d
    | some ty =>
      if ty.hasVoid then Noted.note ((void d.name).report d.loc)
      return { d with ty := some ty }

/-- Reports every parameter that has the name of an earlier one. -/
def distinctParams (f : FnDef) : List Param → List Param → Noted Unit
  | _, [] => pure ()
  | earlier, p :: ps => do
    if let some first := earlier.find? (·.name = p.name) then
      Noted.note ((Fault.paramTwice p.name f.name).report p.loc [first.loc])
    distinctParams f (earlier ++ [p]) ps

/-- Expands the types of the parameters, each of which must be free of `Void`. -/
def params (env : Synonyms) (f : FnDef) : List Param → List Ty → Noted (List Ty)
  | _, [] => pure []
  | ps, ty :: tys => do
    let ty := (← expandTy env f.loc ty).getD ty
    if ty.hasVoid then
      Noted.note ((Fault.paramVoid ((ps.head?.map Param.name).getD "?") f.name).report f.loc)
    return ty :: (← params env f ps.tail tys)

/-- Expands a signature, which must list as many parameters as the callable has. -/
def signature (env : Synonyms) (f : FnDef) (s : Signature) : Noted Signature := do
  if s.params.length ≠ f.params.length then
    Noted.note ((Fault.arity f.name f.params.length s.params.length).report f.loc)
  let tys ← params env f f.params s.params
  let result := (← expandTy env f.loc s.result).getD s.result
  if !result.isVoid && result.hasVoid then
    Noted.note ((Fault.resultVoid f.name).report f.loc)
  return ⟨tys, result⟩

/-- Reports an operator with the wrong number of parameters. -/
def operatorArity (f : FnDef) : Noted Unit :=
  match f.kind.arity? with
  | some n => do
    if n ≠ f.params.length then
      Noted.note ((Fault.operatorArity f.kind f.name n f.params.length).report f.loc)
  | none => pure ()

/-- Expands the types of the variables that a body declares. -/
def locals (env : Synonyms) : Rewriter Noted :=
  { Rewriter.id Noted with decl := decl env .localUntyped .localVoid }

/-- Expands the annotations of a callable. -/
def callable (env : Synonyms) (f : FnDef) : Noted FnDef := do
  distinctParams f [] f.params
  operatorArity f
  let sig ← match f.sig with
    | some s => do pure (some (← signature env f s))
    | none => do
      Noted.note ((Fault.unsigned f.kind f.name).report f.loc)
      pure none
  let body ← Stmt.rewriteAll (locals env) f.body
  return { f with sig, body }

/-- Expands the annotations of an item. -/
def item (t : ModuleTable) (env : Synonyms) : Item → Noted Item
  | .synonym s => do return .synonym (← synonym t env s)
  | .global d => do return .global (← decl env .globalUntyped .globalVoid d)
  | .fn f => do return .fn (← callable env f)

/-- Declares the synonyms of a module and expands its annotations. -/
def normalise (externals : ExternalTable) (p : Program) (t : ModuleTable) :
    Noted (Program × ModuleTable) := do
  let t ← declare externals p.items t
  let env := synonymDefs t externals
  let items ← p.items.mapM (item t env)
  let synonyms := t.synonyms.map fun (name, e) => (name, entry env p.items name e)
  return ({ p with items }, { t with synonyms })

end SplFrontend.Annotations
