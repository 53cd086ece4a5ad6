import SplFrontend.Builtins
import SplFrontend.Header.Document
import SplFrontend.Header.Normal

/-!
# Imports

The import lines of a module and the headers of the imported modules make one external table.
Modules are merged in the order of their first import, and the built-ins last, so that a clash with
a built-in is reported at the import that caused it.
-/

namespace SplFrontend

/-- Texts of headers by module. -/
abbrev HeaderTexts := List (String × String)

/-- The result of merging: the external table, and each imported module once. -/
structure Imported where
  externals : ExternalTable
  modules : List String

namespace Imports

/-- The state of merging: the table so far, and where each imported synonym or infix operator
entered it first. -/
structure Merge where
  table : ExternalTable := {}
  origins : List (String × Loc) := []

namespace Merge

/-- Remembers where a name entered the table, unless that is known. -/
def enter (m : Merge) (name : String) (loc : Loc) : Merge :=
  if (m.origins.lookup name).isSome then m else { m with origins := m.origins ++ [(name, loc)] }

/-- Where a name entered the table. -/
def origin (m : Merge) (name : String) : Loc := (m.origins.lookup name).getD .nowhere

/-- Adds a global variable. -/
def addGlobal (m : Merge) (loc : Loc) (name : String) (e : ExternalEntry) : Noted Merge :=
  match m.table.insertGlobal name e with
  | .ok table => pure { m with table }
  | .error held => do
    Noted.note ((Fault.globalClash name e.module held.exported held.module).report loc)
    return m

/-- Adds a type synonym. -/
def addSynonym (m : Merge) (loc : Loc) (name : String) (e : ExternalEntry) : Noted Merge :=
  match m.table.insertSynonym name e with
  | .ok table => pure ({ m with table }.enter name loc)
  | .error held => do
    Noted.note ((Fault.synonymClash name e.module held.exported held.module).report loc)
    return m

/-- The fixity that a name has in the table, if another one is given to it. -/
def otherFixity (m : Merge) (name : String) (fixity : Fixity) : Option Fixity :=
  (m.table.fixityOf name).filter (· ≠ fixity)

/-- Adds a callable. An infix operator is refused if its name has another fixity. -/
def addFunction (m : Merge) (loc : Loc) (module name : String) (f : HeaderFn) : Noted Merge :=
  let overload : ExternalOverload := ⟨f.sig, module, f.name, f.fixity, f.constant⟩
  let added (m : Merge) : Merge := { m with table := m.table.addOverload f.kind name overload }
  match f.kind,
    f.fixity.bind fun fixity => (m.otherFixity name fixity).map fun o => (fixity, o) with
  | .infixOp, some (fixity, other) => do
    Noted.note ((Fault.importFixity name module fixity other).report loc)
    return m
  | .infixOp, none => pure (added (m.enter name loc))
  | _, _ => pure (added m)

/-- Adds all that a header lists, under its own names. -/
def addAll (m : Merge) (loc : Loc) (h : Header) : Noted Merge := do
  let m ← h.globals.foldlM (fun m (name, ty) => m.addGlobal loc name ⟨h.module, name, ty⟩) m
  let m ← h.synonyms.foldlM (fun m (name, ty) => m.addSynonym loc name ⟨h.module, name, ty⟩) m
  h.functions.foldlM (fun m f => m.addFunction loc h.module f.name f) m

/-- Does a name of some class stand for a callable of some kind? -/
def brings : NameKind → CallKind → Bool
  | .ident, .function | .op, .prefixOp | .op, .infixOp => true
  | _, _ => false

/-- Adds what a header lists under one name. An identifier brings a global and functions, an
operator brings prefix and infix operators. The answer tells whether anything was found. -/
def addName (m : Merge) (loc : Loc) (h : Header) (name : Name) (asName : String) :
    Noted (Bool × Merge) := do
  let globals := if name.kind = .ident then h.globals.filter (·.1 = name.text) else []
  let synonyms := if name.kind = .typeName then h.synonyms.filter (·.1 = name.text) else []
  let functions := h.functions.filter fun f => f.name = name.text && brings name.kind f.kind
  let m ← globals.foldlM (fun m (n, ty) => m.addGlobal loc asName ⟨h.module, n, ty⟩) m
  let m ← synonyms.foldlM (fun m (n, ty) => m.addSynonym loc asName ⟨h.module, n, ty⟩) m
  let m ← functions.foldlM (fun m f => m.addFunction loc h.module asName f) m
  return (!(globals.isEmpty && synonyms.isEmpty && functions.isEmpty), m)

/-- Adds the names that the import lines of a module list. A name is skipped if it is renamed to
another class of name, or was listed before in the same way. -/
def addNames (h : Header) : List ImportName → List (Name × String × Loc) → Merge → Noted Merge
  | [], _, m => pure m
  | n :: ns, seen, m =>
    if n.effective.kind ≠ n.name.kind then do
      Noted.note ((Fault.aliasKind n.name n.effective).report n.loc)
      addNames h ns seen m
    else
      match seen.find? fun s => s.1 = n.name && s.2.1 = n.effective.text with
      | some (_, _, first) => do
        Noted.note ((Fault.importedTwice n.effective.text h.module).report n.loc [first])
        addNames h ns seen m
      | none => do
        let (found, m) ← m.addName n.loc h n.name n.effective.text
        unless found do
          Noted.note ((Fault.notExported h.module n.name.text).report n.loc)
        addNames h ns (seen ++ [(n.name, n.effective.text, n.loc)]) m

/-- The names that import lines list. -/
def listed (lines : List Import) : List ImportName :=
  lines.flatMap fun l =>
    match l.names with
    | .all => []
    | .names ns => ns

/-- Where a module is imported as a whole, if it is. -/
def wholeAt (lines : List Import) : Option Loc :=
  lines.findSome? fun l =>
    match l.names with
    | .all => some l.loc
    | .names _ => none

/-- Adds what the import lines of one module ask for. -/
def addModule (m : Merge) (h : Header) (lines : List Import) : Noted Merge := do
  let names := listed lines
  let m ← match wholeAt lines with
    | none => pure m
    | some whole => do
      if let some first := names.head? then
        Noted.note ((Fault.importedTwoWays h.module).report first.loc [whole])
      m.addAll whole h
  addNames h names [] m

/-- Adds a built-in synonym. -/
def addBuiltinSynonym (m : Merge) (name : String) (e : ExternalEntry) : Noted Merge :=
  match m.table.insertSynonym name e with
  | .ok table => pure { m with table }
  | .error held => do
    Noted.note ((Fault.builtinSynonymClash name held.module).report (m.origin name))
    return m

/-- Adds a built-in callable, unless its name was imported with another fixity. -/
def addBuiltinOverload (m : Merge) (kind : CallKind) (name : String) (o : ExternalOverload) :
    Noted Merge :=
  match o.fixity.bind fun fixity =>
    (m.otherFixity name fixity).map fun other => (fixity, other) with
  | some (fixity, other) => do
    Noted.note ((Fault.builtinFixity name other fixity).report (m.origin name))
    return m
  | none => pure { m with table := m.table.addOverload kind name o }

/-- Adds the built-ins. -/
def addBuiltins (m : Merge) (builtins : ExternalTable) : Noted Merge := do
  let m ← builtins.synonyms.foldlM (fun m (name, e) => m.addBuiltinSynonym name e) m
  builtins.functions.entries.foldlM (fun m (kind, name, o) => m.addBuiltinOverload kind name o) m

end Merge

/-- The imported modules, each once, in the order of their first import. -/
def modules (imports : List Import) : List String :=
  imports.foldl (fun ms i => if i.module ∈ ms then ms else ms ++ [i.module]) []

/-- The header of a module with its types expanded. The reports stand at the first import. -/
def header (texts : HeaderTexts) (builtins : ExternalTable) (module : String) (loc : Loc) :
    Noted (Option Header) :=
  match texts.lookup module with
  | none => do
    Noted.note ((Fault.noHeader module).report loc)
    return none
  | some text =>
    match Header.ofText text with
    | .error f => do
      Noted.note ((Fault.badHeader module f.message).report loc)
      return none
    | .ok h =>
      if h.module = module then do return some (← h.normal builtins loc)
      else do
        Noted.note ((Fault.wrongHeader module h.module).report loc)
        return none

/-- Merges what the import lines of one module ask for. -/
def mergeModule (texts : HeaderTexts) (builtins : ExternalTable) (imports : List Import)
    (m : Merge) (module : String) : Noted Merge := do
  let lines := imports.filter (·.module = module)
  match ← header texts builtins module ((lines.head?.map Import.loc).getD .nowhere) with
  | some h => m.addModule h lines
  | none => return m

/-- Merges all imports and the built-ins into one table. -/
def merge (texts : HeaderTexts) (builtins : ExternalTable) (imports : List Import) :
    Noted Imported := do
  let modules := modules imports
  let m ← modules.foldlM (mergeModule texts builtins imports) {}
  let m ← m.addBuiltins builtins
  return ⟨m.table, modules⟩

end Imports

end SplFrontend
