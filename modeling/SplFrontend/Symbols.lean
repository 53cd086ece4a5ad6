import SplFrontend.Ty
import SplFrontend.Fixity
import SplFrontend.Loc

/-!
# Symbol tables

A `ModuleTable` holds what the module at hand declares, an `ExternalTable` what it imports together
with the built-ins. Both are lists of entries in order of insertion, under names that occur once.
Callables are overloaded: one kind and name stands for a list of overloads, and an overload keeps
its place in that list for good, so that a place can stand for it. Nothing is ever replaced or taken
away: an insertion either adds an entry or is refused with what stands in its way.

Each table has its own type of overloads, so that the table of the module holds no overload from
elsewhere and the table of imported names none of the module. No pass inserts the other kind.
`RawTable` admits both, for what holds of insertions of any origin.
-/

namespace SplFrontend

/-- A declared variable or synonym: its type and where it is declared. -/
structure Entry where
  ty : Ty
  loc : Loc
deriving DecidableEq, Repr

/-- Declared names in order of declaration. -/
abbrev Scope := List (String × Entry)

/-- Overload sets by kind and name, in order of first insertion. -/
abbrev Callables (α : Type) := List ((CallKind × String) × List α)

namespace Callables

variable {α : Type}

/-- The overloads of a name, none if the name is unknown. -/
def get (fs : Callables α) (kind : CallKind) (name : String) : List α :=
  (fs.lookup (kind, name)).getD []

/-- Adds an overload as the last one of its name. A new name comes last. -/
def add (kind : CallKind) (name : String) (o : α) : Callables α → Callables α
  | [] => [((kind, name), [o])]
  | (key, set) :: fs =>
    if key = (kind, name) then (key, set ++ [o]) :: fs else (key, set) :: add kind name o fs

/-- All overloads, name by name. -/
def all (fs : Callables α) : List α := fs.flatMap Prod.snd

/-- All overloads with their kind and name. -/
def entries (fs : Callables α) : List (CallKind × String × α) :=
  fs.flatMap fun ((kind, name), set) => set.map fun o => (kind, name, o)

/-- Changes the first overload that satisfies a test. -/
def updateFirst (p : α → Bool) (f : α → α) : Callables α → Callables α
  | [] => []
  | (key, set) :: fs =>
    match set.findIdx? p with
    | some i => (key, set.modify i f) :: fs
    | none => (key, set) :: updateFirst p f fs

end Callables

/-! ## The table of the module at hand -/

/-- A callable that the module defines. -/
structure LocalOverload where
  sig : Signature
  loc : Loc
  /-- The place of the definition among the items of the program. -/
  item : Nat
  fixity : Option Fixity
  args : Scope
  /-- The variables declared in the body. -/
  locals : Scope
deriving DecidableEq, Repr

/-- What a module declares. -/
structure ModuleTable where
  module : String
  globals : Scope := []
  synonyms : Scope := []
  functions : Callables LocalOverload := []
deriving DecidableEq, Repr

namespace ModuleTable

/-- Declares a global variable. Fails with the place of an earlier declaration. -/
def declareGlobal (t : ModuleTable) (name : String) (e : Entry) : Except Loc ModuleTable :=
  match t.globals.lookup name with
  | some earlier => .error earlier.loc
  | none => .ok { t with globals := t.globals ++ [(name, e)] }

/-- Declares a type synonym. Fails with the place of an earlier declaration. -/
def declareSynonym (t : ModuleTable) (name : String) (e : Entry) : Except Loc ModuleTable :=
  match t.synonyms.lookup name with
  | some earlier => .error earlier.loc
  | none => .ok { t with synonyms := t.synonyms ++ [(name, e)] }

/-- The overloads that the module defines for a name. -/
def overloads (t : ModuleTable) (kind : CallKind) (name : String) : List LocalOverload :=
  t.functions.get kind name

/-- Adds an overload and tells its place. Fails with the place of one that has the same
signature. -/
def addOverload (t : ModuleTable) (kind : CallKind) (name : String) (o : LocalOverload) :
    Except Nat (Nat × ModuleTable) :=
  let set := t.overloads kind name
  match set.findIdx? fun p => p.sig = o.sig with
  | some i => .error i
  | none => .ok (set.length, { t with functions := t.functions.add kind name o })

/-- The overload that an item of the program defines. -/
def overloadForItem (t : ModuleTable) (item : Nat) : Option LocalOverload :=
  t.functions.all.find? fun o => o.item = item

/-- Records the variables declared in the body of the overload that an item defines. -/
def setLocals (t : ModuleTable) (item : Nat) (locals : Scope) : ModuleTable :=
  { t with
    functions := t.functions.updateFirst (fun o => o.item = item) fun o => { o with locals } }

/-- The fixity that the module gives to an infix operator. -/
def fixityOf (t : ModuleTable) (op : String) : Option Fixity :=
  (t.overloads .infixOp op).findSome? LocalOverload.fixity

/-- The place of a global variable in the order of declaration. -/
def globalIndex (t : ModuleTable) (name : String) : Option Nat :=
  t.globals.findIdx? fun g => g.1 = name

end ModuleTable

/-! ## The table of imported names and built-ins -/

/-- A global variable or a synonym of another module. -/
structure ExternalEntry where
  module : String
  /-- The name in the module that defines it. -/
  exported : String
  ty : Ty
deriving DecidableEq, Repr

/-- A callable of another module or of the built-in library. -/
structure ExternalOverload where
  sig : Signature
  module : String
  /-- The name in the module that defines it. -/
  exported : String
  fixity : Option Fixity
  /-- May a global's initializer call it? -/
  constant : Bool
deriving DecidableEq, Repr

/-- What a module can use from elsewhere, under the names that it has here. -/
structure ExternalTable where
  globals : List (String × ExternalEntry) := []
  synonyms : List (String × ExternalEntry) := []
  functions : Callables ExternalOverload := []
deriving DecidableEq, Repr

/-- Inserts a global or a synonym. The same entity under the same name is inserted once; another one
is refused with what has the name. -/
def insertExternal (es : List (String × ExternalEntry)) (name : String) (e : ExternalEntry) :
    Except ExternalEntry (List (String × ExternalEntry)) :=
  match es.lookup name with
  | some held => if held.module = e.module ∧ held.exported = e.exported then .ok es else .error held
  | none => .ok (es ++ [(name, e)])

namespace ExternalTable

/-- Inserts a global variable; see `insertExternal`. -/
def insertGlobal (t : ExternalTable) (name : String) (e : ExternalEntry) :
    Except ExternalEntry ExternalTable :=
  (insertExternal t.globals name e).map fun globals => { t with globals }

/-- Inserts a type synonym; see `insertExternal`. -/
def insertSynonym (t : ExternalTable) (name : String) (e : ExternalEntry) :
    Except ExternalEntry ExternalTable :=
  (insertExternal t.synonyms name e).map fun synonyms => { t with synonyms }

/-- The overloads from elsewhere for a name. -/
def overloads (t : ExternalTable) (kind : CallKind) (name : String) : List ExternalOverload :=
  t.functions.get kind name

/-- Do two overloads stand for one callable? -/
def sameOverload (a b : ExternalOverload) : Bool :=
  a.sig = b.sig && a.module = b.module && a.exported = b.exported

/-- Is the callable known under the name? -/
def hasOverload (t : ExternalTable) (kind : CallKind) (name : String) (o : ExternalOverload) :
    Bool :=
  (t.overloads kind name).any fun p => sameOverload p o

/-- Adds an overload, unless the same callable is known under the name. -/
def addOverload (t : ExternalTable) (kind : CallKind) (name : String) (o : ExternalOverload) :
    ExternalTable :=
  if t.hasOverload kind name o then t else { t with functions := t.functions.add kind name o }

/-- The fixity that an infix operator has elsewhere. -/
def fixityOf (t : ExternalTable) (op : String) : Option Fixity :=
  (t.overloads .infixOp op).findSome? ExternalOverload.fixity

/-- The type that a synonym stands for. -/
def synonymType (t : ExternalTable) (name : String) : Option Ty :=
  (t.synonyms.lookup name).map ExternalEntry.ty

end ExternalTable

end SplFrontend
