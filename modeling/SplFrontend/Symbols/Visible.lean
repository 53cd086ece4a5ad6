import SplFrontend.Expr
import SplFrontend.Symbols

/-!
# What a module sees

The passes over function bodies look names up in two tables at once: what the module declares comes
first, what it imports second.
-/

namespace SplFrontend

/-- The tables that the names of a module are looked up in. -/
structure Visible where
  own : ModuleTable
  externals : ExternalTable

/-- An overload that a call may be bound to. -/
structure Candidate where
  /-- The place of the overload in the overload set of the table that owns it. -/
  index : Nat
  sig : Signature
  /-- The name in the module that defines it. -/
  exported : String
  /-- The module that defines it, or `none` for the module at hand. -/
  module : Option String
  /-- May a global's initializer call it? -/
  constant : Bool
deriving DecidableEq, Repr

namespace Candidate

/-- Is the overload defined by the module at hand? -/
def isLocal (c : Candidate) : Bool := c.module.isNone

/-- An overload of the module at hand, which knows it by the name that is written. -/
def ofLocal (name : String) (index : Nat) (o : LocalOverload) : Candidate :=
  ⟨index, o.sig, name, none, false⟩

/-- An overload from elsewhere. -/
def ofExternal (index : Nat) (o : ExternalOverload) : Candidate :=
  ⟨index, o.sig, o.exported, some o.module, o.constant⟩

end Candidate

namespace Visible

/-- The overloads of the module at hand. -/
def localCandidates (v : Visible) (kind : CallKind) (name : String) : List Candidate :=
  (v.own.overloads kind name).mapIdx fun i o => .ofLocal name i o

/-- The overloads from elsewhere. -/
def externalCandidates (v : Visible) (kind : CallKind) (name : String) : List Candidate :=
  (v.externals.overloads kind name).mapIdx fun i o => .ofExternal i o

/-- Every overload that a call of the name may be bound to. -/
def candidates (v : Visible) (kind : CallKind) (name : String) : List Candidate :=
  v.localCandidates kind name ++ v.externalCandidates kind name

/-- The overload that a binding stands for, if the table that owns it still has it. -/
def target (v : Visible) (b : Binding) : Option Candidate :=
  match b.module with
  | none => (v.localCandidates b.kind b.name)[b.index]?
  | some _ => (v.externalCandidates b.kind b.name)[b.index]?

/-- The fixity of an infix operator. -/
def fixityOf (v : Visible) (op : String) : Option Fixity :=
  v.own.fixityOf op <|> v.externals.fixityOf op

end Visible

end SplFrontend
