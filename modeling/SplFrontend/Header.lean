import SplFrontend.Ty.Code
import SplFrontend.Fixity

/-!
# Headers

A header is what a module offers to the modules that import it: its globals, its synonyms and its
callables, each with a type. The types may still name synonyms.
-/

namespace SplFrontend

/-- A callable that a header lists. -/
structure HeaderFn where
  kind : CallKind
  name : String
  fixity : Option Fixity
  sig : Signature
  /-- May a global's initializer call it? -/
  constant : Bool
deriving DecidableEq, Repr

/-- What a module exports. -/
structure Header where
  module : String
  globals : List (String × Ty)
  synonyms : List (String × Ty)
  functions : List HeaderFn
deriving DecidableEq, Repr

/-- What is wrong with a callable's entry in a header. -/
inductive EntryFault where
  | noFixity
  | strayFixity
  | arity
deriving DecidableEq, Repr

/-- The fault in words. -/
def EntryFault.message : EntryFault → String
  | noFixity => "infix operator needs both fixity and assoc"
  | strayFixity => "only infix operators carry fixity"
  | arity => "operator has the wrong number of parameters"

/-- Why a text is no header. -/
inductive HeaderFault where
  /-- The text is no JSON document of the right shape. The message stops before the
  cause, which would follow after a colon in the words of the JSON layer. -/
  | malformed
  /-- A type cannot be read. -/
  | type (why : CodeFault)
  /-- A callable's entry contradicts itself. -/
  | entry (name : String) (why : EntryFault)
deriving DecidableEq, Repr

/-- The fault in words. -/
def HeaderFault.message : HeaderFault → String
  | malformed => "malformed header document"
  | type why => why.message
  | entry name why => s!"invalid entry `{name}`: {why.message}"

end SplFrontend
