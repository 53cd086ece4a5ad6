/-!
# Types

The types of the language: four basic types, pairs, lists, and names of synonyms. Callables have a
`Signature` rather than a type, since functions are not values. `Void` is a basic type so that a
signature can name it; where it may stand is decided by the passes that read annotations.
-/

namespace SplFrontend

/-- The types that no declaration introduces. -/
inductive Basic where
  | int
  | bool
  | char
  | void
deriving DecidableEq, Repr

namespace Basic

/-- The word for a basic type in source text. -/
def name : Basic → String
  | int => "Int"
  | bool => "Bool"
  | char => "Char"
  | void => "Void"

/-- The basic type that a capitalised word names. -/
def ofName? : String → Option Basic
  | "Int" => some int
  | "Bool" => some bool
  | "Char" => some char
  | "Void" => some void
  | _ => none

@[simp] theorem ofName?_name (b : Basic) : ofName? b.name = some b := by
  cases b <;> rfl

end Basic

/-- A type as it is written. Expansion removes the synonyms. -/
inductive Ty where
  | basic (b : Basic)
  | pair (first second : Ty)
  | list (elem : Ty)
  | syn (name : String)
deriving DecidableEq, Repr, Inhabited

namespace Ty

abbrev int : Ty := .basic .int
abbrev bool : Ty := .basic .bool
abbrev char : Ty := .basic .char
abbrev void : Ty := .basic .void

/-- The type that a capitalised word stands for. -/
def ofName (name : String) : Ty :=
  match Basic.ofName? name with
  | some b => .basic b
  | none => .syn name

/-- Is the type `Void` itself? -/
def isVoid : Ty → Bool
  | .basic .void => true
  | _ => false

/-- Does `Void` occur in the type as written, at the root or below? -/
def hasVoid : Ty → Bool
  | .basic b => b = .void
  | .pair a b => a.hasVoid || b.hasVoid
  | .list e => e.hasVoid
  | .syn _ => false

/-- The type in source form. -/
def render : Ty → String
  | .basic b => b.name
  | .pair a b => "(" ++ a.render ++ ", " ++ b.render ++ ")"
  | .list e => "[" ++ e.render ++ "]"
  | .syn name => name

end Ty

/-- The parameter types and the result type of a callable. -/
structure Signature where
  params : List Ty
  result : Ty
deriving DecidableEq, Repr, Inhabited

namespace Signature

/-- Does a call of this signature have a value? -/
def returnsValue (s : Signature) : Bool := !s.result.isVoid

/-- The signature in source form: parameter types, an arrow, the result type. -/
def render (s : Signature) : String :=
  String.join (s.params.map fun t => t.render ++ " ") ++ "-> " ++ s.result.render

end Signature

end SplFrontend
