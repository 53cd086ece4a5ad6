import SplFrontend.Symbols

/-!
# The built-in library

What every module can use without an import: the operators, input and output, conversions, and the
synonym `String`. They belong to a module of their own that no source text defines.
-/

namespace SplFrontend.Builtin

/-- The module that the built-ins belong to. -/
def module : String := "__builtin__"

/-- A built-in callable. -/
structure Callable where
  kind : CallKind
  name : String
  fixity : Option Fixity
  sig : Signature
  /-- May a global's initializer call it? -/
  constant : Bool
deriving DecidableEq, Repr

/-- The basic types that values have. -/
def basicTypes : List Ty := [.int, .char, .bool]

/-- The element types that `:` and `isEmpty` know: basic types, lists of them and pairs of them. -/
def elementTypes : List Ty :=
  basicTypes ++ basicTypes.map .list ++ basicTypes.flatMap fun a =>
    basicTypes.map fun b => .pair a b

/-- The built-in synonyms. -/
def synonyms : List (String × Ty) := [("String", .list .char)]

/-- An infix operator. All of them are constant. -/
def infixOf (name : String) (assoc : Assoc) (precedence : UInt8) (left right result : Ty) :
    Callable :=
  ⟨.infixOp, name, some ⟨assoc, precedence⟩, ⟨[left, right], result⟩, true⟩

/-- A prefix operator. All of them are constant. -/
def prefixOf (name : String) (operand result : Ty) : Callable :=
  ⟨.prefixOp, name, none, ⟨[operand], result⟩, true⟩

/-- A function. -/
def functionOf (name : String) (params : List Ty) (result : Ty) (constant : Bool) : Callable :=
  ⟨.function, name, none, ⟨params, result⟩, constant⟩

/-- The comparisons that each name stands for, one for each type of operands. -/
def comparisons (names : List String) (operands : List Ty) : List Callable :=
  names.flatMap fun n => operands.map fun t => infixOf n .left 4 t t .bool

/-- The operators on integers. -/
def arithmetic (names : List String) (precedence : UInt8) : List Callable :=
  names.map fun n => infixOf n .left precedence .int .int .int

/-- The operators. -/
def operators : List Callable :=
  [infixOf "||" .left 2 .bool .bool .bool, infixOf "&&" .left 3 .bool .bool .bool] ++
  comparisons ["==", "!="] [.int, .char, .bool] ++
  comparisons ["<", "<=", ">", ">="] [.int, .char] ++
  elementTypes.map (fun e => infixOf ":" .right 5 e (.list e) (.list e)) ++
  arithmetic ["+", "-"] 6 ++ arithmetic ["*", "/", "%"] 7 ++
  [prefixOf "-" .int .int, prefixOf "!" .bool .bool]

/-- The functions. -/
def functions : List Callable :=
  [functionOf "print" [.int] .void false, functionOf "print" [.char] .void false,
    functionOf "read" [] .char false, functionOf "ord" [.char] .int true,
    functionOf "chr" [.int] .char true] ++
  elementTypes.map fun e => functionOf "isEmpty" [.list e] .bool false

/-- The entry of a built-in callable. -/
def Callable.overload (c : Callable) : ExternalOverload :=
  ⟨c.sig, module, c.name, c.fixity, c.constant⟩

/-- The table of the built-ins alone. -/
def table : ExternalTable :=
  (operators ++ functions).foldl (fun t c => t.addOverload c.kind c.name c.overload)
    { synonyms := synonyms.map fun (name, ty) => (name, ⟨module, name, ty⟩) }

end SplFrontend.Builtin
