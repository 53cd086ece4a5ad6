import SplFrontend.Accessor
import SplFrontend.Fixity
import SplFrontend.Loc

/-!
# Expressions

One tree serves every stage of the work. Reading leaves infix sequences flat and calls and variables
open; the passes then replace flat sequences by infix calls, open variables by tagged ones, and open
calls by calls bound to one overload. Since a pass may meet a tree in any of these states, the tree
has all the forms at once.

Two kinds of trees that no reader and no pass makes are left out. A flat sequence has one operand
more than it has operators, by the form of `flat`, so it is neither empty nor cut short. A literal
is not below zero: `-1` is a call of the prefix operator, and the readers for any list of tokens
take what stands for a negative literal from outside (`Cursor.Input`).
-/

namespace SplFrontend

/-- What a variable refers to. Every form keeps the name as it is written. -/
inductive Ref where
  /-- No pass has looked the name up yet. -/
  | unresolved (name : String)
  /-- A global variable of this module. -/
  | own (name : String)
  /-- A global variable of another module, which knows it as `exported`. -/
  | imported (module name exported : String)
  /-- A variable declared in the body of the function. -/
  | localVar (name : String)
  /-- A parameter of the function. -/
  | argument (name : String)
deriving DecidableEq, Repr

/-- The name as it is written. -/
def Ref.name : Ref → String
  | unresolved n | own n | localVar n | argument n => n
  | imported _ n _ => n

/-- A variable with its accessors. The type is filled in by type checking. -/
structure Variable where
  ref : Ref
  accessors : List Accessor
  ty : Option Ty
  loc : Loc
deriving DecidableEq, Repr

/-- One use of an infix operator. -/
structure OpUse where
  name : String
  loc : Loc
deriving DecidableEq, Repr

/-- The overload that a call is bound to. -/
structure Binding where
  kind : CallKind
  /-- The name as it is written. -/
  name : String
  /-- The name in the module that defines the overload. -/
  exported : String
  /-- The place of the overload in the overload set of the table that owns it. -/
  index : Nat
  /-- The module that defines the overload, or `none` for this module. -/
  module : Option String
  /-- The type of the call. -/
  ty : Ty
deriving DecidableEq, Repr

/-- Does the call have a value? -/
def Binding.returnsValue (b : Binding) : Bool := !b.ty.isVoid

/-- Expressions. -/
inductive Expr where
  | int (value : Nat) (loc : Loc)
  | char (value : Char) (loc : Loc)
  | bool (value : Bool) (loc : Loc)
  | str (value : String) (loc : Loc)
  /-- The empty list, with its list type once that is known. -/
  | emptyList (ty : Option Ty) (loc : Loc)
  | pair (first second : Expr) (loc : Loc)
  | var (v : Variable)
  /-- Operands separated by infix operators whose grouping is not known yet. -/
  | flat (first : Expr) (rest : List (OpUse × Expr)) (loc : Loc)
  /-- A call that no pass has bound yet. -/
  | call (kind : CallKind) (name : String) (args : List Expr) (loc : Loc)
  /-- A call that is bound to one overload. -/
  | bound (target : Binding) (args : List Expr) (loc : Loc)
deriving Repr

namespace Expr

/-- Where the expression is reported. -/
def loc : Expr → Loc
  | int _ l | char _ l | bool _ l | str _ l | emptyList _ l | pair _ _ l | flat _ _ l
  | call _ _ _ l | bound _ _ l => l
  | var v => v.loc

/-- Is the expression a sequence whose grouping is not known? -/
def isFlat : Expr → Bool
  | flat .. => true
  | _ => false

end Expr

end SplFrontend
