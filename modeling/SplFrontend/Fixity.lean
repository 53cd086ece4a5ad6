/-!
# Kinds of callables and their fixity

A callable is a function, a prefix operator or an infix operator, and the three kinds do not share
names. An infix operator has a fixity: how tightly it binds and to which side it groups.
-/

namespace SplFrontend

/-- The three separate spaces that callable names live in. -/
inductive CallKind where
  | function
  | prefixOp
  | infixOp
deriving DecidableEq, Repr

namespace CallKind

/-- The kind in the words of a message. -/
def describe : CallKind → String
  | function => "function"
  | prefixOp => "prefix operator"
  | infixOp => "infix operator"

/-- The kind in one word, as headers write it. -/
def word : CallKind → String
  | function => "function"
  | prefixOp => "prefix"
  | infixOp => "infix"

/-- The kind that a header's word names. -/
def ofWord? : String → Option CallKind
  | "function" => some function
  | "prefix" => some prefixOp
  | "infix" => some infixOp
  | _ => none

@[simp] theorem ofWord?_word (k : CallKind) : ofWord? k.word = some k := by
  cases k <;> rfl

/-- The number of parameters that an operator of this kind must have. -/
def arity? : CallKind → Option Nat
  | function => none
  | prefixOp => some 1
  | infixOp => some 2

end CallKind

/-- To which side a run of one operator groups. -/
inductive Assoc where
  | left
  | right
deriving DecidableEq, Repr

namespace Assoc

/-- The side in one word, as headers write it. -/
def word : Assoc → String
  | left => "left"
  | right => "right"

/-- The side that a header's word names. -/
def ofWord? : String → Option Assoc
  | "left" => some left
  | "right" => some right
  | _ => none

@[simp] theorem ofWord?_word (a : Assoc) : ofWord? a.word = some a := by
  cases a <;> rfl

end Assoc

/-- How an infix operator groups. A higher precedence binds tighter. -/
structure Fixity where
  assoc : Assoc
  precedence : UInt8
deriving DecidableEq, Repr

namespace Fixity

/-- The fixity in source form. -/
def render (f : Fixity) : String :=
  (match f.assoc with
    | .left => "infixl "
    | .right => "infixr ") ++ toString f.precedence.toNat

/-- The least precedence that may stand to the right of an operator of this fixity. -/
def next (f : Fixity) : Nat :=
  match f.assoc with
  | .left => f.precedence.toNat + 1
  | .right => f.precedence.toNat

end Fixity

end SplFrontend
