import SplFrontend.Expr
import SplFrontend.Text.Quoted

/-!
# Printing expressions

The source form of an expression in any state of resolution. A bound call prints as the call it was
written as. A sequence inside another one, or inside an operator call, is put in parentheses, and an
infix call always is, so that reading the text groups it the same way.
-/

namespace SplFrontend

/-- The variable in source form. -/
def Variable.render (v : Variable) : String :=
  v.ref.name ++ String.join (v.accessors.map fun a => "." ++ a.name)

namespace Expr

/-- Puts the text of a sequence in parentheses. -/
def wrap (e : Expr) (text : String) : String := if e.isFlat then "(" ++ text ++ ")" else text

/-- A call in source form, from its arguments and their texts. -/
def renderCall (kind : CallKind) (name : String) (args : List (Expr × String)) : String :=
  match kind, args with
  | .prefixOp, [(e, t)] => name ++ " " ++ wrap e t
  | .infixOp, [(e, t), (f, u)] => "(" ++ wrap e t ++ " " ++ name ++ " " ++ wrap f u ++ ")"
  | _, args => name ++ "(" ++ ", ".intercalate (args.map Prod.snd) ++ ")"

mutual

/-- The expression in source form. -/
def render : Expr → String
  | .int n _ => toString n
  | .char c _ => Text.literal '\'' [c]
  | .bool b _ => if b then "True" else "False"
  | .str s _ => Text.literal '"' s.toList
  | .emptyList _ _ => "[]"
  | .pair a b _ => "(" ++ a.render ++ ", " ++ b.render ++ ")"
  | .var v => v.render
  | .flat e rest _ => wrap e e.render ++ renderRest rest
  | .call kind name args _ => renderCall kind name (renderArgs args)
  | .bound target args _ => renderCall target.kind target.name (renderArgs args)

/-- The operators and operands of a sequence after its first operand. -/
def renderRest : List (OpUse × Expr) → String
  | [] => ""
  | (op, e) :: rest => " " ++ op.name ++ " " ++ wrap e e.render ++ renderRest rest

/-- The arguments of a call with their texts. -/
def renderArgs : List Expr → List (Expr × String)
  | [] => []
  | e :: es => (e, e.render) :: renderArgs es

end

end Expr

end SplFrontend
