import SplFrontend.Expr
import SplFrontend.Token.Reading

/-!
# Reading expressions

An expression is a sequence of operands with infix operators between them. Grouping needs the
fixities, which the text alone does not tell, so a sequence is kept flat; a single operand stands
for itself. An operand is an atom after any number of prefix operators.
-/

namespace SplFrontend

open Reading TokenReading

/-- The accessors at the front of a list of tokens, and what follows them. -/
def Variable.accessorsOf : List Token → List Accessor × List Token
  | ⟨.accessor a, _⟩ :: ts => ((accessorsOf ts).1.cons a, (accessorsOf ts).2)
  | ts => ([], ts)

theorem Variable.length_accessorsOf (ts : List Token) : (accessorsOf ts).2.length ≤ ts.length := by
  fun_induction accessorsOf ts with
  | case1 a l ts ih => simp only [List.length_cons]; omega
  | case2 ts => exact Nat.le_refl _

/-- Reads a variable with its accessors. -/
def Variable.read (stop : Loc) : (ts : List Token) → TokenReading Variable ts
  | ⟨.ident name, loc⟩ :: ts =>
    ok ⟨.unresolved name, (accessorsOf ts).1, none, loc⟩ (accessorsOf ts).2
      (Nat.lt_succ_of_le (length_accessorsOf ts))
  | ts => skip stop (.unexpected .identifier (peek ts))

namespace Expr

mutual

/-- Reads an expression. -/
def read (stop : Loc) (ts : List Token) : TokenReading Expr ts :=
  (operand stop ts).extend fun e r _ =>
    match r with
    | ⟨.op name, loc⟩ :: r' => some (((chain stop ⟨name, loc⟩ r').map (.flat e · e.loc)).under)
    | _ => none
termination_by 5 * ts.length + 2
decreasing_by all_goals grind

/-- Reads the operand after the infix operator `o`, and the rest of the sequence. -/
def chain (stop : Loc) (o : OpUse) (ts : List Token) : TokenReading (List (OpUse × Expr)) ts :=
  ((operand stop ts).map fun e => [(o, e)]).extend fun front r _ =>
    match r with
    | ⟨.op name, loc⟩ :: r' => some (((chain stop ⟨name, loc⟩ r').map (front ++ ·)).under)
    | _ => none
termination_by 5 * ts.length + 2
decreasing_by all_goals grind

/-- Reads prefix operators and the atom that they apply to. -/
def operand (stop : Loc) : (ts : List Token) → TokenReading Expr ts
  | ⟨.op name, loc⟩ :: ts =>
    ((operand stop ts).map fun e => .call .prefixOp name [e] loc).under
  | ts => atom stop ts
termination_by ts => 5 * ts.length + 1
decreasing_by all_goals grind

/-- Reads an expression without operators at its top. -/
def atom (stop : Loc) : (ts : List Token) → TokenReading Expr ts
  | ⟨.int n, loc⟩ :: _ => take (.int n loc)
  | ⟨.char c, loc⟩ :: _ => take (.char c loc)
  | ⟨.str s, loc⟩ :: _ => take (.str s loc)
  | ⟨.bool b, loc⟩ :: _ => take (.bool b loc)
  | ⟨.mark .lbracket, loc⟩ :: ts =>
    ((expect stop (.mark .rbracket) ts).map fun _ => .emptyList none loc).under
  | ⟨.mark .lparen, loc⟩ :: ts =>
    ((read stop ts).bind fun a r₁ _ =>
      match r₁ with
      | ⟨.mark .comma, _⟩ :: r₂ =>
        ((read stop r₂).bind fun b r₃ _ =>
          (expect stop (.mark .rparen) r₃).map fun _ => .pair a b loc).under
      | r₁ => (expect stop (.mark .rparen) r₁).map fun _ => a).under
  | ⟨.ident name, loc⟩ :: ⟨.mark .lparen, _⟩ :: ts =>
    ((args stop ts).map fun as => .call .function name as loc).under.under
  | ⟨.ident name, loc⟩ :: ts => (Variable.read stop (⟨.ident name, loc⟩ :: ts)).map .var
  | ts => leave stop (.unexpected .expression (peek ts))
termination_by ts => 5 * ts.length + 0
decreasing_by all_goals grind

/-- Reads the arguments of a call, from after the opening parenthesis to the closing one. -/
def args (stop : Loc) : (ts : List Token) → TokenReading (List Expr) ts
  | ⟨.mark .rparen, _⟩ :: _ => take []
  | ts => moreArgs stop ts
termination_by ts => 5 * ts.length + 4
decreasing_by all_goals grind

/-- Reads at least one argument, and the closing parenthesis. -/
def moreArgs (stop : Loc) (ts : List Token) : TokenReading (List Expr) ts :=
  (read stop ts).bind fun e r _ =>
    match r with
    | ⟨.mark .comma, _⟩ :: r' => ((moreArgs stop r').map (e :: ·)).under
    | r => (expect stop (.mark .rparen) r).map fun _ => [e]
termination_by 5 * ts.length + 3
decreasing_by all_goals grind

end

end Expr

end SplFrontend
