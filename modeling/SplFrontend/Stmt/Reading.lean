import SplFrontend.Expr.Reading
import SplFrontend.Stmt
import SplFrontend.Ty.Reading

/-!
# Reading statements

A statement is known by its first token, and for an identifier by the one after it: a call is
followed by a parenthesis, an assignment is not.
-/

namespace SplFrontend

open Reading TokenReading

/-- Reads a variable declaration after its type or the word `var`. -/
def VarDecl.readRest (stop loc : Loc) (ty : Option Ty) (ts : List Token) :
    TokenReading VarDecl ts :=
  (ident stop ts).bind fun name r₁ _ =>
    (expect stop (.mark .assign) r₁).bind fun _ r₂ _ =>
      (Expr.read stop r₂).bind fun init r₃ _ =>
        (expect stop (.mark .semicolon) r₃).map fun _ => ⟨name, ty, init, loc⟩

/-- Reads a variable declaration. -/
def VarDecl.read (stop : Loc) : (ts : List Token) → TokenReading VarDecl ts
  | ⟨.keyword .kwVar, loc⟩ :: ts => (readRest stop loc none ts).under
  | ts => (Ty.read stop ts).bind fun ty r _ => readRest stop (here stop ts) (some ty) r

/-- Can a token begin a variable declaration? -/
def VarDecl.startsWith : Kind → Bool
  | .keyword .kwVar | .typeName _ | .mark .lparen | .mark .lbracket => true
  | _ => false

/-- Reads an expression in parentheses. -/
def Expr.readGuard (stop : Loc) (ts : List Token) : TokenReading Expr ts :=
  (expect stop (.mark .lparen) ts).bind fun _ r₁ _ =>
    (Expr.read stop r₁).bind fun e r₂ _ => (expect stop (.mark .rparen) r₂).map fun _ => e

/-- Reads the value of a `return`, if there is one, and the semicolon. -/
def Expr.readReturned (stop : Loc) : (ts : List Token) → TokenReading (Option Expr) ts
  | ⟨.mark .semicolon, _⟩ :: _ => take none
  | ts =>
    (Expr.read stop ts).bind fun e r _ => (expect stop (.mark .semicolon) r).map fun _ => some e

namespace Stmt

/-- Reads an assignment. -/
def readAssign (stop : Loc) (ts : List Token) : TokenReading Stmt ts :=
  (Variable.read stop ts).bind fun v r₁ _ =>
    (expect stop (.mark .assign) r₁).bind fun _ r₂ _ =>
      (Expr.read stop r₂).bind fun e r₃ _ =>
        (expect stop (.mark .semicolon) r₃).map fun _ => .assign v e (here stop ts)

/-- Reads the head of a `for` loop after the keyword. -/
def readEach (stop : Loc) (ts : List Token) : TokenReading (Variable × Expr) ts :=
  (expect stop (.mark .lparen) ts).bind fun _ r₁ _ =>
    (Variable.read stop r₁).bind fun v r₂ _ =>
      (expect stop (.keyword .kwIn) r₂).bind fun _ r₃ _ =>
        (Expr.read stop r₃).bind fun e r₄ _ =>
          (expect stop (.mark .rparen) r₄).map fun _ => (v, e)

mutual

/-- Reads a statement. -/
def read (stop : Loc) : (ts : List Token) → TokenReading Stmt ts
  | [] => leave stop (.unexpected .statement none)
  | ⟨.keyword .kwIf, loc⟩ :: ts =>
    ((((branch stop loc ts).map fun b => ([b], none)).extend fun front r _ =>
      (alternatives stop r).map fun x => x.map fun back => (front.1 ++ back.1, back.2)).map
        fun parts => .cond parts.1 parts.2 loc).under
  | ⟨.keyword .kwWhile, loc⟩ :: ts =>
    ((Expr.readGuard stop ts).bind fun e r _ =>
      (block stop r).map fun body => .loop e body loc).under
  | ⟨.keyword .kwFor, loc⟩ :: ts =>
    ((readEach stop ts).bind fun head r _ =>
      (block stop r).map fun body => .each head.1 head.2 body loc).under
  | ⟨.keyword .kwReturn, loc⟩ :: ts =>
    ((Expr.readReturned stop ts).map fun value => .ret value loc).under
  | ⟨.keyword .kwBreak, loc⟩ :: ts =>
    ((expect stop (.mark .semicolon) ts).map fun _ => .brk loc).under
  | ⟨.keyword .kwContinue, loc⟩ :: ts =>
    ((expect stop (.mark .semicolon) ts).map fun _ => .cont loc).under
  | ⟨.ident name, loc⟩ :: ⟨.mark .lparen, loc'⟩ :: ts =>
    (Expr.atom stop (⟨.ident name, loc⟩ :: ⟨.mark .lparen, loc'⟩ :: ts)).bind fun e r _ =>
      (expect stop (.mark .semicolon) r).map fun _ => .expr e
  | ⟨.ident name, loc⟩ :: ts => readAssign stop (⟨.ident name, loc⟩ :: ts)
  | t :: ts =>
    if VarDecl.startsWith t.kind then (VarDecl.read stop (t :: ts)).map .decl
    else leave stop (.unexpected .statement (some t.kind))
termination_by ts => 3 * ts.length + 0
decreasing_by all_goals grind

/-- Reads a condition in parentheses and the block that it guards. -/
def branch (stop loc : Loc) (ts : List Token) : TokenReading Branch ts :=
  (Expr.readGuard stop ts).bind fun e r _ => (block stop r).map fun body => .mk e body loc
termination_by 3 * ts.length + 0
decreasing_by all_goals grind

/-- Reads what follows a branch: more branches and an `else` block, as far as there are any. -/
def alternatives (stop : Loc) :
    (ts : List Token) → Option (TokenReading (List Branch × Option (List Stmt)) ts)
  | ⟨.keyword .kwElif, loc⟩ :: ts =>
    some ((((branch stop loc ts).map fun b => ([b], none)).extend fun front r _ =>
      (alternatives stop r).map fun x => x.map fun back => (front.1 ++ back.1, back.2)).under)
  | ⟨.keyword .kwElse, _⟩ :: ts => some (((block stop ts).map fun body => ([], some body)).under)
  | _ => none
termination_by ts => 3 * ts.length + 0
decreasing_by all_goals grind

/-- Reads a block in braces. -/
def block (stop : Loc) (ts : List Token) : TokenReading (List Stmt) ts :=
  (expect stop (.mark .lbrace) ts).bind fun _ r _ => body stop r
termination_by 3 * ts.length + 2
decreasing_by all_goals grind

/-- Reads the statements of a block and its closing brace. -/
def body (stop : Loc) : (ts : List Token) → TokenReading (List Stmt) ts
  | [] => leave stop (.missing (.mark .rbrace) none)
  | t :: ts =>
    if t.kind = .mark .rbrace then take []
    else (read stop (t :: ts)).bind fun s r _ => (body stop r).map (s :: ·)
termination_by ts => 3 * ts.length + 1
decreasing_by all_goals grind

end

end Stmt

end SplFrontend
