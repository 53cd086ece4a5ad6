import SplFrontend.Session

/-!
# Checking one expression

An expression can be checked on its own in the setting of a module: it sees the imports, globals and
callables of the module, whatever faults these have. It is read as the initializer of a global
without a type, so that every global of the module is in sight.
-/

namespace SplFrontend

/-- An expression in the setting of a module. -/
structure Query where
  /-- What was reported on the way. -/
  setup : List Diagnostic
  visible : Visible
  /-- The expression with its variables tagged and its sequences grouped. -/
  expr : Expr

namespace Query

/-- The initializer of the first item. -/
def initializer? : Program → Option Expr
  | ⟨_, .global d :: _⟩ => some d.init
  | _ => none

/-- Prepares the expression of a second program in the setting of a first one. -/
def ofPrograms (module expr : Program) (headers : HeaderTexts) : Option Query := do
  let s := Session.start module headers {}
  let (_, _, s) := s.step .imports
  let (_, _, s) := s.step .annotations
  let (_, _, s) := s.step .declarations
  let s := { s with program := { s.program with items := expr.items } }
  let (_, _, s) := s.step .scoping
  let (_, _, s) := s.step .precedence
  return ⟨s.sink.entries, s.visible, ← initializer? s.program⟩

/-- Reads a module and an expression, and prepares the expression. -/
def ofText (module expr : String) (headers : HeaderTexts) :
    Except (List Diagnostic) (Option Query) := do
  let module ← Program.ofText module
  let expr ← Program.ofText ("var it = " ++ expr ++ ";")
  return ofPrograms module expr headers

/-- Checks an expression against some types in turn, each time the one that the check before has
made of it. -/
def checks (v : Visible) : Expr → List (Option Ty) → List (Typing.Checked Expr)
  | _, [] => []
  | e, t :: ts =>
    let c := Typing.expr ⟨v, none⟩ t e
    c :: checks v c.value ts

end Query

end SplFrontend
