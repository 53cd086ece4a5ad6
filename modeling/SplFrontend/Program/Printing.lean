import SplFrontend.Expr.Printing
import SplFrontend.Program

/-!
# Printing programs

The source form of a program: import lines, then the items with an empty line before each. Blocks
are indented by four spaces. Everything is a list of lines, each of which ends the line it is on.
-/

namespace SplFrontend

/-- A line at the given depth of blocks. -/
def indented (depth : Nat) (text : String) : String :=
  String.join (List.replicate depth "    ") ++ text ++ "\n"

/-- The declaration in source form. -/
def VarDecl.render (d : VarDecl) : String :=
  (match d.ty with
    | some t => t.render
    | none => "var") ++ " " ++ d.name ++ " = " ++ d.init.render ++ ";"

namespace Stmt

/-- A block with its head line, from the text of its statements. -/
def renderBlock (depth : Nat) (head body : String) : String :=
  indented depth (head ++ " \x7b") ++ body ++ indented depth "\x7d"

mutual

/-- The statement in source form, at the given depth of blocks. -/
def render (depth : Nat) : Stmt → String
  | .decl d => indented depth d.render
  | .assign v e _ => indented depth (v.render ++ " = " ++ e.render ++ ";")
  | .cond branches otherwise _ =>
    renderBranches depth "if" branches ++
      match otherwise with
      | some body => renderBlock depth "else" (renderBody (depth + 1) body)
      | none => ""
  | .loop e body _ =>
    renderBlock depth ("while (" ++ e.render ++ ")") (renderBody (depth + 1) body)
  | .each v e body _ =>
    renderBlock depth ("for (" ++ v.render ++ " in " ++ e.render ++ ")")
      (renderBody (depth + 1) body)
  | .ret (some e) _ => indented depth ("return " ++ e.render ++ ";")
  | .ret none _ => indented depth "return;"
  | .brk _ => indented depth "break;"
  | .cont _ => indented depth "continue;"
  | .expr e => indented depth (e.render ++ ";")

/-- The branches of a conditional. The word before the first one is given. -/
def renderBranches (depth : Nat) (word : String) : List Branch → String
  | [] => ""
  | .mk e body _ :: rest =>
    renderBlock depth (word ++ " (" ++ e.render ++ ")") (renderBody (depth + 1) body) ++
      renderBranches depth "elif" rest

/-- The statements of a block. -/
def renderBody (depth : Nat) : List Stmt → String
  | [] => ""
  | s :: body => s.render depth ++ renderBody depth body

end

end Stmt

/-- The name with its alias in source form. -/
def ImportName.render (n : ImportName) : String :=
  match n.asName with
  | some a => n.name.text ++ " as " ++ a.text
  | none => n.name.text

/-- The import line in source form. -/
def Import.render (i : Import) : String :=
  "from " ++ i.module ++
    match i.names with
    | .all => " importall;"
    | .names ns => " import " ++ ", ".intercalate (ns.map ImportName.render) ++ ";"

/-- The head of a callable in source form. -/
def FnDef.renderHead (f : FnDef) : String :=
  (match f.head with
    | .function => f.name
    | .prefixOp => "prefix " ++ f.name ++ " "
    | .infixOp fixity => fixity.render ++ " " ++ f.name ++ " ") ++
    "(" ++ ", ".intercalate (f.params.map Param.name) ++ ")" ++
    match f.sig with
    | some sig => " :: " ++ sig.render
    | none => ""

/-- The item in source form. -/
def Item.render : Item → String
  | .synonym s => indented 0 ("type " ++ s.name ++ " = " ++ s.ty.render ++ ";")
  | .global d => indented 0 d.render
  | .fn f => Stmt.renderBlock 0 f.renderHead (Stmt.renderBody 1 f.body)

/-- The program in source form. An empty line stands before every item that does not come first. -/
def Program.render (p : Program) : String :=
  String.join (p.imports.map fun i => indented 0 i.render) ++
    (if p.imports.isEmpty || p.items.isEmpty then "" else "\n") ++
    "\n".intercalate (p.items.map Item.render)

end SplFrontend
