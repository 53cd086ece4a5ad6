import SplFrontend.Program.Reading

/-!
# Reading by position

The readers of a program take a list of tokens from its front. Here the same grammar is read from a
list that stays as it is, by a position in it. The list holds whatever a caller puts into it: an end
of input may stand anywhere and a literal may be negative, which no text has. Nothing keeps a reader
inside of the list or lets it come to an end. A read outside of the list stops all work (`Overrun`).
A reader (`Cursor`) calls others by name, whatever these do, and the readers of the grammar call
each other to some depth (`readers`), so that one that goes on for ever has no outcome at any depth.
That neither happens is a matter of proof.

A loop is a recursion on its turns. Each turn is a definition of its own, which tells whether the
loop goes on and with what.
-/

namespace SplFrontend

/-- What a token of any list is: a token of a text, a negative integer, or an end of input. -/
inductive RawKind where
  | kind (k : Kind)
  /-- The integer `-(n + 1)`. -/
  | negative (n : Nat)
  | eof
deriving DecidableEq, Repr

/-- The token in the words of a message. -/
def RawKind.describe : RawKind → String
  | kind k => k.describe
  | negative n => "integer `" ++ toString (Int.negSucc n) ++ "`"
  | eof => "end of input"

/-- A token of any list. -/
structure RawToken where
  kind : RawKind
  loc : Loc
deriving DecidableEq, Repr

/-- A token of a text as a token of a list. -/
def Token.raw (t : Token) : RawToken := ⟨.kind t.kind, t.loc⟩

/-- A read outside of the list. -/
structure Overrun where
  position : Nat
deriving DecidableEq, Repr

/-- What is read: tokens, and what stands for a negative literal, for which no expression does. -/
structure Cursor.Input where
  tokens : List RawToken
  negative : Nat → Loc → Expr

namespace Cursor

/-- What is known of a program while it is read: its declarations so far, and the faults. -/
structure Draft where
  program : Program
  faults : List Diagnostic

/-- The loops of the grammar. -/
inductive Loop where
  | declarations
  /-- The tokens that are skipped after a fault. -/
  | recovery
  | importNames
  | parameters
  /-- The parameter types of a signature. -/
  | types
  | statements
  | branches
  | arguments
  /-- The infix operators of an expression, with their operands. -/
  | operators
  | accessors

/-- What a loop gathers. For recovery, it is how many braces are open. -/
abbrev Loop.State : Loop → Type
  | declarations => Draft
  | recovery => Nat
  | importNames => List ImportName
  | parameters => List Param
  | types => List Ty
  | statements => List Stmt
  | branches => List Branch
  | arguments => List Expr
  | operators => List (OpUse × Expr)
  | accessors => List Accessor

/-- What comes of reading an `α` from a position, if it comes to an end: a read outside of the list,
or an `α` or a fault and the position that reading stops at. -/
abbrev Course (α : Type) := Input → Nat → Option (Except Overrun (Except Diagnostic α × Nat))

/-- Goes on from a value. A fault or a read outside of the list is the end. -/
def Course.bind {α β : Type} (x : Course α) (f : α → Course β) : Course β := fun i p =>
  match x i p with
  | some (.ok (.ok a, q)) => f a i q
  | some (.ok (.error d, q)) => some (.ok (.error d, q))
  | some (.error e) => some (.error e)
  | none => none

/-- Where the first course comes to an end, the second one comes to the same. -/
def Course.Below {α : Type} (x y : Course α) : Prop := ∀ i p o, x i p = some o → y i p = some o

theorem Course.Below.bind {α β : Type} {x y : Course α} {f g : α → Course β} (hx : Below x y)
    (hf : ∀ a, Below (f a) (g a)) : Below (x.bind f) (y.bind g) := by
  intro i p o h
  unfold Course.bind at h ⊢
  cases hv : x i p with
  | none =>
    rw [hv] at h
    cases h
  | some v =>
    rw [hv] at h
    rw [hx i p v hv]
    rcases v with e | ⟨d | a, q⟩
    · exact h
    · exact h
    · exact hf a i q o h

/-- The readers that others call. -/
structure Readers where
  ty : Course Ty
  expr : Course Expr
  unary : Course Expr
  loop : (l : Loop) → l.State → Course l.State

/-- Where the first readers come to an end, the second ones come to the same. -/
structure Readers.Below (r r' : Readers) : Prop where
  ty : Course.Below r.ty r'.ty
  expr : Course.Below r.expr r'.expr
  unary : Course.Below r.unary r'.unary
  loop : ∀ l s, Course.Below (r.loop l s) (r'.loop l s)

end Cursor

/-- A reader of an `α` by position. It does not tell whether the readers that it calls are cut off:
what it comes to, it also comes to with readers that come to an end more often. -/
@[ext] structure Cursor (α : Type) where
  run : Cursor.Readers → Cursor.Course α
  mono : ∀ {r r'}, r.Below r' → Cursor.Course.Below (run r) (run r')

namespace Cursor

instance : Monad Cursor where
  pure a := ⟨fun _ _ p => some (.ok (.ok a, p)), fun _ _ _ _ h => h⟩
  bind x f :=
    ⟨fun r => (x.run r).bind fun a => (f a).run r, fun h => (x.mono h).bind fun a => (f a).mono h⟩

theorem run_bind {α β : Type} (x : Cursor α) (f : α → Cursor β) (r : Readers) :
    (x >>= f).run r = (x.run r).bind fun a => (f a).run r := rfl

instance : LawfulMonad Cursor := by
  refine LawfulMonad.mk' Cursor (fun x => ?_) (fun a f => rfl) (fun x f g => ?_)
  · refine Cursor.ext (funext fun r => funext fun i => funext fun p => ?_)
    change Course.bind _ _ i p = _
    unfold Course.bind
    rcases x.run r i p with _ | _ | ⟨_ | _, _⟩ <;> rfl
  · refine Cursor.ext (funext fun r => funext fun i => funext fun p => ?_)
    change Course.bind (Course.bind _ _) _ i p = Course.bind _ _ i p
    unfold Course.bind
    rcases x.run r i p with _ | _ | ⟨_ | _, _⟩ <;> rfl

/-- A reader that calls no other. -/
def ofCourse {α : Type} (x : Course α) : Cursor α := ⟨fun _ => x, fun _ _ _ _ h => h⟩

/-- Ends in a fault. -/
def throw {α : Type} (d : Diagnostic) : Cursor α := ofCourse fun _ p => some (.ok (.error d, p))

/-- The position. -/
def position : Cursor Nat := ofCourse fun _ p => some (.ok (.ok p, p))

/-- What stands for a negative literal. -/
def negative (n : Nat) (loc : Loc) : Cursor Expr :=
  ofCourse fun i p => some (.ok (.ok (i.negative n loc), p))

/-- The outcome of a reader as a value. The position stays where the reader stops. -/
def attempt {α : Type} (x : Cursor α) : Cursor (Except Diagnostic α) where
  run r i p := (x.run r i p).map fun o => o.map fun (a, q) => (.ok a, q)
  mono h i p o ho := by
    obtain ⟨v, hv, rfl⟩ := Option.map_eq_some_iff.1 ho
    exact Option.map_eq_some_iff.2 ⟨v, x.mono h i p v hv, rfl⟩

/-! ## Calls -/

/-- Reads a type. -/
def ty : Cursor Ty := ⟨(·.ty), fun h => h.ty⟩

/-- Reads an expression. -/
def expr : Cursor Expr := ⟨(·.expr), fun h => h.expr⟩

/-- Reads prefix operators and the atom that they apply to. -/
def unary : Cursor Expr := ⟨(·.unary), fun h => h.unary⟩

/-- Takes turns of a loop until it ends. -/
def loop (l : Loop) (s : l.State) : Cursor l.State := ⟨(·.loop l s), fun h => h.loop l s⟩

/-- One turn of a loop: it goes on, or ends, with what it has gathered. -/
inductive Turn (σ : Type) where
  | again (s : σ)
  | done (s : σ)

/-! ## Single tokens -/

/-- The token at the position. -/
def token : Cursor RawToken := ofCourse fun i p =>
  match i.tokens[p]? with
  | some t => some (.ok (.ok t, p))
  | none => some (.error ⟨p⟩)

/-- The token at the position. The position moves on, unless the token is the last one. -/
def advance : Cursor RawToken := ofCourse fun i p =>
  match i.tokens[p]? with
  | some t => some (.ok (.ok t, if p + 1 < i.tokens.length then p + 1 else p))
  | none => some (.error ⟨p⟩)

/-- Is the token after the next one there and of the given kind? -/
def secondIs (k : Kind) : Cursor Bool := ofCourse fun i p =>
  some (.ok (.ok ((i.tokens[p + 1]?).any (·.kind = .kind k)), p))

/-- The fault of a token that stands where one of another kind must. -/
def missing (k : Kind) (t : RawToken) : Diagnostic :=
  ⟨.missingToken, t.loc, s!"expected {k.describe}, found {t.kind.describe}", []⟩

/-- The fault of a token that does not begin what is wanted. -/
def unexpected (w : Wanted) (t : RawToken) : Diagnostic :=
  ⟨.unexpectedToken, t.loc, s!"expected {w.describe}, found {t.kind.describe}", []⟩

/-- Is the next token of the given kind? -/
def check (k : Kind) : Cursor Bool := do
  return (← token).kind = .kind k

/-- Is the next token an end of input? -/
def isAtEnd : Cursor Bool := do
  return (← token).kind = .eof

/-- Where the next token begins. -/
def here : Cursor Loc := do
  return (← token).loc

/-- Takes the next token if it is of the given kind, and tells whether it is. -/
def accept (k : Kind) : Cursor Bool := do
  if ← check k then
    let _ ← advance
    return true
  else return false

/-- Reads one token of the given kind. Another token is left where it is. -/
def expect (k : Kind) : Cursor Unit := do
  let t ← token
  if t.kind = .kind k then
    let _ ← advance
    return ()
  else throw (missing k t)

/-- Reads an identifier. Another token is refused but taken. -/
def ident : Cursor String := do
  let t ← advance
  match t.kind with
  | .kind (.ident name) => return name
  | _ => throw (unexpected .identifier t)

/-- Reads an operator. Another token is refused but taken. -/
def operator : Cursor String := do
  let t ← advance
  match t.kind with
  | .kind (.op name) => return name
  | _ => throw (unexpected .operator t)

/-- Reads a precedence. Another token is refused but taken. -/
def precedence : Cursor UInt8 := do
  let t ← advance
  match t.kind with
  | .kind (.int n) =>
    if n < 256 then return n.toUInt8 else throw ((Fault.precedenceRange n).report t.loc)
  | .negative n =>
    throw ⟨.unexpectedToken, t.loc, s!"precedence {Int.negSucc n} out of range", []⟩
  | _ => throw (unexpected .precedence t)

/-! ## Types -/

/-- Reads a type by its parts. A token that begins none is refused but taken. -/
def tyStep : Cursor Ty := do
  let t ← advance
  match t.kind with
  | .kind (.typeName name) => return .ofName name
  | .kind (.mark .lparen) =>
    let a ← ty
    expect (.mark .comma)
    let b ← ty
    expect (.mark .rparen)
    return .pair a b
  | .kind (.mark .lbracket) =>
    let a ← ty
    expect (.mark .rbracket)
    return .list a
  | _ => throw (unexpected .type t)

/-- Reads one more type of a signature, up to the arrow or an end of input. -/
def typesTurn (params : List Ty) : Cursor (Turn (List Ty)) := do
  if (← check (.mark .arrow)) || (← isAtEnd) then return .done params
  else return .again (params ++ [← ty])

/-- Reads a signature, from its first parameter type on. -/
def signature : Cursor Signature := do
  let params ← loop .types []
  expect (.mark .arrow)
  return ⟨params, ← ty⟩

/-! ## Expressions -/

/-- Reads one more accessor. -/
def accessorsTurn (fields : List Accessor) : Cursor (Turn (List Accessor)) := do
  match (← token).kind with
  | .kind (.accessor a) =>
    let _ ← advance
    return .again (fields ++ [a])
  | _ => return .done fields

/-- Reads a variable with its accessors. -/
def var : Cursor Variable := do
  let loc ← here
  let name ← ident
  return ⟨.unresolved name, ← loop .accessors [], none, loc⟩

/-- Reads a literal. -/
def literal : Cursor Expr := do
  let t ← token
  match t.kind with
  | .kind (.int n) =>
    let _ ← advance
    return .int n t.loc
  | .negative n =>
    let _ ← advance
    negative n t.loc
  | .kind (.char c) =>
    let _ ← advance
    return .char c t.loc
  | .kind (.str s) =>
    let _ ← advance
    return .str s t.loc
  | .kind (.bool b) =>
    let _ ← advance
    return .bool b t.loc
  | _ => throw (unexpected .expression t)

/-- Reads a call. -/
def call : Cursor Expr := do
  let loc ← here
  let name ← ident
  expect (.mark .lparen)
  if ← check (.mark .rparen) then
    expect (.mark .rparen)
    return .call .function name [] loc
  else
    let args ← loop .arguments []
    expect (.mark .rparen)
    return .call .function name args loc

/-- Reads an expression without operators at its top. -/
def atom : Cursor Expr := do
  let t ← token
  match t.kind with
  | .kind (.mark .lbracket) =>
    let _ ← advance
    expect (.mark .rbracket)
    return .emptyList none t.loc
  | .kind (.mark .lparen) =>
    let _ ← advance
    let a ← expr
    if ← accept (.mark .comma) then
      let b ← expr
      expect (.mark .rparen)
      return .pair a b t.loc
    else
      expect (.mark .rparen)
      return a
  | .kind (.ident _) => if ← secondIs (.mark .lparen) then call else return .var (← var)
  | _ => literal

/-- Reads a prefix operator and its operand, or an atom. -/
def unaryStep : Cursor Expr := do
  let t ← token
  match t.kind with
  | .kind (.op name) =>
    let _ ← advance
    return .call .prefixOp name [← unary] t.loc
  | _ => atom

/-- Reads one more infix operator with the operand after it. -/
def operatorsTurn (rest : List (OpUse × Expr)) : Cursor (Turn (List (OpUse × Expr))) := do
  let t ← token
  match t.kind with
  | .kind (.op name) =>
    let _ ← advance
    return .again (rest ++ [(⟨name, t.loc⟩, ← unary)])
  | _ => return .done rest

/-- Reads an operand and the infix operators after it. -/
def exprStep : Cursor Expr := do
  let first ← unary
  match (← token).kind with
  | .kind (.op _) => return .flat first (← loop .operators []) first.loc
  | _ => return first

/-- Reads one more argument, and the comma after it if there is one. -/
def argumentsTurn (args : List Expr) : Cursor (Turn (List Expr)) := do
  let e ← expr
  if ← accept (.mark .comma) then return .again (args ++ [e]) else return .done (args ++ [e])

/-- Reads an expression in parentheses. -/
def guarded : Cursor Expr := do
  expect (.mark .lparen)
  let e ← expr
  expect (.mark .rparen)
  return e

/-! ## Statements -/

/-- Reads a variable declaration after its type or the word `var`. -/
def declRest (loc : Loc) (ty : Option Ty) : Cursor VarDecl := do
  let name ← ident
  expect (.mark .assign)
  let init ← expr
  expect (.mark .semicolon)
  return ⟨name, ty, init, loc⟩

/-- Reads a variable declaration. -/
def decl : Cursor VarDecl := do
  let loc ← here
  if ← accept (.keyword .kwVar) then declRest loc none
  else declRest loc (some (← ty))

/-- Reads an assignment. -/
def assign : Cursor Stmt := do
  let loc ← here
  let v ← var
  expect (.mark .assign)
  let e ← expr
  expect (.mark .semicolon)
  return .assign v e loc

/-- Reads a `return` statement. -/
def ret : Cursor Stmt := do
  let loc ← here
  expect (.keyword .kwReturn)
  if ← check (.mark .semicolon) then
    expect (.mark .semicolon)
    return .ret none loc
  else
    let e ← expr
    expect (.mark .semicolon)
    return .ret (some e) loc

/-- Reads a block in braces. -/
def block : Cursor (List Stmt) := do
  expect (.mark .lbrace)
  let body ← loop .statements []
  expect (.mark .rbrace)
  return body

/-- Reads a condition in parentheses and the block that it guards. -/
def branch (loc : Loc) : Cursor Branch := do
  let e ← guarded
  return .mk e (← block) loc

/-- Reads one more branch of a conditional. -/
def branchesTurn (bs : List Branch) : Cursor (Turn (List Branch)) := do
  let t ← token
  if t.kind = .kind (.keyword .kwElif) then
    let _ ← advance
    return .again (bs ++ [← branch t.loc])
  else return .done bs

/-- Reads the branches of a conditional after the given ones, and the `else` block, if any. -/
def alternatives (bs : List Branch) : Cursor (List Branch × Option (List Stmt)) := do
  let bs ← loop .branches bs
  if ← accept (.keyword .kwElse) then return (bs, some (← block)) else return (bs, none)

/-- Reads a conditional. -/
def cond : Cursor Stmt := do
  let loc ← here
  expect (.keyword .kwIf)
  let parts ← alternatives [← branch loc]
  return .cond parts.1 parts.2 loc

/-- Reads a statement. -/
def stmt : Cursor Stmt := do
  let t ← token
  match t.kind with
  | .kind (.keyword .kwIf) => cond
  | .kind (.keyword .kwWhile) =>
    expect (.keyword .kwWhile)
    let e ← guarded
    return .loop e (← block) t.loc
  | .kind (.keyword .kwFor) =>
    expect (.keyword .kwFor)
    expect (.mark .lparen)
    let v ← var
    expect (.keyword .kwIn)
    let e ← expr
    expect (.mark .rparen)
    return .each v e (← block) t.loc
  | .kind (.keyword .kwReturn) => ret
  | .kind (.keyword .kwBreak) =>
    let _ ← advance
    expect (.mark .semicolon)
    return .brk t.loc
  | .kind (.keyword .kwContinue) =>
    let _ ← advance
    expect (.mark .semicolon)
    return .cont t.loc
  | .kind (.ident _) =>
    if ← secondIs (.mark .lparen) then
      let e ← call
      expect (.mark .semicolon)
      return .expr e
    else assign
  | .kind k =>
    if VarDecl.startsWith k then return .decl (← decl) else throw (unexpected .statement t)
  | _ => throw (unexpected .statement t)

/-- Reads one more statement of a block, up to the brace or an end of input. -/
def statementsTurn (body : List Stmt) : Cursor (Turn (List Stmt)) := do
  if (← check (.mark .rbrace)) || (← isAtEnd) then return .done body
  else return .again (body ++ [← stmt])

/-! ## Import lines -/

/-- Reads a name that an import line may list. Another token is refused but taken. -/
def name : Cursor Name := do
  let t ← advance
  match t.kind with
  | .kind (.ident s) => return ⟨s, .ident⟩
  | .kind (.typeName s) => return ⟨s, .typeName⟩
  | .kind (.op s) => return ⟨s, .op⟩
  | _ => throw (unexpected .importable t)

/-- Reads a name with its alias, if it has one. -/
def importName : Cursor ImportName := do
  let loc ← here
  let n ← name
  if ← accept (.keyword .kwAs) then return ⟨n, some (← name), loc⟩ else return ⟨n, none, loc⟩

/-- Reads one more name if there is a comma before it. -/
def importNamesTurn (ns : List ImportName) : Cursor (Turn (List ImportName)) := do
  if ← accept (.mark .comma) then return .again (ns ++ [← importName]) else return .done ns

/-- Reads an import line. -/
def importLine : Cursor Import := do
  let loc ← here
  expect (.keyword .kwFrom)
  let module ← ident
  if ← accept (.keyword .kwImportAll) then
    expect (.mark .semicolon)
    return ⟨module, .all, loc⟩
  else
    expect (.keyword .kwImport)
    let ns ← loop .importNames [← importName]
    expect (.mark .semicolon)
    return ⟨module, .names ns, loc⟩

/-! ## Items -/

/-- Reads a type synonym. -/
def synonym : Cursor Synonym := do
  let loc ← here
  expect (.keyword .kwType)
  let t ← advance
  match t.kind with
  | .kind (.typeName name) =>
    expect (.mark .assign)
    let ty ← ty
    expect (.mark .semicolon)
    return ⟨name, ty, loc⟩
  | _ => throw (Fault.lowerCaseSynonym.report t.loc)

/-- Reads the precedence and the name of an infix operator. -/
def infixHead (side : Assoc) : Cursor (Head × String) := do
  let p ← precedence
  return (.infixOp ⟨side, p⟩, ← operator)

/-- Reads the kind and the name of a callable. -/
def head : Cursor (Head × String) := do
  match (← token).kind with
  | .kind (.keyword .kwPrefix) =>
    let _ ← advance
    return (.prefixOp, ← operator)
  | .kind (.keyword .kwInfixl) =>
    let _ ← advance
    infixHead .left
  | .kind (.keyword .kwInfixr) =>
    let _ ← advance
    infixHead .right
  | _ => return (.function, ← ident)

/-- Reads one more parameter, and the comma after it if there is one. -/
def paramsTurn (ps : List Param) : Cursor (Turn (List Param)) := do
  let loc ← here
  let name ← ident
  if ← accept (.mark .comma) then return .again (ps ++ [⟨name, loc⟩])
  else return .done (ps ++ [⟨name, loc⟩])

/-- Reads the parameters of a callable, up to the closing parenthesis. -/
def params : Cursor (List Param) := do
  if ← check (.mark .rparen) then return [] else loop .parameters []

/-- Reads the signature of a callable, if it has one, and its body. -/
def fnBody : Cursor (Option Signature × List Stmt) := do
  if ← accept (.mark .doubleColon) then
    let sig ← signature
    return (some sig, ← block)
  else return (none, ← block)

/-- Reads the definition of a callable. -/
def fn : Cursor FnDef := do
  let loc ← here
  let h ← head
  expect (.mark .lparen)
  let ps ← params
  expect (.mark .rparen)
  let body ← fnBody
  return ⟨h.1, h.2, ps, body.1, body.2, loc⟩

/-! ## Declarations -/

/-- Reads one declaration. -/
def declaration : Cursor (Import ⊕ Item) := do
  let t ← token
  match t.kind with
  | .kind (.keyword .kwFrom) => return .inl (← importLine)
  | .kind (.keyword .kwType) => return .inr (.synonym (← synonym))
  | .kind k =>
    if VarDecl.startsWith k then return .inr (.global (← decl))
    else if FnDef.startsWith k then return .inr (.fn (← fn))
    else throw (unexpected .declaration t)
  | _ => throw (unexpected .declaration t)

/-- Looks at one token on the way to where the next declaration probably begins, inside of as many
braces as are open. -/
def recoverTurn (depth : Nat) : Cursor (Turn Nat) := do
  match (← token).kind with
  | .eof => return .done 0
  | .negative _ =>
    let _ ← advance
    return .again depth
  | .kind k =>
    if k = .mark .lbrace then
      let _ ← advance
      return .again (depth + 1)
    else if k = .mark .rbrace then
      let _ ← advance
      if depth ≤ 1 then return .done 0 else return .again (depth - 1)
    else if k = .mark .semicolon ∧ depth = 0 then
      let _ ← advance
      return .done 0
    else if Program.isAnchor k ∧ depth = 0 then return .done 0
    else
      let _ ← advance
      return .again depth

/-- Adds a declaration behind the others, or a fault. -/
def Draft.add (d : Draft) : Except Diagnostic (Import ⊕ Item) → Draft
  | .ok (.inl i) => { d with program.imports := d.program.imports ++ [i] }
  | .ok (.inr i) => { d with program.items := d.program.items ++ [i] }
  | .error e => { d with faults := d.faults ++ [e] }

/-- Reads one declaration, or skips from a fault to where the next one probably begins. -/
def declarationOrFault : Cursor (Except Diagnostic (Import ⊕ Item)) := do
  let r ← attempt declaration
  if r.isOk then return r
  else
    let _ ← loop .recovery 0
    return r

/-- Reads one more declaration, up to an end of input. A turn that has not moved takes a token. -/
def declarationsTurn (d : Draft) : Cursor (Turn Draft) := do
  if ← isAtEnd then return .done d
  else
    let before ← position
    let r ← declarationOrFault
    if (← position) = before then
      let _ ← advance
      return .again (d.add r)
    else return .again (d.add r)

/-- Reads a program, or all its faults. -/
def program : Cursor (Except (List Diagnostic) Program) := do
  let d ← loop .declarations ⟨⟨[], []⟩, []⟩
  return if d.faults.isEmpty then .ok d.program else .error d.faults

/-! ## The grammar -/

/-- One turn of a loop. -/
def Loop.turn : (l : Loop) → l.State → Cursor (Turn l.State)
  | declarations => declarationsTurn
  | recovery => recoverTurn
  | importNames => importNamesTurn
  | parameters => paramsTurn
  | types => typesTurn
  | statements => statementsTurn
  | branches => branchesTurn
  | arguments => argumentsTurn
  | operators => operatorsTurn
  | accessors => accessorsTurn

/-- What a loop does after a turn. -/
def Loop.goOn (l : Loop) : Turn l.State → Cursor l.State
  | .again s => loop l s
  | .done s => return s

/-- The readers of the grammar that call the given ones. -/
def Readers.next (r : Readers) : Readers where
  ty := tyStep.run r
  expr := exprStep.run r
  unary := unaryStep.run r
  loop l s := (l.turn s >>= l.goOn).run r

/-- The readers of the grammar that call each other at most so many levels deep. -/
def readers : Nat → Readers
  | 0 => ⟨fun _ _ => none, fun _ _ => none, fun _ _ => none, fun _ _ _ _ => none⟩
  | n + 1 => (readers n).next

end Cursor

end SplFrontend
