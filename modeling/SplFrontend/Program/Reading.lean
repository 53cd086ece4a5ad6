import SplFrontend.Program
import SplFrontend.Stmt.Reading
import SplFrontend.Token.Lexed

/-!
# Reading programs

A program is read declaration by declaration. After a fault the reader skips to a likely beginning
of the next declaration (`resume`), so that one text yields all its faults. A program with faults is
no program: reading returns either the whole tree or all the faults.
-/

namespace SplFrontend

open Reading TokenReading

/-! ## Import lines -/

/-- Reads a name that an import line may list. Another token is refused but taken. -/
def Name.read (stop : Loc) : (ts : List Token) → TokenReading Name ts
  | ⟨.ident s, _⟩ :: _ => take ⟨s, .ident⟩
  | ⟨.typeName s, _⟩ :: _ => take ⟨s, .typeName⟩
  | ⟨.op s, _⟩ :: _ => take ⟨s, .op⟩
  | ts => skip stop (.unexpected .importable (peek ts))

/-- Reads a name with its alias, if it has one. -/
def ImportName.read (stop : Loc) (ts : List Token) : TokenReading ImportName ts :=
  ((Name.read stop ts).map fun n => ⟨n, none, here stop ts⟩).extend fun n r _ =>
    match r with
    | ⟨.keyword .kwAs, _⟩ :: r' =>
      some (((Name.read stop r').map fun a => { n with asName := some a }).under)
    | _ => none

/-- Reads one or more names, separated by commas, and the semicolon. -/
def ImportName.readList (stop : Loc) (ts : List Token) : TokenReading (List ImportName) ts :=
  (ImportName.read stop ts).bind fun n r _ =>
    match r with
    | ⟨.mark .comma, _⟩ :: r' => ((readList stop r').map (n :: ·)).under
    | r => (expect stop (.mark .semicolon) r).map fun _ => [n]
termination_by ts.length
decreasing_by simp only [List.length_cons] at *; omega

/-- Reads an import line after the word `from`. -/
def Import.readRest (stop loc : Loc) (ts : List Token) : TokenReading Import ts :=
  (ident stop ts).bind fun module r _ =>
    match r with
    | ⟨.keyword .kwImportAll, _⟩ :: r' =>
      ((expect stop (.mark .semicolon) r').map fun _ => ⟨module, .all, loc⟩).under
    | r =>
      (expect stop (.keyword .kwImport) r).bind fun _ r' _ =>
        (ImportName.readList stop r').map fun ns => ⟨module, .names ns, loc⟩

/-! ## Items -/

/-- Reads a type synonym after the word `type`. -/
def Synonym.readRest (stop loc : Loc) : (ts : List Token) → TokenReading Synonym ts
  | ⟨.typeName name, _⟩ :: ts =>
    ((expect stop (.mark .assign) ts).bind fun _ r₁ _ =>
      (Ty.read stop r₁).bind fun ty r₂ _ =>
        (expect stop (.mark .semicolon) r₂).map fun _ => ⟨name, ty, loc⟩).under
  | _ => skip stop .lowerCaseSynonym

/-- Reads one or more parameters, separated by commas, and the closing parenthesis. -/
def Param.readList (stop : Loc) (ts : List Token) : TokenReading (List Param) ts :=
  (ident stop ts).bind fun name r _ =>
    match r with
    | ⟨.mark .comma, _⟩ :: r' =>
      ((readList stop r').map fun ps => ⟨name, here stop ts⟩ :: ps).under
    | r => (expect stop (.mark .rparen) r).map fun _ => [⟨name, here stop ts⟩]
termination_by ts.length
decreasing_by simp only [List.length_cons] at *; omega

/-- Reads the parameters after the opening parenthesis. -/
def Param.read (stop : Loc) : (ts : List Token) → TokenReading (List Param) ts
  | ⟨.mark .rparen, _⟩ :: _ => take []
  | ts => readList stop ts

/-- Reads a precedence. Another token is refused but taken. -/
def Fixity.readPrecedence (stop : Loc) : (ts : List Token) → TokenReading UInt8 ts
  | ⟨.int n, loc⟩ :: ts =>
    if n < 256 then take n.toUInt8
    else fault ((Fault.precedenceRange n).report loc) ts (Nat.le_succ _)
  | ts => skip stop (.unexpected .precedence (peek ts))

/-- Reads the precedence and the name of an infix operator. -/
def Head.readInfix (stop : Loc) (side : Assoc) (ts : List Token) :
    TokenReading (Head × String) ts :=
  (Fixity.readPrecedence stop ts).bind fun p r _ =>
    (operator stop r).map fun name => (.infixOp ⟨side, p⟩, name)

/-- Reads the kind and the name of a callable. -/
def Head.read (stop : Loc) : (ts : List Token) → TokenReading (Head × String) ts
  | ⟨.keyword .kwPrefix, _⟩ :: ts => ((operator stop ts).map fun name => (.prefixOp, name)).under
  | ⟨.keyword .kwInfixl, _⟩ :: ts => (readInfix stop .left ts).under
  | ⟨.keyword .kwInfixr, _⟩ :: ts => (readInfix stop .right ts).under
  | ts => (ident stop ts).map fun name => (.function, name)

/-- Reads the signature of a callable, if it has one, and its body. -/
def FnDef.readBody (stop : Loc) : (ts : List Token) → TokenReading (Option Signature × List Stmt) ts
  | ⟨.mark .doubleColon, _⟩ :: ts =>
    ((Signature.read stop ts).bind fun sig r _ =>
      (Stmt.block stop r).map fun body => (some sig, body)).under
  | ts => (Stmt.block stop ts).map fun body => (none, body)

/-- Reads the definition of a callable. -/
def FnDef.read (stop : Loc) (ts : List Token) : TokenReading FnDef ts :=
  (Head.read stop ts).bind fun head r₁ _ =>
    (expect stop (.mark .lparen) r₁).bind fun _ r₂ _ =>
      (Param.read stop r₂).bind fun params r₃ _ =>
        (FnDef.readBody stop r₃).map fun body =>
          ⟨head.1, head.2, params, body.1, body.2, here stop ts⟩

/-! ## Declarations -/

/-- Adds a declaration in front of a program. -/
def Program.addImport (i : Import) (p : Program) : Program := { p with imports := i :: p.imports }

/-- Adds an item in front of a program. -/
def Program.addItem (i : Item) (p : Program) : Program := { p with items := i :: p.items }

/-- Can a token begin the definition of a callable? -/
def FnDef.startsWith : Kind → Bool
  | .ident _ | .keyword .kwPrefix | .keyword .kwInfixl | .keyword .kwInfixr => true
  | _ => false

/-- Reads one declaration, as what it adds in front of the rest of the program. -/
def Program.readOne (stop : Loc) : (ts : List Token) → TokenReading (Program → Program) ts
  | [] => leave stop (.unexpected .declaration none)
  | ⟨.keyword .kwFrom, loc⟩ :: ts => ((Import.readRest stop loc ts).map addImport).under
  | ⟨.keyword .kwType, loc⟩ :: ts =>
    ((Synonym.readRest stop loc ts).map fun s => addItem (.synonym s)).under
  | t :: ts =>
    if VarDecl.startsWith t.kind then
      (VarDecl.read stop (t :: ts)).map fun d => addItem (.global d)
    else if FnDef.startsWith t.kind then
      (FnDef.read stop (t :: ts)).map fun f => addItem (.fn f)
    else leave stop (.unexpected .declaration (some t.kind))

/-- Can a token outside of braces only begin a declaration? -/
def Program.isAnchor : Kind → Bool
  | .keyword .kwFrom | .keyword .kwType | .keyword .kwPrefix | .keyword .kwInfixl
  | .keyword .kwInfixr => true
  | _ => false

/-- Skips to where the next declaration probably begins: after a semicolon or a closing brace
outside of all braces opened on the way, or before a word that begins a declaration. -/
def Program.resume : (depth : Nat) → List Token → List Token
  | _, [] => []
  | depth, t :: ts =>
    if t.kind = .mark .lbrace then resume (depth + 1) ts
    else if t.kind = .mark .rbrace then
      if depth ≤ 1 then ts else resume (depth - 1) ts
    else if t.kind = .mark .semicolon ∧ depth = 0 then ts
    else if Program.isAnchor t.kind ∧ depth = 0 then t :: ts
    else resume depth ts

/-- The declarations of a list of tokens, with the faults met on the way. -/
def Program.readAll (stop : Loc) : (ts : List Token) → Program × List Diagnostic
  | [] => (⟨[], []⟩, [])
  | t :: ts =>
    match readOne stop (t :: ts) with
    | .ok add r _ =>
      let rest := readAll stop r
      (add rest.1, rest.2)
    | .fault d r _ =>
      let next := resume 0 r
      let rest := readAll stop (if next.length < (t :: ts).length then next else ts)
      (rest.1, d :: rest.2)
termination_by ts => ts.length
decreasing_by
  · assumption
  · split <;> simp_all

/-- The program that a stream of tokens writes, or all its faults. -/
def Program.ofTokens (s : TokenStream) : Except (List Diagnostic) Program :=
  let (p, faults) := Program.readAll s.stop s.tokens
  if faults.isEmpty then .ok p else .error faults

/-- The program that a text writes, or all its faults. Grammar is looked at only in a text whose
tokens are sound. -/
def Program.ofText (text : String) : Except (List Diagnostic) Program :=
  lex text >>= Program.ofTokens

end SplFrontend
