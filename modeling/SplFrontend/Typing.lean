import SplFrontend.Fault
import SplFrontend.Stmt.Rewriting
import SplFrontend.Symbols.Visible

/-!
# Typing

The pass that binds every call to one overload and gives every variable and every empty list its
type. Types are found from the leaves up, and the type that is expected from above narrows the
choice of overloads.

A call is bound by trial. Of the overloads with the right number of parameters and the expected
result, each is tried on the arguments, and the trials that fail leave nothing behind. One success
decides; of several, one overload of the module at hand wins over imported ones.

A pair is lenient: if one of its components fits, errors in the other one are *tolerated*. They are
reported, but they do not make a trial fail.
-/

namespace SplFrontend.Typing

/-- The scope of the callable whose body is checked. -/
structure FnScope where
  args : Scope
  locals : Scope
  result : Ty

/-- What an expression is checked against: the tables, and the scope of a callable, which the
initializer of a global does not have. -/
structure Context where
  visible : Visible
  fn : Option FnScope

/-- The declared type of what a variable refers to. -/
def Context.declared (cx : Context) : Ref → Option Ty
  | .own n => (cx.visible.own.globals.lookup n).map Entry.ty
  | .imported _ n _ => (cx.visible.externals.globals.lookup n).map ExternalEntry.ty
  | .localVar n => cx.fn.bind fun s => (s.locals.lookup n).map Entry.ty
  | .argument n => cx.fn.bind fun s => (s.args.lookup n).map Entry.ty
  | .unresolved _ => none

/-- A checked tree, its type if it has one, and the errors in it. -/
structure Checked (α : Type) where
  value : α
  ty : Option Ty
  errors : List Diagnostic := []
  /-- How many of the errors are tolerated. -/
  tolerated : Nat := 0

namespace Checked

variable {α : Type}

/-- How many of the errors are not tolerated. -/
def blocking (c : Checked α) : Nat := c.errors.length - c.tolerated

/-- The tree, with the errors as reports. -/
def noted (c : Checked α) : Noted α := ⟨c.value, c.errors⟩

end Checked

/-- The error of an expression whose type is not the expected one. -/
def mismatch (found : Ty) (expected : Option Ty) (loc : Loc) : List Diagnostic :=
  match expected with
  | some t => if t = found then [] else [(Fault.mismatch t found).report loc]
  | none => []

/-- A literal of a given type. -/
def literal (e : Expr) (ty : Ty) (expected : Option Ty) : Checked Expr :=
  ⟨e, some ty, mismatch ty expected e.loc, 0⟩

/-- The empty list has the expected type, or else the one it was given before. -/
def emptyList (given expected : Option Ty) (loc : Loc) : Checked Expr :=
  match expected <|> given with
  | some (.list e) => ⟨.emptyList (some (.list e)) loc, some (.list e), [], 0⟩
  | some t => ⟨.emptyList none loc, none, [(Fault.emptyListMismatch t).report loc], 0⟩
  | none => ⟨.emptyList none loc, none, [Fault.emptyListUntyped.report loc], 0⟩

/-- A variable has its declared type, followed through its accessors. One that refers to nothing has
been reported before. -/
def variableOf (cx : Context) (expected : Option Ty) (v : Variable) : Checked Variable :=
  match cx.declared v.ref with
  | none => ⟨v, none, [], 0⟩
  | some declared =>
    match declared.narrow v.accessors with
    | .ok ty => ⟨{ v with ty := some ty }, some ty, mismatch ty expected v.loc, 0⟩
    | .error (a, found) => ⟨v, none, [(Fault.access a found).report v.loc], 0⟩

/-- The types that the components of a pair are expected to have, and the error if no pair is
expected. -/
def components (expected : Option Ty) (loc : Loc) : Option Ty × Option Ty × List Diagnostic :=
  match expected with
  | some (.pair a b) => (some a, some b, [])
  | some t => (none, none, [(Fault.unexpectedPair t).report loc])
  | none => (none, none, [])

/-- A pair of checked components. If exactly one of them fits, the errors of the other are
tolerated. A component without a type counts as having the expected one. -/
def pairOf (expected : Option Ty × Option Ty) (front : List Diagnostic) (a b : Checked Expr)
    (loc : Loc) : Checked Expr where
  value := .pair a.value b.value loc
  ty := do return .pair (← a.ty <|> expected.1) (← b.ty <|> expected.2)
  errors := front ++ a.errors ++ b.errors
  tolerated := a.tolerated + b.tolerated +
    if (a.blocking == 0) = (b.blocking == 0) then 0 else a.blocking + b.blocking

/-- The outcome of trying an overload: the checked arguments, and the errors tolerated in them. -/
structure Trial where
  args : List Expr
  errors : List Diagnostic

/-- May the overload take this many arguments and have the expected result? -/
def mayFit (count : Nat) (expected : Option Ty) (c : Candidate) : Bool :=
  c.sig.params.length = count && expected.all (· = c.sig.result)

/-- The trial that decides a call, if one does. -/
def winner : List (Candidate × Trial) → Option (Candidate × Trial)
  | [] => none
  | [t] => some t
  | ts =>
    match ts.filter (·.1.isLocal) with
    | [t] => some t
    | _ => none

/-- A call bound to an overload. All errors of the trial are tolerated. -/
def bound (kind : CallKind) (name : String) (loc : Loc) (c : Candidate) (t : Trial) :
    Checked Expr :=
  ⟨.bound ⟨kind, name, c.exported, c.index, c.module, c.sig.result⟩ t.args loc, some c.sig.result,
    t.errors, t.errors.length⟩

/-- A call that stays unbound. -/
def unbound (kind : CallKind) (name : String) (args : List Expr) (loc : Loc) (f : Fault) :
    Checked Expr :=
  ⟨.call kind name args loc, none, [f.report loc], 0⟩

/-- The overloads that pass a trial, with the trials. -/
def trials (candidates : List Candidate) (count : Nat) (expected : Option Ty)
    (attempt : List Ty → Option Trial) : List (Candidate × Trial) :=
  (candidates.filter (mayFit count expected)).filterMap fun c =>
    (attempt c.sig.params).map fun t => (c, t)

/-- A call, given how parameters are tried on its arguments and what types those have on their own,
which is asked only to report a failure. -/
def callOf (v : Visible) (kind : CallKind) (name : String) (args : List Expr) (loc : Loc)
    (expected : Option Ty) (attempt : List Ty → Option Trial) (types : Unit → List (Option Ty)) :
    Checked Expr :=
  let candidates := v.candidates kind name
  let passed := trials candidates args.length expected attempt
  match winner passed with
  | some (c, t) => bound kind name loc c t
  | none =>
    unbound kind name args loc <|
      if candidates.isEmpty then .undefinedCallable kind name
      else if passed.isEmpty then .noOverload kind name expected (types ())
      else .ambiguous kind name expected.isSome passed.length

mutual

/-- Checks an expression. -/
def expr (cx : Context) (expected : Option Ty) : Expr → Checked Expr
  | .int n l => literal (.int n l) .int expected
  | .char c l => literal (.char c l) .char expected
  | .bool b l => literal (.bool b l) .bool expected
  | .str s l => literal (.str s l) (.list .char) expected
  | .emptyList given l => emptyList given expected l
  | .pair a b l =>
    let (ea, eb, front) := components expected l
    pairOf (ea, eb) front (expr cx ea a) (expr cx eb b) l
  | .var v =>
    let c := variableOf cx expected v
    ⟨.var c.value, c.ty, c.errors, c.tolerated⟩
  | .flat e rest l => ⟨.flat e rest l, none, [], 0⟩
  | .call k n as l =>
    callOf cx.visible k n as l expected (fun ps => matchArgs cx as ps) fun _ => argTypes cx as
  | .bound b as l =>
    match cx.visible.target b with
    | some c =>
      let r := recheckArgs cx as c.sig.params
      ⟨.bound b r.value l, some b.ty, r.errors ++ mismatch b.ty expected l, r.tolerated⟩
    | none =>
      callOf cx.visible b.kind b.name as l expected (fun ps => matchArgs cx as ps) fun _ =>
        argTypes cx as

/-- Tries parameters on arguments. The first argument with an error that is not tolerated decides
against them. -/
def matchArgs (cx : Context) : List Expr → List Ty → Option Trial
  | a :: as, p :: ps =>
    let r := expr cx (some p) a
    if r.blocking = 0 then
      (matchArgs cx as ps).map fun t => ⟨r.value :: t.args, r.errors ++ t.errors⟩
    else none
  | _, _ => some ⟨[], []⟩

/-- Checks the arguments of a call that is bound already. -/
def recheckArgs (cx : Context) : List Expr → List Ty → Checked (List Expr)
  | a :: as, p :: ps =>
    let r := expr cx (some p) a
    let rs := recheckArgs cx as ps
    ⟨r.value :: rs.value, none, r.errors ++ rs.errors, r.tolerated + rs.tolerated⟩
  | _, _ => ⟨[], none, [], 0⟩

/-- The types that arguments have on their own. -/
def argTypes (cx : Context) : List Expr → List (Option Ty)
  | [] => []
  | a :: as => (expr cx none a).ty :: argTypes cx as

end

/-! ## Constant initializers -/

mutual

/-- The calls in an initializer that are not bound to a constant overload. -/
def constants (v : Visible) : Expr → List Diagnostic
  | .bound b as l =>
    (if (v.target b).any Candidate.constant then [] else [(Fault.notConstant b.name).report l]) ++
      constantArgs v as
  | .pair a b _ => constants v a ++ constants v b
  | _ => []

/-- The calls in arguments that are not bound to a constant overload. -/
def constantArgs (v : Visible) : List Expr → List Diagnostic
  | [] => []
  | a :: as => constants v a ++ constantArgs v as

end

/-! ## Statements and items -/

/-- Checks the value of a return statement. -/
def returned (cx : Context) (loc : Loc) (value : Option Expr) : Noted (Option Expr) :=
  match cx.fn, value with
  | none, _ => pure value
  | some s, some e =>
    if s.result.isVoid then do
      Noted.note (Fault.valueInVoid.report loc)
      return some e
    else do return some (← (expr cx (some s.result) e).noted)
  | some s, none => do
    if !s.result.isVoid then Noted.note ((Fault.missingValue s.result).report loc)
    return none

/-- Checks a variable and, if it has a type, an expression that must have a type made from it. -/
def against (cx : Context) (wanted : Ty → Ty) (v : Variable) (e : Expr) :
    Noted (Variable × Expr) := do
  let c := variableOf cx none v
  let v ← c.noted
  match c.ty with
  | some t => return (v, ← (expr cx (some (wanted t)) e).noted)
  | none => return (v, e)

/-- Checks the initializer of a declaration that has a type. -/
def declared (cx : Context) (d : VarDecl) : Noted VarDecl :=
  match d.ty with
  | some t => do return { d with init := ← (expr cx (some t) d.init).noted }
  | none => pure d

/-- The pass over a body. -/
def body (cx : Context) : Rewriter Noted where
  decl := declared cx
  assign := against cx id
  guard e := (expr cx (some .bool) e).noted
  each := against cx .list
  ret := returned cx
  call e := (expr cx none e).noted

/-- Checks a global, whose initializer may call constant callables only. -/
def global (v : Visible) (d : VarDecl) : Noted VarDecl := do
  let c ← declared ⟨v, none⟩ d
  if d.ty.isSome then (⟨(), constants v c.init⟩ : Noted Unit)
  return c

/-- Checks the item at some place of the program. A callable without an overload is passed over. -/
def item (v : Visible) (index : Nat) : Item → Noted Item
  | .synonym s => pure (.synonym s)
  | .global d => do return .global (← global v d)
  | .fn f =>
    match v.own.overloadForItem index with
    | none => pure (.fn f)
    | some o => do
      let cx : Context := ⟨v, some ⟨o.args, o.locals, o.sig.result⟩⟩
      return .fn { f with body := ← Stmt.rewriteAll (body cx) f.body }

/-- Checks the items from some place of the program on. -/
def items (v : Visible) : Nat → List Item → Noted (List Item)
  | _, [] => pure []
  | i, it :: rest => do
    let it ← item v i it
    let rest ← items v (i + 1) rest
    return it :: rest

/-- Checks a program. -/
def resolve (v : Visible) (p : Program) : Noted Program := do
  return { p with items := ← items v 0 p.items }

end SplFrontend.Typing
