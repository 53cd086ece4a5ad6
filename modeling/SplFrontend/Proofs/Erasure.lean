import SplFrontend.Program

/-!
# Erasure

Two trees are compared by what is left of them when some of their data is taken away. Places always
go. Beyond places an `Erasure` may forget what variables refer to, what types and bindings the
passes have found, and that infix calls have been grouped. Four erasures are used:

* `Erasure.places` forgets places only: `unlocated` is equality up to places;
* `Erasure.resolution` forgets all that no source text can write: an infix call becomes the sequence
  of two operands as which it is printed;
* `Erasure.grouping` keeps what variables refer to, as after scoping;
* `Erasure.typing` also keeps infix calls, as after grouping.
-/

namespace SplFrontend

/-- What is kept of a tree besides its shape and its names. -/
structure Erasure where
  /-- What becomes of the reference of a variable. -/
  ref : Ref → Ref
  /-- The name stays as it is written. -/
  name_ref : ∀ r, (ref r).name = r.name
  /-- Are types of variables and empty lists kept, and bindings of calls? -/
  types : Bool
  /-- Are infix calls kept, or turned back into sequences? -/
  groups : Bool

/-- The call of a name, as it is kept. -/
def Erasure.call (k : Erasure) (kind : CallKind) (name : String) (args : List Expr) : Expr :=
  match kind, args with
  | .infixOp, [l, r] =>
    if k.groups then .call .infixOp name [l, r] .nowhere
    else .flat l [(⟨name, .nowhere⟩, r)] .nowhere
  | kind, args => .call kind name args .nowhere

/-- A call stays a call where groups are kept. -/
theorem Erasure.call_of_groups {k : Erasure} (h : k.groups = true) (kind : CallKind) (name : String)
    (args : List Expr) : k.call kind name args = .call kind name args .nowhere := by
  unfold Erasure.call
  split <;> simp [h]

/-- A call is kept as a call, or as the sequence of two operands. -/
theorem Erasure.call_cases (k : Erasure) (kind : CallKind) (name : String) (args : List Expr) :
    k.call kind name args = .call kind name args .nowhere ∨
      ∃ l r, kind = .infixOp ∧ args = [l, r] ∧
        k.call kind name args = .flat l [(⟨name, .nowhere⟩, r)] .nowhere := by
  unfold Erasure.call
  split
  · next l r =>
    split
    · exact .inl rfl
    · exact .inr ⟨l, r, rfl, rfl, rfl⟩
  · exact .inl rfl

/-- What is kept of a variable. -/
def Variable.erase (k : Erasure) (v : Variable) : Variable :=
  ⟨k.ref v.ref, v.accessors, if k.types then v.ty else none, .nowhere⟩

mutual

/-- What is kept of an expression. -/
def Expr.erase (k : Erasure) : Expr → Expr
  | .int n _ => .int n .nowhere
  | .char c _ => .char c .nowhere
  | .bool b _ => .bool b .nowhere
  | .str s _ => .str s .nowhere
  | .emptyList ty _ => .emptyList (if k.types then ty else none) .nowhere
  | .pair a b _ => .pair (a.erase k) (b.erase k) .nowhere
  | .var v => .var (v.erase k)
  | .flat e rest _ => .flat (e.erase k) (Expr.eraseRest k rest) .nowhere
  | .call kind name args _ => k.call kind name (Expr.eraseArgs k args)
  | .bound b args _ =>
    if k.types then .bound b (Expr.eraseArgs k args) .nowhere
    else k.call b.kind b.name (Expr.eraseArgs k args)

/-- What is kept of arguments. -/
def Expr.eraseArgs (k : Erasure) : List Expr → List Expr
  | [] => []
  | e :: es => e.erase k :: Expr.eraseArgs k es

/-- What is kept of the operators and operands of a sequence. -/
def Expr.eraseRest (k : Erasure) : List (OpUse × Expr) → List (OpUse × Expr)
  | [] => []
  | (op, e) :: rest => (⟨op.name, .nowhere⟩, e.erase k) :: Expr.eraseRest k rest

end

/-- What is kept of a declaration. -/
def VarDecl.erase (k : Erasure) (d : VarDecl) : VarDecl := ⟨d.name, d.ty, d.init.erase k, .nowhere⟩

mutual

/-- What is kept of a statement. -/
def Stmt.erase (k : Erasure) : Stmt → Stmt
  | .decl d => .decl (d.erase k)
  | .assign v e _ => .assign (v.erase k) (e.erase k) .nowhere
  | .cond bs none _ => .cond (Branch.eraseAll k bs) none .nowhere
  | .cond bs (some body) _ => .cond (Branch.eraseAll k bs) (some (Stmt.eraseAll k body)) .nowhere
  | .loop e body _ => .loop (e.erase k) (Stmt.eraseAll k body) .nowhere
  | .each v e body _ => .each (v.erase k) (e.erase k) (Stmt.eraseAll k body) .nowhere
  | .ret e _ => .ret (e.map (Expr.erase k)) .nowhere
  | .brk _ => .brk .nowhere
  | .cont _ => .cont .nowhere
  | .expr e => .expr (e.erase k)

/-- What is kept of a block. -/
def Stmt.eraseAll (k : Erasure) : List Stmt → List Stmt
  | [] => []
  | s :: ss => s.erase k :: Stmt.eraseAll k ss

/-- What is kept of branches. -/
def Branch.eraseAll (k : Erasure) : List Branch → List Branch
  | [] => []
  | .mk e body _ :: bs => .mk (e.erase k) (Stmt.eraseAll k body) .nowhere :: Branch.eraseAll k bs

end

/-- The name without its place. -/
def ImportName.unlocated (n : ImportName) : ImportName := { n with loc := .nowhere }

/-- The import line without its places. -/
def Import.unlocated (i : Import) : Import :=
  ⟨i.module,
    match i.names with
    | .all => .all
    | .names ns => .names (ns.map ImportName.unlocated),
    .nowhere⟩

/-- What is kept of the definition of a callable. -/
def FnDef.erase (k : Erasure) (f : FnDef) : FnDef :=
  ⟨f.head, f.name, f.params.map fun p => ⟨p.name, .nowhere⟩, f.sig,
    Stmt.eraseAll k f.body, .nowhere⟩

/-- What is kept of an item. -/
def Item.erase (k : Erasure) : Item → Item
  | .synonym s => .synonym ⟨s.name, s.ty, .nowhere⟩
  | .global d => .global (d.erase k)
  | .fn f => .fn (f.erase k)

/-- What is kept of a program. -/
def Program.erase (k : Erasure) (p : Program) : Program :=
  ⟨p.imports.map Import.unlocated, p.items.map (Item.erase k)⟩

theorem Expr.eraseArgs_eq_map (k : Erasure) (args : List Expr) :
    Expr.eraseArgs k args = args.map (Expr.erase k) := by
  induction args with
  | nil => rw [Expr.eraseArgs, List.map_nil]
  | cons e es ih => rw [Expr.eraseArgs, ih, List.map_cons]

theorem Expr.eraseRest_eq_map (k : Erasure) (rest : List (OpUse × Expr)) :
    Expr.eraseRest k rest = rest.map fun x => (⟨x.1.name, .nowhere⟩, x.2.erase k) := by
  induction rest with
  | nil => rw [Expr.eraseRest, List.map_nil]
  | cons x rest ih =>
    obtain ⟨op, e⟩ := x
    rw [Expr.eraseRest, ih, List.map_cons]

theorem Stmt.erase_cond (k : Erasure) (bs : List Branch) (o : Option (List Stmt)) (l : Loc) :
    (Stmt.cond bs o l).erase k =
      .cond (Branch.eraseAll k bs) (o.map (Stmt.eraseAll k)) .nowhere := by
  cases o <;> rw [Stmt.erase] <;> rfl

namespace Erasure

/-- Forgets places only. -/
def places : Erasure := ⟨id, fun _ => rfl, true, true⟩

/-- Forgets what the passes have found out. -/
def resolution : Erasure := ⟨fun r => .unresolved r.name, fun _ => rfl, false, false⟩

/-- Forgets types, bindings and groups. -/
def grouping : Erasure := ⟨id, fun _ => rfl, false, false⟩

/-- Forgets types and bindings. -/
def typing : Erasure := ⟨id, fun _ => rfl, false, true⟩

end Erasure

/-- The expression up to places. -/
abbrev Expr.unlocated : Expr → Expr := Expr.erase .places

/-- The program up to places. -/
abbrev Program.unlocated : Program → Program := Program.erase .places

/-- The program as a source text writes it. -/
abbrev Program.written : Program → Program := Program.erase .resolution

end SplFrontend
