import SplFrontend.Proofs.Nodes

/-!
# Relabelling

The passes leave marks in the tree: what a variable refers to, the types of variables and empty
lists, and the overload that a call is bound to. A `Relabel` changes these marks and nothing else;
in particular every place stays. `Relabel.bare` takes all marks away, and what is left is as a
source text writes it. A block and its relabelled form walk in step (`Stmt.walk_relabelAll`), so
what is known place by place is known of the whole.
-/

namespace SplFrontend

/-- What becomes of the marks in a tree. -/
structure Relabel where
  var : Variable → Variable
  loc_var : ∀ v, (var v).loc = v.loc
  /-- The type of an empty list. -/
  empty : Option Ty → Option Ty
  /-- The overload of a bound call, which without one becomes an open call. -/
  bound : Binding → Option Binding

/-- A bound call with other marks. -/
def Relabel.call (g : Relabel) (b : Binding) (args : List Expr) (l : Loc) : Expr :=
  match g.bound b with
  | some b' => .bound b' args l
  | none => .call b.kind b.name args l

mutual

/-- The expression with other marks. -/
def Expr.relabel (g : Relabel) : Expr → Expr
  | .int n l => .int n l
  | .char c l => .char c l
  | .bool b l => .bool b l
  | .str s l => .str s l
  | .emptyList ty l => .emptyList (g.empty ty) l
  | .pair a b l => .pair (a.relabel g) (b.relabel g) l
  | .var v => .var (g.var v)
  | .flat e rest l => .flat (e.relabel g) (Expr.relabelRest g rest) l
  | .call kind name args l => .call kind name (Expr.relabelArgs g args) l
  | .bound b args l => g.call b (Expr.relabelArgs g args) l

/-- The arguments with other marks. -/
def Expr.relabelArgs (g : Relabel) : List Expr → List Expr
  | [] => []
  | e :: es => e.relabel g :: Expr.relabelArgs g es

/-- The operands of a sequence with other marks. -/
def Expr.relabelRest (g : Relabel) : List (OpUse × Expr) → List (OpUse × Expr)
  | [] => []
  | (op, e) :: rest => (op, e.relabel g) :: Expr.relabelRest g rest

end

/-- The declaration with other marks. -/
def VarDecl.relabel (g : Relabel) (d : VarDecl) : VarDecl := { d with init := d.init.relabel g }

mutual

/-- The statement with other marks. -/
def Stmt.relabel (g : Relabel) : Stmt → Stmt
  | .decl d => .decl (d.relabel g)
  | .assign v e l => .assign (g.var v) (e.relabel g) l
  | .cond bs none l => .cond (Branch.relabelAll g bs) none l
  | .cond bs (some body) l => .cond (Branch.relabelAll g bs) (some (Stmt.relabelAll g body)) l
  | .loop e body l => .loop (e.relabel g) (Stmt.relabelAll g body) l
  | .each v e body l => .each (g.var v) (e.relabel g) (Stmt.relabelAll g body) l
  | .ret e l => .ret (e.map (Expr.relabel g)) l
  | .brk l => .brk l
  | .cont l => .cont l
  | .expr e => .expr (e.relabel g)

/-- The block with other marks. -/
def Stmt.relabelAll (g : Relabel) : List Stmt → List Stmt
  | [] => []
  | s :: ss => s.relabel g :: Stmt.relabelAll g ss

/-- The branches with other marks. -/
def Branch.relabelAll (g : Relabel) : List Branch → List Branch
  | [] => []
  | .mk e body l :: bs => .mk (e.relabel g) (Stmt.relabelAll g body) l :: Branch.relabelAll g bs

end

/-- The place with other marks. -/
def Place.relabel (g : Relabel) : Place → Place
  | .decl d => .decl (d.relabel g)
  | .assign v e => .assign (g.var v) (e.relabel g)
  | .guard e => .guard (e.relabel g)
  | .each v e => .each (g.var v) (e.relabel g)
  | .ret l e => .ret l (e.map (Expr.relabel g))
  | .call e => .call (e.relabel g)

/-- The item with other marks. -/
def Item.relabel (g : Relabel) : Item → Item
  | .synonym s => .synonym s
  | .global d => .global (d.relabel g)
  | .fn f => .fn { f with body := Stmt.relabelAll g f.body }

/-- The program with other marks. -/
def Program.relabel (g : Relabel) (p : Program) : Program :=
  { p with items := p.items.map (Item.relabel g) }

variable {g : Relabel}

theorem Expr.loc_relabel (e : Expr) : (e.relabel g).loc = e.loc := by
  cases e with
  | var v => exact g.loc_var v
  | bound b args l =>
    rw [Expr.relabel, Relabel.call]
    split <;> rfl
  | _ => rfl

theorem Stmt.loc_relabel (s : Stmt) : (s.relabel g).loc = s.loc := by
  cases s with
  | cond bs o l => cases o <;> rfl
  | expr e => exact e.loc_relabel
  | _ => rfl

mutual

theorem Stmt.walk_relabel (g : Relabel) : ∀ s : Stmt,
    Stmt.Walk Eq (fun _ p q _ => q = p.relabel g) () s (s.relabel g) ()
  | .decl _ => .decl rfl
  | .assign .. => .assign rfl rfl
  | .cond bs none _ => .condNone rfl (Branch.walk_relabelAll g bs)
  | .cond bs (some body) _ =>
    .condSome rfl (Branch.walk_relabelAll g bs) (Stmt.walk_relabelAll g body)
  | .loop _ body _ => .loop rfl rfl (Stmt.walk_relabelAll g body)
  | .each _ _ body _ => .each rfl rfl (Stmt.walk_relabelAll g body)
  | .ret .. => .ret rfl rfl
  | .brk _ => .brk rfl
  | .cont _ => .cont rfl
  | .expr _ => .expr rfl

/-- A block and its relabelled form walk in step. -/
theorem Stmt.walk_relabelAll (g : Relabel) : ∀ b : List Stmt,
    Stmt.WalkAll Eq (fun _ p q _ => q = p.relabel g) () b (Stmt.relabelAll g b) ()
  | [] => .nil
  | s :: ss => .cons (Stmt.walk_relabel g s) (Stmt.walk_relabelAll g ss)

theorem Branch.walk_relabelAll (g : Relabel) : ∀ bs : List Branch,
    Branch.WalkAll Eq (fun _ p q _ => q = p.relabel g) () bs (Branch.relabelAll g bs) ()
  | [] => .nil
  | .mk _ body _ :: bs => .cons rfl rfl (Stmt.walk_relabelAll g body) (Branch.walk_relabelAll g bs)

end

section

variable {σ : Type} {R : σ → Place → Place → σ → Prop} {s s' : σ} {a b : List Stmt}

/-- The second block of a walk may be relabelled. -/
theorem Stmt.WalkAll.relabel_right {E : Place → Place → Prop} (h : Stmt.WalkAll Eq R s a b s')
    (hr : ∀ {s p q s'}, R s p q s' → E p (q.relabel g)) :
    Stmt.WalkAll Eq (fun _ p q _ => E p q) () a (Stmt.relabelAll g b) () := by
  refine (h.trans (Stmt.walk_relabelAll g b)).map (f := fun _ => ()) ?_ ?_
  · rintro l l' ⟨_, rfl, rfl⟩
    rfl
  · rintro s p q s' ⟨r, hpr, rfl⟩
    exact hr hpr

/-- Both blocks of a walk may be relabelled. -/
theorem Stmt.WalkAll.relabel {E : Place → Place → Prop} (h : Stmt.WalkAll Eq R s a b s')
    (hr : ∀ {s p q s'}, R s p q s' → E (p.relabel g) (q.relabel g)) :
    Stmt.WalkAll Eq (fun _ p q _ => E p q) () (Stmt.relabelAll g a) (Stmt.relabelAll g b) () := by
  have hleft : Stmt.WalkAll Eq (fun _ q p _ => E (p.relabel g) q) () (Stmt.relabelAll g b) a () :=
    (h.relabel_right (E := fun p q => E (p.relabel g) q) hr).symm.mono Eq.symm id
  exact (hleft.relabel_right (E := fun q p => E p q) id).symm.mono Eq.symm id

/-- Blocks whose places are the same are the same. -/
theorem Stmt.WalkAll.eq (h : Stmt.WalkAll Eq R s a b s') (hr : ∀ {s p q s'}, R s p q s' → q = p) :
    b = a := by
  have hsame : Stmt.WalkAll Eq (fun _ p q _ => q = p) () a b () := h.map (f := fun _ => ()) id hr
  exact hsame.unique (fun ⟨_, _, hq⟩ ⟨_, _, hq'⟩ => hq.trans hq'.symm) (Stmt.walkAll_refl a)

/-- A block is the relabelled form of another one if its places are. -/
theorem Stmt.WalkAll.eq_relabelAll (h : Stmt.WalkAll Eq R s a b s')
    (hr : ∀ {s p q s'}, R s p q s' → q.relabel g = p) : Stmt.relabelAll g b = a :=
  (h.relabel_right (E := fun p q => q = p) hr).eq id

/-- Two blocks are relabelled alike if their places are. -/
theorem Stmt.WalkAll.relabelAll_eq (h : Stmt.WalkAll Eq R s a b s')
    (hr : ∀ {s p q s'}, R s p q s' → q.relabel g = p.relabel g) :
    Stmt.relabelAll g b = Stmt.relabelAll g a :=
  (h.relabel (E := fun p q => q = p) hr).eq id

end

/-- A block stays as it is if its places do. -/
theorem Stmt.relabelAll_of_holds {b : List Stmt} (h : Stmt.HoldsAll (fun p => p.relabel g = p) b) :
    Stmt.relabelAll g b = b :=
  ((Stmt.walkAll_refl b).and h).eq_relabelAll fun ⟨hq, hp⟩ => by rw [hq, hp]

end SplFrontend
