import SplFrontend.Proofs.Recorded

/-!
# Uses and declarations in their order

A body is read from its beginning to its end, whatever blocks it has. What matters for names is then
one list of events: a variable is used, or one is declared, which counts from the end of its
initializer on. A pass goes through the places of a body in this order
(`Stmt.placesAll_rewriteAll`), and scoping through the uses at each place (`Scoping.uses_place`).
-/

namespace SplFrontend

/-! ## Passes in the order of the places -/

section

variable {m : Type → Type} [Monad m] [LawfulMonad m] (w : Rewriter m)

mutual

theorem Stmt.places_rewrite : ∀ st : Stmt, Stmt.places <$> Stmt.rewrite w st = st.places.mapM w.at
  | .decl d => by simp [Stmt.rewrite, Stmt.places, Rewriter.at]
  | .assign v e l => by simp [Stmt.rewrite, Stmt.places, Rewriter.at]
  | .cond bs none l => by simp [Stmt.rewrite, Stmt.places, ← Branch.placesAll_rewriteAll bs]
  | .cond bs (some body) l => by
    simp [Stmt.rewrite, Stmt.places, ← Branch.placesAll_rewriteAll bs,
      ← Stmt.placesAll_rewriteAll body]
  | .loop e body l => by
    simp [Stmt.rewrite, Stmt.places, Rewriter.at, ← Stmt.placesAll_rewriteAll body]
  | .each v e body l => by
    simp [Stmt.rewrite, Stmt.places, Rewriter.at, ← Stmt.placesAll_rewriteAll body]
  | .ret e l => by simp [Stmt.rewrite, Stmt.places, Rewriter.at]
  | .brk l => by simp [Stmt.rewrite, Stmt.places]
  | .cont l => by simp [Stmt.rewrite, Stmt.places]
  | .expr e => by simp [Stmt.rewrite, Stmt.places, Rewriter.at]

/-- A rewriter visits the places of a block one after the other, and leaves as many. -/
theorem Stmt.placesAll_rewriteAll : ∀ body : List Stmt,
    Stmt.placesAll <$> Stmt.rewriteAll w body = (Stmt.placesAll body).mapM w.at
  | [] => by simp [Stmt.rewriteAll, Stmt.placesAll]
  | st :: body => by
    simp [Stmt.rewriteAll, Stmt.placesAll, ← Stmt.places_rewrite st,
      ← Stmt.placesAll_rewriteAll body]

theorem Branch.placesAll_rewriteAll : ∀ bs : List Branch,
    Branch.placesAll <$> Branch.rewriteAll w bs = (Branch.placesAll bs).mapM w.at
  | [] => by simp [Branch.rewriteAll, Branch.placesAll]
  | .mk e body l :: bs => by
    simp [Branch.rewriteAll, Branch.placesAll, Rewriter.at, ← Stmt.placesAll_rewriteAll body,
      ← Branch.placesAll_rewriteAll bs]

end

end

/-! ## Uses -/

mutual

/-- The variables in an expression, from left to right. -/
def Expr.uses : Expr → List Variable
  | .var v => [v]
  | .pair a b _ => a.uses ++ b.uses
  | .flat e rest _ => e.uses ++ Expr.usesRest rest
  | .call _ _ args _ | .bound _ args _ => Expr.usesArgs args
  | .int .. | .char .. | .bool .. | .str .. | .emptyList .. => []

/-- The variables in arguments. -/
def Expr.usesArgs : List Expr → List Variable
  | [] => []
  | e :: es => e.uses ++ Expr.usesArgs es

/-- The variables in the operands of a flat sequence. -/
def Expr.usesRest : List (OpUse × Expr) → List Variable
  | [] => []
  | (_, e) :: rest => e.uses ++ Expr.usesRest rest

end

/-- The variables at a place, from left to right. -/
def Place.uses : Place → List Variable
  | .decl d => d.init.uses
  | .assign v e | .each v e => v :: e.uses
  | .guard e | .call e => e.uses
  | .ret _ none => []
  | .ret _ (some e) => e.uses

section

variable {N : Nodes}

mutual

theorem Expr.All.var : ∀ {e : Expr}, e.All N → ∀ v ∈ e.uses, N.var v
  | .int .., _ | .char .., _ | .bool .., _ | .str .., _ | .emptyList .., _ => List.forall_mem_nil _
  | .var _, h => List.forall_mem_singleton.2 h
  | .pair .., h => List.forall_mem_append.2 ⟨h.1.var, h.2.var⟩
  | .flat .., h => List.forall_mem_append.2 ⟨h.2.1.var, h.2.2.var⟩
  | .call .., h => Expr.AllArgs.var h
  | .bound .., h => h.2.var

theorem Expr.AllArgs.var : ∀ {es : List Expr}, Expr.AllArgs N es → ∀ v ∈ Expr.usesArgs es, N.var v
  | [], _ => List.forall_mem_nil _
  | _ :: _, h => List.forall_mem_append.2 ⟨h.1.var, h.2.var⟩

theorem Expr.AllRest.var :
    ∀ {rest : List (OpUse × Expr)}, Expr.AllRest N rest → ∀ v ∈ Expr.usesRest rest, N.var v
  | [], _ => List.forall_mem_nil _
  | (_, _) :: _, h => List.forall_mem_append.2 ⟨h.1.var, h.2.var⟩

end

theorem Place.All.var : ∀ {p : Place}, p.All N → ∀ v ∈ p.uses, N.var v
  | .decl _, h | .guard _, h | .call _, h => Expr.All.var h
  | .assign .., h | .each .., h => List.forall_mem_cons.2 ⟨h.1, h.2.var⟩
  | .ret _ none, _ => List.forall_mem_nil _
  | .ret _ (some e), h => Expr.All.var (h e rfl)

end

namespace Scoping

variable {f : Variable → Noted Variable}

mutual

theorem uses_expr : ∀ e : Expr, Expr.uses <$> expr f e = e.uses.mapM f
  | .int .. | .char .. | .bool .. | .str .. | .emptyList .. => by simp [expr, Expr.uses]
  | .var v => by simp [expr, Expr.uses]
  | .pair a b _ => by simp [expr, Expr.uses, ← uses_expr a, ← uses_expr b]
  | .flat e rest _ => by simp [expr, Expr.uses, ← uses_expr e, ← uses_operands rest]
  | .call _ _ as _ | .bound _ as _ => by simp [expr, Expr.uses, ← uses_exprs as]

theorem uses_exprs : ∀ es : List Expr, Expr.usesArgs <$> exprs f es = (Expr.usesArgs es).mapM f
  | [] => by simp [exprs, Expr.usesArgs]
  | e :: es => by simp [exprs, Expr.usesArgs, ← uses_expr e, ← uses_exprs es]

theorem uses_operands : ∀ rest : List (OpUse × Expr),
    Expr.usesRest <$> operands f rest = (Expr.usesRest rest).mapM f
  | [] => by simp [operands, Expr.usesRest]
  | (_, e) :: rest => by simp [operands, Expr.usesRest, ← uses_expr e, ← uses_operands rest]

end

theorem uses_place (p : Place) : Place.uses <$> place f p = p.uses.mapM f := by
  cases p with
  | ret l e => cases e <;> simp [place, Place.uses, ← uses_expr]
  | _ => simp [place, Place.uses, ← uses_expr]

end Scoping

/-! ## Events -/

/-- What happens to names. -/
inductive Event where
  /-- A variable is used. -/
  | use (v : Variable)
  /-- A variable is declared. -/
  | decl (name : String) (loc : Loc)

/-- The name that is declared, and where. -/
def Event.decl? : Event → Option (String × Loc)
  | .use _ => none
  | .decl name loc => some (name, loc)

/-- The names that are declared, in their order. -/
def Event.declared (es : List Event) : List (String × Loc) := es.filterMap Event.decl?

/-- The declaration at a place. -/
def Place.declEvents (p : Place) : List Event := p.decl?.toList.map fun d => .decl d.name d.loc

/-- The events at a place. A declaration comes after its initializer. -/
def Place.events (p : Place) : List Event := p.uses.map .use ++ p.declEvents

/-- The events of an item, in all blocks of a body from its beginning to its end. -/
def Item.events : Item → List Event
  | .synonym _ => []
  | .global d => d.init.uses.map .use
  | .fn f => (Stmt.placesAll f.body).flatMap Place.events

namespace Event

variable {α : Type} (f : List (String × Loc) → Event → α)

/-- Maps events, each by what is declared before it, after some declarations. -/
def mapAfter (before : List (String × Loc)) : List Event → List α
  | [] => []
  | e :: es => f before e :: mapAfter (before ++ e.decl?.toList) es

theorem declared_cons (e : Event) (es : List Event) :
    declared (e :: es) = e.decl?.toList ++ declared es := by
  cases e <;> rfl

theorem declared_append (es es' : List Event) :
    declared (es ++ es') = declared es ++ declared es' :=
  List.filterMap_append

theorem mapAfter_append (before : List (String × Loc)) (es es' : List Event) :
    mapAfter f before (es ++ es') = mapAfter f before es ++
      mapAfter f (before ++ declared es) es' := by
  induction es generalizing before with
  | nil => rw [declared, List.filterMap_nil, List.append_nil]; rfl
  | cons e es ih => simp only [List.cons_append, mapAfter, ih, declared_cons, List.append_assoc]

/-- Uses declare nothing. -/
theorem declared_uses (vs : List Variable) : declared (vs.map .use) = [] :=
  List.filterMap_eq_nil_iff.2 fun e he => by
    obtain ⟨v, -, rfl⟩ := List.mem_map.1 he
    rfl

theorem mapAfter_uses (before : List (String × Loc)) (vs : List Variable) :
    mapAfter f before (vs.map .use) = vs.map fun v => f before (.use v) := by
  induction vs with
  | nil => rfl
  | cons v vs ih =>
    simp only [List.map_cons, mapAfter, decl?, Option.toList_none, List.append_nil, ih]

/-- What is declared before an event is what is declared among those that it follows. -/
theorem mapAfter_eq_mapIdx (before : List (String × Loc)) (es : List Event) :
    mapAfter f before es = es.mapIdx fun k e => f (before ++ declared (es.take k)) e := by
  induction es generalizing before with
  | nil => rfl
  | cons e es ih =>
    rw [mapAfter, ih, List.mapIdx_cons]
    simp only [List.take_zero, List.take_succ_cons, declared_cons, List.append_assoc]
    simp [declared]

end Event

end SplFrontend
