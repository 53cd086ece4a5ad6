import SplFrontend.Proofs.Fresh
import SplFrontend.Proofs.Walk

/-!
# Properties of all nodes

The passes move a tree from one state to the next: names become references, sequences become groups,
calls become bound, variables and empty lists get types. What may still stand in a tree at some
stage is a property of each node by itself. `Nodes` collects such properties, and `Expr.All` says
that they hold in a whole expression.
-/

namespace SplFrontend

/-- What may stand at the nodes of an expression. -/
structure Nodes where
  /-- Which variables. -/
  var : Variable → Prop
  /-- Which types of empty lists. -/
  empty : Option Ty → Prop
  /-- Are there sequences? -/
  flat : Prop
  /-- Which bindings, at calls with how many arguments. -/
  bound : Binding → Nat → Prop

/-- Whatever the one allows, the other allows as well. -/
structure Nodes.Le (N N' : Nodes) : Prop where
  var : ∀ {v}, N.var v → N'.var v
  empty : ∀ {t}, N.empty t → N'.empty t
  flat : N.flat → N'.flat
  bound : ∀ {b n}, N.bound b n → N'.bound b n

namespace Expr

mutual

/-- All nodes of the expression are allowed. -/
def All (N : Nodes) : Expr → Prop
  | .int .. | .char .. | .bool .. | .str .. => True
  | .emptyList ty _ => N.empty ty
  | .pair a b _ => a.All N ∧ b.All N
  | .var v => N.var v
  | .flat e rest _ => N.flat ∧ e.All N ∧ AllRest N rest
  | .call _ _ args _ => AllArgs N args
  | .bound b args _ => N.bound b args.length ∧ AllArgs N args

/-- All nodes of the arguments are allowed. -/
def AllArgs (N : Nodes) : List Expr → Prop
  | [] => True
  | e :: es => e.All N ∧ AllArgs N es

/-- All nodes of the operands are allowed. -/
def AllRest (N : Nodes) : List (OpUse × Expr) → Prop
  | [] => True
  | (_, e) :: rest => e.All N ∧ AllRest N rest

end

mutual

theorem All.mono {N N' : Nodes} (h : N.Le N') : ∀ {e : Expr}, e.All N → e.All N'
  | .int .., _ | .char .., _ | .bool .., _ | .str .., _ => trivial
  | .emptyList .., he => h.empty he
  | .pair .., he => ⟨he.1.mono h, he.2.mono h⟩
  | .var _, he => h.var he
  | .flat .., he => ⟨h.flat he.1, he.2.1.mono h, AllRest.mono h he.2.2⟩
  | .call .., he => AllArgs.mono h he
  | .bound .., he => ⟨h.bound he.1, AllArgs.mono h he.2⟩

theorem AllArgs.mono {N N' : Nodes} (h : N.Le N') : ∀ {es : List Expr}, AllArgs N es → AllArgs N' es
  | [], _ => trivial
  | _ :: _, he => ⟨he.1.mono h, AllArgs.mono h he.2⟩

theorem AllRest.mono {N N' : Nodes} (h : N.Le N') :
    ∀ {rest : List (OpUse × Expr)}, AllRest N rest → AllRest N' rest
  | [], _ => trivial
  | (_, _) :: _, he => ⟨he.1.mono h, AllRest.mono h he.2⟩

end

theorem allRest_iff {N : Nodes} {rest : List (OpUse × Expr)} :
    AllRest N rest ↔ ∀ x ∈ rest, x.2.All N := by
  induction rest with
  | nil => simp [AllRest]
  | cons x rest ih =>
    obtain ⟨op, e⟩ := x
    simp [AllRest, ih]

end Expr

/-! ## Nodes and erasure -/

/-- The places of variables do not matter. -/
def Nodes.Unlocated (N : Nodes) : Prop := ∀ v : Variable, N.var { v with loc := .nowhere } ↔ N.var v

/-- It does not matter for the nodes what is erased, and calls stay calls. -/
structure Nodes.Ignores (N : Nodes) (k : Erasure) : Prop where
  groups : k.groups = true
  var : ∀ v : Variable, N.var (v.erase k) ↔ N.var v
  empty : ∀ ty : Option Ty, N.empty (if k.types then ty else none) ↔ N.empty ty
  /-- Calls lose their bindings together with the types. -/
  bound : k.types = false → ∀ b n, N.bound b n

/-- What stands at the nodes of an expression that was just read. -/
def Nodes.fresh : Nodes where
  var v := v.ref = .unresolved v.ref.name ∧ v.ty = none
  empty t := t = none
  flat := True
  bound _ _ := False

namespace Expr

variable {N : Nodes} {k : Erasure}

mutual

theorem all_erase (h : N.Ignores k) : ∀ e : Expr, (e.erase k).All N ↔ e.All N
  | .int .. | .char .. | .bool .. | .str .. => by simp only [erase, All]
  | .emptyList ty _ => by
    rw [erase, All, All]
    exact h.empty ty
  | .pair a b _ => by simp only [erase, All, all_erase h a, all_erase h b]
  | .var v => by
    rw [erase, All, All]
    exact h.var v
  | .flat e rest _ => by simp only [erase, All, all_erase h e, allRest_erase h rest]
  | .call kind name args _ => by
    rw [erase, Erasure.call_of_groups h.groups, All, All]
    exact allArgs_erase h args
  | .bound b args _ => by
    rw [erase]
    split
    · rw [All, All, eraseArgs_eq_map, List.length_map, ← eraseArgs_eq_map, allArgs_erase h args]
    · next hk =>
      rw [Erasure.call_of_groups h.groups, All, All, allArgs_erase h args]
      exact (and_iff_right (h.bound (Bool.eq_false_iff.2 hk) b _)).symm

theorem allArgs_erase (h : N.Ignores k) :
    ∀ es : List Expr, AllArgs N (eraseArgs k es) ↔ AllArgs N es
  | [] => by simp only [eraseArgs]
  | e :: es => by simp only [eraseArgs, AllArgs, all_erase h e, allArgs_erase h es]

theorem allRest_erase (h : N.Ignores k) :
    ∀ rest : List (OpUse × Expr), AllRest N (eraseRest k rest) ↔ AllRest N rest
  | [] => by simp only [eraseRest]
  | (op, e) :: rest => by simp only [eraseRest, AllRest, all_erase h e, allRest_erase h rest]

end

theorem all_erase_places (hN : N.Unlocated) (e : Expr) : (e.erase .places).All N ↔ e.All N :=
  all_erase (N := N) (k := .places) ⟨rfl, hN, fun _ => Iff.rfl, fun h => by cases h⟩ e

theorem all_call {kind : CallKind} {name : String} {args : List Expr}
    (hflat : N.flat) (h : AllArgs N args) : (k.call kind name args).All N := by
  obtain hc | ⟨l, r, -, rfl, hc⟩ := k.call_cases kind name args
  · rw [hc]
    exact h
  · rw [hc]
    exact ⟨hflat, h.1, h.2.1, trivial⟩

mutual

theorem all_erase_resolution : ∀ e : Expr, (e.erase .resolution).All .fresh
  | .int .. | .char .. | .bool .. | .str .. => trivial
  | .emptyList .. => rfl
  | .pair a b _ => ⟨all_erase_resolution a, all_erase_resolution b⟩
  | .var v => ⟨rfl, rfl⟩
  | .flat e rest _ => ⟨trivial, all_erase_resolution e, allRest_erase_resolution rest⟩
  | .call kind name args _ => by
    rw [erase]
    exact all_call trivial (allArgs_erase_resolution args)
  | .bound b args _ => by
    rw [erase, if_neg (by decide)]
    exact all_call trivial (allArgs_erase_resolution args)

theorem allArgs_erase_resolution : ∀ es : List Expr, AllArgs .fresh (eraseArgs .resolution es)
  | [] => trivial
  | e :: es => ⟨all_erase_resolution e, allArgs_erase_resolution es⟩

theorem allRest_erase_resolution :
    ∀ rest : List (OpUse × Expr), AllRest .fresh (eraseRest .resolution rest)
  | [] => trivial
  | (_, e) :: rest => ⟨all_erase_resolution e, allRest_erase_resolution rest⟩

end

/-- What some tree leaves when all but the written is taken away is fresh. -/
theorem all_fresh {e x : Expr} (h : e.erase .places = x.erase .resolution) : e.All .fresh := by
  have hx := all_erase_resolution x
  rw [← h, all_erase_places] at hx
  · exact hx
  · exact fun v => Iff.rfl

end Expr

/-! ## Nodes of blocks -/

/-- All nodes at the place are allowed. -/
def Place.All (N : Nodes) : Place → Prop
  | .decl d => d.init.All N
  | .assign v e | .each v e => N.var v ∧ e.All N
  | .guard e | .call e => e.All N
  | .ret _ e => ∀ x ∈ e, x.All N

theorem Place.All.mono {N N' : Nodes} (h : N.Le N') : ∀ {p : Place}, p.All N → p.All N'
  | .decl _, hp | .guard _, hp | .call _, hp => Expr.All.mono h hp
  | .assign .., hp | .each .., hp => ⟨h.var hp.1, hp.2.mono h⟩
  | .ret .., hp => fun x hx => (hp x hx).mono h

/-- All nodes of the item are allowed. -/
def Item.All (N : Nodes) : Item → Prop
  | .synonym _ => True
  | .global d => d.init.All N
  | .fn f => Stmt.HoldsAll (Place.All N) f.body

theorem Item.All.mono {N N' : Nodes} (h : N.Le N') : ∀ {i : Item}, i.All N → i.All N'
  | .synonym _, _ => trivial
  | .global _, hi => Expr.All.mono h hi
  | .fn _, hi => Stmt.HoldsAll.mono (fun _ => Place.All.mono h) hi

theorem Variable.fresh_of_agree {v x : Variable} (h : x.erase .resolution = v.erase .places) :
    Nodes.fresh.var v := by
  simp only [Variable.erase, Erasure.resolution, Erasure.places, Variable.mk.injEq, id] at h
  obtain ⟨hr, -, ht, -⟩ := h
  refine ⟨?_, by simpa [eq_comm] using ht⟩
  rw [← hr]
  rfl

theorem Place.all_fresh {p q : Place} (h : Place.Agree .resolution .places p q) : q.All .fresh := by
  cases p <;> cases q <;>
    simp only [Agree, erase, reduceCtorEq, Place.decl.injEq, Place.assign.injEq, Place.guard.injEq,
      Place.each.injEq, Place.ret.injEq, Place.call.injEq, true_and] at h
  case decl.decl d d' => exact Expr.all_fresh (congrArg VarDecl.init h).symm
  case assign.assign => exact ⟨Variable.fresh_of_agree h.1, Expr.all_fresh h.2.symm⟩
  case guard.guard => exact Expr.all_fresh h.symm
  case each.each => exact ⟨Variable.fresh_of_agree h.1, Expr.all_fresh h.2.symm⟩
  case ret.ret e _ e' =>
    intro x hx
    subst hx
    obtain ⟨y, -, hy⟩ := Option.map_eq_some_iff.1 h
    exact Expr.all_fresh hy.symm
  case call.call => exact Expr.all_fresh h.symm

theorem Item.all_fresh {i j : Item} (h : i.erase .resolution = j.erase .places) : j.All .fresh := by
  cases i <;> cases j <;> simp only [erase, reduceCtorEq, Item.global.injEq, Item.fn.injEq] at h
  case synonym.synonym => trivial
  case global.global => exact Expr.all_fresh (congrArg VarDecl.init h).symm
  case fn.fn =>
    have hbody := congrArg FnDef.body h
    refine (Stmt.walkAll_of_erase _ _ hbody).holds fun _ _ _ _ hpq => ?_
    exact Place.all_fresh hpq

/-- At the nodes of a program that was just read stands only what is written. -/
theorem Program.Fresh.all {p : Program} (h : p.Fresh) : ∀ i ∈ p.items, i.All .fresh := by
  have hitems := (Program.mk.inj h).2
  intro i hi
  exact Item.all_fresh (List.map_inj_left.1 hitems i hi)

/-! ## Printable blocks -/

/-- Can the place be written? -/
def Place.Printable : Place → Prop
  | .decl d => d.Printable
  | .assign v e | .each v e => v.Printable ∧ e.Printable
  | .guard e => e.Printable
  | .ret _ e => ∀ x ∈ e, x.Printable
  | .call e => e.IsFunctionCall ∧ e.Printable

section

variable {σ : Type} {L : Loc → Loc → Prop} {R : σ → Place → Place → σ → Prop}

mutual

theorem Stmt.Walk.printable (hr : ∀ s p q s', R s p q s' → p.Printable → q.Printable) :
    ∀ {s s' : σ} {a b : Stmt}, Stmt.Walk L R s a b s' → a.Printable → b.Printable
  | _, _, _, _, .decl h, hp => hr _ _ _ _ h hp
  | _, _, _, _, .assign _ h, hp => hr _ _ _ _ h hp
  | _, _, _, _, .condNone _ h, hp => by
    rw [Stmt.Printable] at hp ⊢
    have hbs := h.printable hr hp.2
    exact ⟨hbs.1 hp.1, hbs.2⟩
  | _, _, _, _, .condSome _ hb hs, hp => by
    rw [Stmt.Printable] at hp ⊢
    have hbs := hb.printable hr hp.2.1
    exact ⟨hbs.1 hp.1, hbs.2, hs.printable hr hp.2.2⟩
  | _, _, _, _, .loop _ h hs, hp => by
    rw [Stmt.Printable] at hp ⊢
    exact ⟨hr _ _ _ _ h hp.1, hs.printable hr hp.2⟩
  | _, _, _, _, .each _ h hs, hp => by
    rw [Stmt.Printable] at hp ⊢
    have hv := hr _ _ _ _ h ⟨hp.1, hp.2.1⟩
    exact ⟨hv.1, hv.2, hs.printable hr hp.2.2⟩
  | _, _, _, _, .ret _ h, hp => hr _ _ _ _ h hp
  | _, _, _, _, .brk _, hp => hp
  | _, _, _, _, .cont _, hp => hp
  | _, _, _, _, .expr h, hp => hr _ _ _ _ h hp

/-- A walk through printable places ends in a printable block. -/
theorem Stmt.WalkAll.printable (hr : ∀ s p q s', R s p q s' → p.Printable → q.Printable) :
    ∀ {s s' : σ} {a b : List Stmt}, Stmt.WalkAll L R s a b s' → Stmt.PrintableBody a →
      Stmt.PrintableBody b
  | _, _, _, _, .nil, hp => hp
  | _, _, _, _, .cons h hs, hp => by
    rw [Stmt.PrintableBody] at hp ⊢
    exact ⟨h.printable hr hp.1, hs.printable hr hp.2⟩

theorem Branch.WalkAll.printable (hr : ∀ s p q s', R s p q s' → p.Printable → q.Printable) :
    ∀ {s s' : σ} {a b : List Branch}, Branch.WalkAll L R s a b s' → Stmt.PrintableBranches a →
      (a ≠ [] → b ≠ []) ∧ Stmt.PrintableBranches b
  | _, _, _, _, .nil, hp => ⟨id, hp⟩
  | _, _, _, _, .cons _ h hs hb, hp => by
    rw [Stmt.PrintableBranches] at hp ⊢
    exact ⟨fun _ => List.cons_ne_nil _ _, hr _ _ _ _ h hp.1, hs.printable hr hp.2.1,
      (hb.printable hr hp.2.2).2⟩

end

end

end SplFrontend
