import SplFrontend.Proofs.Nodes
import SplFrontend.Scoping

/-!
# What scoping does

Scoping rewrites variables and nothing else, so what is written of a tree stays, and what holds of
the other nodes stays. In a body it carries the variables declared so far; at each place these
decide what the names there refer to (`run_at`).
-/

namespace SplFrontend.Scoping

/-! ## Expressions -/

section

variable {f : Variable → Noted Variable}

theorem length_exprs (es : List Expr) : (exprs f es).value.length = es.length := by
  induction es with
  | nil => rw [exprs]; rfl
  | cons e es ih =>
    rw [exprs]
    simp only [Noted.value_bind, Noted.value_pure, List.length_cons, ih]

mutual

theorem erase_expr {k : Erasure} (hf : ∀ v, (f v).value.erase k = v.erase k) :
    ∀ e : Expr, (expr f e).value.erase k = e.erase k
  | .int .. | .char .. | .bool .. | .str .. | .emptyList .. => by rw [expr]; rfl
  | .pair a b _ => by
    simp only [expr, Noted.value_bind, Noted.value_pure, Expr.erase, erase_expr hf a,
      erase_expr hf b]
  | .var v => by simp only [expr, Noted.value_bind, Noted.value_pure, Expr.erase, hf]
  | .flat e rest _ => by
    simp only [expr, Noted.value_bind, Noted.value_pure, Expr.erase, erase_expr hf e,
      erase_operands hf rest]
  | .call _ _ as _ => by
    simp only [expr, Noted.value_bind, Noted.value_pure, Expr.erase, erase_exprs hf as]
  | .bound _ as _ => by
    simp only [expr, Noted.value_bind, Noted.value_pure, Expr.erase, erase_exprs hf as]

theorem erase_exprs {k : Erasure} (hf : ∀ v, (f v).value.erase k = v.erase k) :
    ∀ es : List Expr, Expr.eraseArgs k (exprs f es).value = Expr.eraseArgs k es
  | [] => by rw [exprs]; rfl
  | e :: es => by
    simp only [exprs, Noted.value_bind, Noted.value_pure, Expr.eraseArgs, erase_expr hf e,
      erase_exprs hf es]

theorem erase_operands {k : Erasure} (hf : ∀ v, (f v).value.erase k = v.erase k) :
    ∀ rest : List (OpUse × Expr), Expr.eraseRest k (operands f rest).value = Expr.eraseRest k rest
  | [] => by rw [operands]; rfl
  | (op, e) :: rest => by
    simp only [operands, Noted.value_bind, Noted.value_pure, Expr.eraseRest, erase_expr hf e,
      erase_operands hf rest]

end

/-- What `f` makes of the variables, when its reports all satisfy `P`, turns nodes of the one sort
into nodes of the other. -/
structure Turns (f : Variable → Noted Variable) (P : Diagnostic → Prop) (N N' : Nodes) : Prop where
  var : ∀ {v}, N.var v → (∀ d ∈ (f v).notes, P d) → N'.var (f v).value
  empty : ∀ {t}, N.empty t → N'.empty t
  flat : N.flat → N'.flat
  bound : ∀ {b n}, N.bound b n → N'.bound b n

variable {P : Diagnostic → Prop} {N N' : Nodes}

mutual

theorem all_expr (ht : Turns f P N N') : ∀ {e : Expr}, e.All N → (∀ d ∈ (expr f e).notes, P d) →
    (expr f e).value.All N'
  | .int .., _, _ | .char .., _, _ | .bool .., _, _ | .str .., _, _ => by rw [expr]; trivial
  | .emptyList .., h, _ => by
    rw [expr]
    exact ht.empty h
  | .pair a b _, h, hp => by
    simp only [expr, Noted.forall_notes_bind] at hp ⊢
    exact ⟨all_expr ht h.1 hp.1, all_expr ht h.2 hp.2.1⟩
  | .var v, h, hp => by
    simp only [expr, Noted.forall_notes_bind] at hp ⊢
    exact ht.var h hp.1
  | .flat e rest _, h, hp => by
    simp only [expr, Noted.forall_notes_bind] at hp ⊢
    exact ⟨ht.flat h.1, all_expr ht h.2.1 hp.1, all_operands ht h.2.2 hp.2.1⟩
  | .call _ _ as _, h, hp => by
    simp only [expr, Noted.forall_notes_bind] at hp ⊢
    exact all_exprs ht h hp.1
  | .bound _ as _, h, hp => by
    simp only [expr, Noted.forall_notes_bind, Noted.value_bind, Noted.value_pure] at hp ⊢
    rw [Expr.All, length_exprs]
    exact ⟨ht.bound h.1, all_exprs ht h.2 hp.1⟩

theorem all_exprs (ht : Turns f P N N') : ∀ {es : List Expr}, Expr.AllArgs N es →
    (∀ d ∈ (exprs f es).notes, P d) → Expr.AllArgs N' (exprs f es).value
  | [], _, _ => by rw [exprs]; trivial
  | e :: es, h, hp => by
    simp only [exprs, Noted.forall_notes_bind] at hp ⊢
    exact ⟨all_expr ht h.1 hp.1, all_exprs ht h.2 hp.2.1⟩

theorem all_operands (ht : Turns f P N N') : ∀ {rest : List (OpUse × Expr)}, Expr.AllRest N rest →
    (∀ d ∈ (operands f rest).notes, P d) → Expr.AllRest N' (operands f rest).value
  | [], _, _ => by rw [operands]; trivial
  | (_, e) :: rest, h, hp => by
    simp only [operands, Noted.forall_notes_bind] at hp ⊢
    exact ⟨all_expr ht h.1 hp.1, all_operands ht h.2 hp.2.1⟩

end

end

/-! ## Places -/

/-- Rewrites the variables at a place. -/
def place (f : Variable → Noted Variable) : Place → Noted Place
  | .decl d => do return .decl { d with init := ← expr f d.init }
  | .assign v e => do
    let v ← f v
    let e ← expr f e
    return .assign v e
  | .guard e => do return .guard (← expr f e)
  | .each v e => do
    let v ← f v
    let e ← expr f e
    return .each v e
  | .ret l (some e) => do return .ret l (some (← expr f e))
  | .ret l none => pure (.ret l none)
  | .call e => do return .call (← expr f e)

/-- The variables declared after a place. -/
def after (t : ModuleTable) (externals : ExternalTable) (args locals : Scope) : Place → Noted Scope
  | .decl d => declare t externals args locals d
  | _ => pure locals

/-- The rewriting of a variable in a body, after some declarations. -/
abbrev tagIn (t : ModuleTable) (externals : ExternalTable) (args locals : Scope) :
    Variable → Noted Variable :=
  tag (inFunction t externals args locals) .undefinedVar

/-- At a place of a body the names are looked up in what is declared before it. -/
theorem run_at (t : ModuleTable) (externals : ExternalTable) (args s : Scope) (p : Place) :
    ((body t externals args).at p).run s = do
      let q ← place (tagIn t externals args s) p
      let s' ← after t externals args s p
      return (q, s') := by
  cases p with
  | decl d => simp [Rewriter.at, body, place, after, bodyExpr]
  | assign v e => simp [Rewriter.at, body, place, after, bodyExpr, bodyVar]
  | guard e => simp [Rewriter.at, body, place, after, bodyExpr]
  | each v e => simp [Rewriter.at, body, place, after, bodyExpr, bodyVar]
  | ret l e => cases e <;> simp [Rewriter.at, body, place, after, bodyExpr]
  | call e => simp [Rewriter.at, body, place, after, bodyExpr]

/-- What one step through a body says: the place is rewritten, then its declaration counts. -/
theorem graph_iff {t : ModuleTable} {externals : ExternalTable} {args s s' : Scope} {p q : Place}
    {P : Diagnostic → Prop} : (body t externals args).Graph P s p q s' ↔
      ((place (tagIn t externals args s) p).value = q ∧
        ∀ d ∈ (place (tagIn t externals args s) p).notes, P d) ∧
      ((after t externals args s p).value = s' ∧
        ∀ d ∈ (after t externals args s p).notes, P d) := by
  rw [Rewriter.Graph, run_at, Noted.forall_notes_bind, Noted.forall_notes_bind]
  simp only [Noted.value_bind, Noted.value_pure, Noted.notes_pure, Prod.mk.injEq, List.not_mem_nil,
    false_implies, implies_true, and_true]
  constructor
  · rintro ⟨⟨hq, hs⟩, hp, ha⟩
    exact ⟨⟨hq, hp⟩, hs, ha⟩
  · rintro ⟨⟨hq, hp⟩, hs, ha⟩
    exact ⟨⟨hq, hs⟩, hp, ha⟩

theorem erase_place {f : Variable → Noted Variable} {k : Erasure}
    (hf : ∀ v, (f v).value.erase k = v.erase k) (p : Place) :
    (place f p).value.erase k = p.erase k := by
  cases p with
  | ret l e => cases e <;> simp [place, Place.erase, erase_expr hf]
  | _ => simp [place, Place.erase, VarDecl.erase, erase_expr hf, hf]

theorem all_place {f : Variable → Noted Variable} {P : Diagnostic → Prop} {N N' : Nodes}
    (ht : Turns f P N N') {p : Place} (h : p.All N) (hp : ∀ d ∈ (place f p).notes, P d) :
    (place f p).value.All N' := by
  cases p with
  | ret l e =>
    cases e with
    | none => simp [place, Place.All]
    | some e =>
      simp only [place, Noted.forall_notes_bind] at hp ⊢
      intro x hx
      cases hx
      exact all_expr ht (h e rfl) hp.1
  | decl d | guard e | call e =>
    simp only [place, Noted.forall_notes_bind] at hp ⊢
    exact all_expr ht h hp.1
  | assign v e | each v e =>
    simp only [place, Noted.forall_notes_bind] at hp ⊢
    exact ⟨ht.var h.1 hp.1, all_expr ht h.2 hp.2.1⟩

/-! ## Globals -/

/-- The rewriting of a variable in the initializer of a global. -/
abbrev tagBefore (t : ModuleTable) (externals : ExternalTable) (d : VarDecl) :
    Variable → Noted Variable :=
  tag (inGlobal t externals ((t.globalIndex d.name).getD t.globals.length)) .undefinedGlobal

/-- The report of a global that hides an imported one. -/
def hides (t : ModuleTable) (externals : ExternalTable) (d : VarDecl) : List Diagnostic :=
  if (t.globals.lookup d.name).any fun e => e.loc = d.loc then
    (externals.globals.lookup d.name).toList.map fun e =>
      (Fault.globalShadows d.name e.exported e.module).report d.loc
  else []

theorem global_eq (t : ModuleTable) (externals : ExternalTable) (d : VarDecl) :
    global t externals d = ⟨{ d with init := (expr (tagBefore t externals d) d.init).value },
      hides t externals d ++ (expr (tagBefore t externals d) d.init).notes⟩ := by
  unfold global hides
  split
  · cases externals.globals.lookup d.name <;> apply Noted.ext <;> simp
  · apply Noted.ext <;> simp

/-! ## What is written stays -/

theorem erase_tag {lookup : String → Option Ref} (hl : ∀ {n r}, lookup n = some r → r.name = n)
    (missing : String → Fault) (v : Variable) :
    (tag lookup missing v).value.erase .resolution = v.erase .resolution := by
  unfold tag
  split
  · next name hv =>
    split
    · next r hr =>
      have hn : v.ref.name = name := by rw [hv]; rfl
      simp [Variable.erase, Erasure.resolution, hl hr, hn]
    · rfl
  · rfl

theorem name_importedRef {externals : ExternalTable} {n : String} {r : Ref}
    (h : importedRef externals n = some r) : r.name = n := by
  obtain ⟨e, -, rfl⟩ := Option.map_eq_some_iff.1 h
  rfl

theorem name_inFunction {t : ModuleTable} {externals : ExternalTable} {args locals : Scope}
    {n : String} {r : Ref} (h : inFunction t externals args locals n = some r) : r.name = n := by
  unfold inFunction at h
  repeat' split at h
  · cases h; rfl
  · cases h; rfl
  · cases h; rfl
  · exact name_importedRef h

theorem name_inGlobal {t : ModuleTable} {externals : ExternalTable} {limit : Nat} {n : String}
    {r : Ref} (h : inGlobal t externals limit n = some r) : r.name = n := by
  unfold inGlobal at h
  split at h
  · cases h; rfl
  · exact name_importedRef h

variable {t : ModuleTable} {externals : ExternalTable}

theorem erase_body (args s : Scope) (b : List Stmt) :
    Stmt.eraseAll .resolution ((Stmt.rewriteAll (body t externals args) b).run s).value.1 =
      Stmt.eraseAll .resolution b := by
  have hw := Stmt.walk_rewriteAll (w := body t externals args) (P := fun _ => True) s b
    fun _ _ => trivial
  refine (hw.erase_eq fun s p q s' hg => ?_).symm
  rw [Place.Agree, ← (graph_iff.1 hg).1.1]
  exact (erase_place (erase_tag name_inFunction _) p).symm

theorem erase_global (d : VarDecl) :
    (global t externals d).value.erase .resolution = d.erase .resolution := by
  rw [global_eq]
  simp only [VarDecl.erase, erase_expr (erase_tag name_inGlobal _)]

theorem erase_items : ∀ (i : Nat) (its : List Item) (t : ModuleTable),
    (items externals i its t).value.1.map (Item.erase .resolution) =
      its.map (Item.erase .resolution)
  | _, [], _ => by rw [items]; rfl
  | i, .synonym s :: rest, t => by
    rw [items]
    simp only [Noted.value_bind, Noted.value_pure, List.map_cons, erase_items (i + 1) rest t]
  | i, .global d :: rest, t => by
    rw [items]
    simp only [Noted.value_bind, Noted.value_pure, List.map_cons, Item.erase, erase_global,
      erase_items (i + 1) rest t]
  | i, .fn f :: rest, t => by
    rw [items]
    split
    · simp only [Noted.value_bind, Noted.value_pure, List.map_cons, erase_items (i + 1) rest t]
    · simp only [Noted.value_bind, Noted.value_pure, List.map_cons, Item.erase, FnDef.erase,
        erase_body, erase_items (i + 1) rest]

/-- Scoping leaves what is written of a program. -/
theorem erase_resolve (p : Program) :
    (resolve externals p t).value.1.erase .resolution = p.erase .resolution := by
  simp only [resolve, Noted.value_bind, Noted.value_pure, Program.erase, erase_items]

/-! ## What holds of other nodes stays -/

section

variable {N : Nodes}

theorem turns_of_any (hN : ∀ v, N.var v) (f : Variable → Noted Variable) :
    Turns f (fun _ => True) N N :=
  ⟨fun _ _ => hN _, id, id, id⟩

theorem holds_body (hN : ∀ v, N.var v) (args s : Scope) {b : List Stmt}
    (hb : Stmt.HoldsAll (Place.All N) b) :
    Stmt.HoldsAll (Place.All N) ((Stmt.rewriteAll (body t externals args) b).run s).value.1 := by
  have hw := Stmt.walk_rewriteAll (w := body t externals args) (P := fun _ => True) s b
    fun _ _ => trivial
  refine (hw.and hb).holds fun s p q s' hg => ?_
  rw [← (graph_iff.1 hg.1).1.1]
  exact all_place (turns_of_any hN _) hg.2 fun _ _ => trivial

theorem all_items (hN : ∀ v, N.var v) : ∀ (i : Nat) (its : List Item) (t : ModuleTable),
    (∀ it ∈ its, it.All N) → ∀ it ∈ (items externals i its t).value.1, it.All N
  | _, [], _, _ => by rw [items]; nofun
  | i, .synonym s :: rest, t, h => by
    rw [items]
    rw [List.forall_mem_cons] at h
    exact List.forall_mem_cons.2 ⟨trivial, all_items hN (i + 1) rest t h.2⟩
  | i, .global d :: rest, t, h => by
    rw [items]
    rw [List.forall_mem_cons] at h
    refine List.forall_mem_cons.2 ⟨?_, all_items hN (i + 1) rest t h.2⟩
    rw [global_eq]
    exact all_expr (turns_of_any hN _) h.1 fun _ _ => trivial
  | i, .fn f :: rest, t, h => by
    rw [items]
    rw [List.forall_mem_cons] at h
    split
    · exact List.forall_mem_cons.2 ⟨h.1, all_items hN (i + 1) rest t h.2⟩
    · exact List.forall_mem_cons.2 ⟨holds_body hN _ _ h.1, all_items hN (i + 1) rest _ h.2⟩

end

end SplFrontend.Scoping
