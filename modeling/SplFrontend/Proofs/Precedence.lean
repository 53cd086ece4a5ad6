import SplFrontend.Precedence
import SplFrontend.Proofs.Nodes

/-!
# What grouping does

Grouping replaces sequences by infix calls of the same operands. A property of expressions that
every infix call inherits from its operands passes through climbing (`climb_closed`); so a printable
tree stays printable, and what holds of the nodes stays. If no operator is reported as undefined, no
sequence is left.
-/

namespace SplFrontend.Precedence

/-! ## Climbing -/

/-- A property that an operation hands on from its operands holds of the tree, and of what is left
over. -/
theorem climb_closed {Q : Expr → Prop} {O : Operation → Prop}
    (happly : ∀ {o l r}, O o → Q l → Q r → Q (o.apply l r)) (least : Nat) (left : Expr)
    (os : List Operation) (hleft : Q left) (hos : ∀ o ∈ os, O o ∧ Q o.operand) :
    Q (climb least left os).tree ∧ ∀ o ∈ (climb least left os).rest, O o ∧ Q o.operand := by
  fun_induction climb least left os with
  | case1 => exact ⟨hleft, hos⟩
  | case2 _ _ o os _ right _ ihr ihw =>
    rw [List.forall_mem_cons] at hos
    have hright := ihr hos.1.2 hos.2
    exact ihw (happly hos.1.1 hleft hright.1) hright.2
  | case3 => exact ⟨hleft, hos⟩

theorem grouped_closed {Q : Expr → Prop} {O : Operation → Prop}
    (happly : ∀ {o l r}, O o → Q l → Q r → Q (o.apply l r)) {first : Expr} {os : List Operation}
    (hfirst : Q first) (hos : ∀ o ∈ os, O o ∧ Q o.operand) : Q (grouped first os) :=
  (climb_closed happly 0 first os hfirst hos).1

variable {v : Visible}

/-- The operations of a sequence are its operators and operands in order, each with its fixity. -/
theorem operations_eq_some : ∀ {rest : List (OpUse × Expr)} {os : List Operation},
    (operations v rest).value = some os →
      os.map (fun o => (o.op, o.operand)) = rest ∧ ∀ o ∈ os, v.fixityOf o.op.name = some o.fixity
  | [], os, h => by
    rw [operations] at h
    cases h
    exact ⟨rfl, nofun⟩
  | (op, e) :: rest, os, h => by
    rw [operations] at h
    split at h
    · next fixity hf =>
      obtain ⟨os', hos', rfl⟩ := Option.map_eq_some_iff.1 h
      have ih := operations_eq_some hos'
      rw [List.map_cons, ih.1]
      exact ⟨rfl, List.forall_mem_cons.2 ⟨hf, ih.2⟩⟩
    · cases h

/-- If no operator is reported as undefined, there are operations. -/
theorem operations_ne_none {P : Diagnostic → Prop}
    (hP : ∀ kind name loc, ¬ P ((Fault.undefinedCallable kind name).report loc)) :
    ∀ {rest : List (OpUse × Expr)}, (∀ d ∈ (operations v rest).notes, P d) →
      (operations v rest).value ≠ none
  | [], _ => by rw [operations]; nofun
  | (op, e) :: rest, h => by
    rw [operations] at h ⊢
    split at h
    · next fixity hf =>
      simp only [Noted.forall_notes_bind] at h
      simpa [Noted.value_bind, Option.map_eq_none_iff] using operations_ne_none hP h.1
    · simp only [Noted.forall_notes_bind] at h
      exact absurd (h.1 _ List.mem_cons_self) (hP _ _ _)

/-! ## Expressions stay printable -/

theorem printable_apply {o : Operation} {l r : Expr} (ho : (Kind.op o.op.name).Proper)
    (hl : l.Printable) (hr : r.Printable) : (o.apply l r).Printable := by
  rw [Operation.apply, Expr.Printable]
  exact ⟨⟨ho, rfl⟩, hl, hr, trivial⟩

theorem length_exprs (es : List Expr) : (exprs v es).value.length = es.length := by
  induction es with
  | nil => rw [exprs]; rfl
  | cons e es ih =>
    rw [exprs]
    simp only [Noted.value_bind, Noted.value_pure, List.length_cons, ih]

/-- The operations of a sequence have what the operands of the sequence have. -/
theorem forall_operations {rest : List (OpUse × Expr)} {os : List Operation}
    {Q : OpUse → Expr → Prop} (h : (operations v rest).value = some os)
    (hr : ∀ x ∈ rest, Q x.1 x.2) :
    ∀ o ∈ os, Q o.op o.operand := by
  intro o ho
  refine hr (o.op, o.operand) ?_
  rw [← (operations_eq_some h).1]
  exact List.mem_map_of_mem ho

/-- What grouping makes of a sequence whose operands are grouped already. -/
theorem value_flat (e : Expr) (rest : List (OpUse × Expr)) (l : Loc) :
    (expr v (.flat e rest l)).value =
      match (operations v (operands v rest).value).value with
      | some os => grouped (expr v e).value os
      | none => .flat (expr v e).value (operands v rest).value l := by
  rw [expr]
  simp only [Noted.value_bind]
  cases (operations v (operands v rest).value).value <;> rfl

/-- A call stays a call of the same name. -/
theorem expr_call (kind : CallKind) (name : String) (as : List Expr) (l : Loc) :
    expr v (.call kind name as l) = ⟨.call kind name (exprs v as).value l,
      (if kind = .prefixOp then (prefixDefined v name l).notes else []) ++ (exprs v as).notes⟩ := by
  rw [expr]
  split <;> apply Noted.ext <;> simp

mutual

theorem printable_expr : ∀ {e : Expr}, e.Printable → (expr v e).value.Printable
  | .int .., h | .char .., h | .bool .., h | .str .., h | .emptyList .., h | .var _, h => by
    rw [expr]
    exact h
  | .pair a b _, h => by
    rw [expr]
    exact ⟨printable_expr h.1, printable_expr h.2⟩
  | .flat e rest l, h => by
    have he := printable_expr h.1
    have hrest := printable_operands h.2.2
    rw [value_flat]
    split
    · next os hos =>
      refine grouped_closed (O := fun o => (Kind.op o.op.name).Proper) printable_apply he ?_
      exact forall_operations (Q := fun o e => (Kind.op o.name).Proper ∧ e.Printable) hos
        (Expr.printableRest_iff.1 hrest.1)
    · exact ⟨he, hrest.2 h.2.1, hrest.1⟩
  | .call kind name as _, h => by
    rw [expr_call]
    rw [Expr.Printable] at h ⊢
    rw [length_exprs]
    exact ⟨h.1, printable_exprs h.2⟩
  | .bound b as _, h => by
    rw [expr]
    simp only [Noted.value_bind, Noted.value_pure]
    rw [Expr.Printable, length_exprs]
    exact ⟨h.1, printable_exprs h.2⟩

theorem printable_exprs : ∀ {es : List Expr}, Expr.PrintableArgs es →
    Expr.PrintableArgs (exprs v es).value
  | [], _ => by rw [exprs]; trivial
  | e :: es, h => by
    rw [exprs]
    exact ⟨printable_expr h.1, printable_exprs h.2⟩

theorem printable_operands : ∀ {rest : List (OpUse × Expr)}, Expr.PrintableRest rest →
    Expr.PrintableRest (operands v rest).value ∧ (rest ≠ [] → (operands v rest).value ≠ [])
  | [], _ => by rw [operands]; exact ⟨trivial, id⟩
  | (_, e) :: rest, h => by
    rw [operands]
    exact ⟨⟨h.1, printable_expr h.2.1, (printable_operands h.2.2).1⟩, fun _ => List.cons_ne_nil _ _⟩

end

theorem isFunctionCall_expr {e : Expr} (h : e.IsFunctionCall) :
    (expr v e).value.IsFunctionCall := by
  cases e with
  | call kind name as l =>
    rw [expr_call]
    exact h
  | bound b as l =>
    rw [expr]
    exact h
  | _ => exact h.elim

/-! ## Nodes -/

section

variable {P : Diagnostic → Prop} {N : Nodes} {F : Prop}

theorem all_apply {o : Operation} {l r : Expr} (hl : l.All N) (hr : r.All N) :
    (o.apply l r).All N :=
  ⟨hl, hr, trivial⟩

/-- The reports on a sequence are those on its operands and its operators. -/
theorem forall_notes_flat {e : Expr} {rest : List (OpUse × Expr)} {l : Loc} :
    (∀ d ∈ (expr v (.flat e rest l)).notes, P d) ↔
      (∀ d ∈ (expr v e).notes, P d) ∧ (∀ d ∈ (operands v rest).notes, P d) ∧
        ∀ d ∈ (operations v (operands v rest).value).notes, P d := by
  rw [expr]
  simp only [Noted.forall_notes_bind]
  cases (operations v (operands v rest).value).value <;> simp

mutual

/-- What holds of the other nodes stays. Sequences are left over only if `F` allows them; it need
not if `P` excludes reports of undefined operators. -/
theorem all_expr (hF : F ∨ ∀ kind name loc, ¬ P ((Fault.undefinedCallable kind name).report loc)) :
    ∀ {e : Expr}, e.All N → (∀ d ∈ (expr v e).notes, P d) →
      (expr v e).value.All { N with flat := F }
  | .int .., _, _ | .char .., _, _ | .bool .., _, _ | .str .., _, _ => by rw [expr]; trivial
  | .emptyList .., h, _ | .var _, h, _ => by rw [expr]; exact h
  | .pair a b _, h, hp => by
    simp only [expr, Noted.forall_notes_bind] at hp ⊢
    exact ⟨all_expr hF h.1 hp.1, all_expr hF h.2 hp.2.1⟩
  | .flat e rest l, h, hp => by
    rw [forall_notes_flat] at hp
    have he := all_expr hF h.2.1 hp.1
    have hrest := all_operands hF h.2.2 hp.2.1
    rw [value_flat]
    split
    · next os hos =>
      refine grouped_closed (O := fun _ => True) (fun _ => all_apply) he fun o ho => ⟨trivial, ?_⟩
      exact forall_operations (Q := fun _ e => e.All _) hos (Expr.allRest_iff.1 hrest) o ho
    · next hnone =>
      obtain hF' | hP := hF
      · exact ⟨hF', he, hrest⟩
      · exact absurd hnone (operations_ne_none hP hp.2.2)
  | .call kind name as l, h, hp => by
    rw [expr_call] at hp ⊢
    exact all_exprs hF h fun d hd => hp d (List.mem_append_right _ hd)
  | .bound _ as _, h, hp => by
    simp only [expr, Noted.forall_notes_bind, Noted.value_bind, Noted.value_pure] at hp ⊢
    rw [Expr.All, length_exprs]
    exact ⟨h.1, all_exprs hF h.2 hp.1⟩

theorem all_exprs (hF : F ∨ ∀ kind name loc, ¬ P ((Fault.undefinedCallable kind name).report loc)) :
    ∀ {es : List Expr}, Expr.AllArgs N es → (∀ d ∈ (exprs v es).notes, P d) →
      Expr.AllArgs { N with flat := F } (exprs v es).value
  | [], _, _ => by rw [exprs]; trivial
  | e :: es, h, hp => by
    simp only [exprs, Noted.forall_notes_bind] at hp ⊢
    exact ⟨all_expr hF h.1 hp.1, all_exprs hF h.2 hp.2.1⟩

theorem all_operands
    (hF : F ∨ ∀ kind name loc, ¬ P ((Fault.undefinedCallable kind name).report loc)) :
    ∀ {rest : List (OpUse × Expr)}, Expr.AllRest N rest → (∀ d ∈ (operands v rest).notes, P d) →
      Expr.AllRest { N with flat := F } (operands v rest).value
  | [], _, _ => by rw [operands]; trivial
  | (_, e) :: rest, h, hp => by
    simp only [operands, Noted.forall_notes_bind] at hp ⊢
    exact ⟨all_expr hF h.1 hp.1, all_operands hF h.2 hp.2.1⟩

end

/-! ## Programs -/

theorem printable_at {p : Place} (h : p.Printable) : ((body v).at p).value.Printable := by
  cases p with
  | decl d => exact ⟨h.1, h.2.1, printable_expr h.2.2⟩
  | assign x e | each x e => exact ⟨h.1, printable_expr h.2⟩
  | guard e => exact printable_expr h
  | ret l e =>
    cases e with
    | none => exact h
    | some e =>
      intro x hx
      cases hx
      exact printable_expr (h e rfl)
  | call e => exact ⟨isFunctionCall_expr h.1, printable_expr h.2⟩

theorem all_at (hF : F ∨ ∀ kind name loc, ¬ P ((Fault.undefinedCallable kind name).report loc))
    {p : Place} (h : p.All N) (hp : ∀ d ∈ ((body v).at p).notes, P d) :
    ((body v).at p).value.All { N with flat := F } := by
  cases p with
  | decl d =>
    simp only [Rewriter.at, body, Noted.forall_notes_bind] at hp
    exact all_expr hF h hp.1.1
  | assign x e | each x e =>
    simp only [Rewriter.at, body, Noted.forall_notes_bind] at hp
    exact ⟨h.1, all_expr hF h.2 hp.1.1⟩
  | guard e | call e =>
    simp only [Rewriter.at, body, Noted.forall_notes_bind] at hp
    exact all_expr hF h hp.1
  | ret l e =>
    cases e with
    | none => exact nofun
    | some e =>
      simp only [Rewriter.at, body, Noted.forall_notes_bind] at hp
      intro x hx
      cases hx
      exact all_expr hF (h e rfl) hp.1.1

theorem all_item (hF : F ∨ ∀ kind name loc, ¬ P ((Fault.undefinedCallable kind name).report loc))
    {i : Item} (h : i.All N) (hp : ∀ d ∈ (item v i).notes, P d) :
    (item v i).value.All { N with flat := F } := by
  cases i with
  | synonym s => trivial
  | global d =>
    simp only [item, Noted.forall_notes_bind] at hp
    exact all_expr hF h hp.1
  | fn f =>
    simp only [item, Noted.forall_notes_bind] at hp
    have hw := Stmt.walk_rewriteAll_lift f.body hp.1
    refine (hw.and h).holds fun _ p q _ hd => ?_
    rw [← hd.1.1]
    exact all_at hF hd.2 hd.1.2

end

theorem printable_item {i : Item} (h : i.Printable) : (item v i).value.Printable := by
  cases i with
  | synonym s => exact h
  | global d => exact ⟨h.1, h.2.1, printable_expr h.2.2⟩
  | fn f =>
    have hw :=
      Stmt.walk_rewriteAll_lift (w := body v) (P := fun _ => True) f.body fun _ _ => trivial
    refine ⟨h.name, h.params, h.sig, hw.printable (fun _ p q _ hd hp => ?_) h.body⟩
    rw [← hd.1]
    exact printable_at hp

theorem items_resolve (p : Program) :
    (resolve v p).value.items = p.items.map fun i => (item v i).value := by
  simp [resolve, Noted.value_mapM]

end SplFrontend.Precedence
