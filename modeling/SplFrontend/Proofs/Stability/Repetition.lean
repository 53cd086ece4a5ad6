import SplFrontend.Proofs.Typing.Rechecking

/-!
# Scoping and grouping again, with errors

Scoping and grouping may be run on whatever they leave, faulty or not: nothing changes, and what was
reported is reported once more, in the same order.

The second run meets another tree. For scoping it has tagged variables, which are passed over, and
the table has the variables of the bodies, which no look-up reads. For grouping it has trees of
infix calls in the place of sequences. Such a tree is visited in the order in which its operands
stood in the sequence (`notes_climb`), so the reports on the operands do not change places.
-/

namespace SplFrontend

/-! ## Scoping -/

namespace Scoping

section

variable {f : Variable → Noted Variable}

mutual

theorem expr_repeats (hf : ∀ v, f (f v).value = f v) :
    ∀ e : Expr, expr f (expr f e).value = expr f e
  | .int .. | .char .. | .bool .. | .str .. | .emptyList .. => by simp only [expr, Noted.value_pure]
  | .var v => by simp only [expr, Noted.value_bind, Noted.value_pure, hf]
  | .pair a b _ => by
    simp only [expr, Noted.value_bind, Noted.value_pure, expr_repeats hf a, expr_repeats hf b]
  | .flat e rest _ => by
    simp only [expr, Noted.value_bind, Noted.value_pure, expr_repeats hf e,
      operands_repeats hf rest]
  | .call _ _ as _ | .bound _ as _ => by
    simp only [expr, Noted.value_bind, Noted.value_pure, exprs_repeats hf as]

theorem exprs_repeats (hf : ∀ v, f (f v).value = f v) :
    ∀ es : List Expr, exprs f (exprs f es).value = exprs f es
  | [] => by simp only [exprs, Noted.value_pure]
  | e :: es => by
    simp only [exprs, Noted.value_bind, Noted.value_pure, expr_repeats hf e, exprs_repeats hf es]

theorem operands_repeats (hf : ∀ v, f (f v).value = f v) :
    ∀ rest : List (OpUse × Expr), operands f (operands f rest).value = operands f rest
  | [] => by simp only [operands, Noted.value_pure]
  | (_, e) :: rest => by
    simp only [operands, Noted.value_bind, Noted.value_pure, expr_repeats hf e,
      operands_repeats hf rest]

end

theorem place_repeats (hf : ∀ v, f (f v).value = f v) (p : Place) :
    place f (place f p).value = place f p := by
  cases p with
  | ret l e => cases e <;> simp only [place, Noted.value_bind, Noted.value_pure, expr_repeats hf]
  | _ => simp only [place, Noted.value_bind, Noted.value_pure, expr_repeats hf, hf]

end

/-- What is found is a tag, so it is not looked up again; what is not found is missing again. -/
theorem tag_repeats {lookup : String → Option Ref} {missing : String → Fault}
    (hl : ∀ n r, lookup n = some r → ∀ m, r ≠ .unresolved m) (v : Variable) :
    tag lookup missing (tag lookup missing v).value = tag lookup missing v := by
  obtain ⟨ref, accessors, ty, loc⟩ := v
  cases ref with
  | unresolved name =>
    cases hr : lookup name with
    | none => simp only [tag, hr, Noted.value_bind, Noted.value_pure]
    | some r =>
      simp only [tag, hr, Noted.value_pure]
      cases r with
      | unresolved m => exact absurd rfl (hl name _ hr m)
      | own _ | imported _ _ _ | localVar _ | argument _ => rfl
  | own _ | imported _ _ _ | localVar _ | argument _ => simp only [tag, Noted.value_pure]

theorem importedRef_ne_unresolved {externals : ExternalTable} {n : String} {r : Ref}
    (h : importedRef externals n = some r) (m : String) : r ≠ .unresolved m := by
  obtain ⟨e, -, rfl⟩ := Option.map_eq_some_iff.1 h
  exact Ref.noConfusion

variable {t : ModuleTable} {externals : ExternalTable}

theorem inFunction_ne_unresolved {args locals : Scope} {n : String} {r : Ref}
    (h : inFunction t externals args locals n = some r) (m : String) : r ≠ .unresolved m := by
  unfold inFunction at h
  repeat' split at h
  · cases h; exact Ref.noConfusion
  · cases h; exact Ref.noConfusion
  · cases h; exact Ref.noConfusion
  · exact importedRef_ne_unresolved h m

theorem inGlobal_ne_unresolved {limit : Nat} {n : String} {r : Ref}
    (h : inGlobal t externals limit n = some r) (m : String) : r ≠ .unresolved m := by
  unfold inGlobal at h
  split at h
  · cases h; exact Ref.noConfusion
  · exact importedRef_ne_unresolved h m

/-! ### Bodies -/

/-- At a rewritten place the same variables are missing and the same one is declared. -/
theorem repeats_of_graph {args s s' : Scope} {p q : Place}
    (h : (body t externals args).Graph (fun _ => True) s p q s') :
    Repeats ((body t externals args).at p) ((body t externals args).at q) s q s' := by
  obtain ⟨⟨rfl, -⟩, rfl, -⟩ := graph_iff.1 h
  have hplace :=
    place_repeats (f := tagIn t externals args s)
      (tag_repeats fun _ _ => inFunction_ne_unresolved) p
  have hafter : after t externals args s _ = _ :=
    after_congr (declares_place (tagIn t externals args s) p)
  refine ⟨?_, ?_, ?_⟩ <;> simp only [run_at, hplace, hafter]
  · rfl
  · rfl

/-- The scopes are built up from nothing again, and they are the same at every place. -/
theorem body_repeats (args s : Scope) (b : List Stmt) :
    (Stmt.rewriteAll (body t externals args)
      ((Stmt.rewriteAll (body t externals args) b).run s).value.1).run s =
      (Stmt.rewriteAll (body t externals args) b).run s := by
  have hwalk :=
    Stmt.walk_rewriteAll (w := body t externals args) (P := fun _ => True) s b fun _ _ => trivial
  obtain ⟨hvalue, hnotes, -⟩ := hwalk.again (f := id) repeats_of_graph
  exact Noted.ext hvalue hnotes

theorem global_repeats (d : VarDecl) :
    global t externals (global t externals d).value = global t externals d := by
  have hinit :=
    expr_repeats (f := tagBefore t externals d)
      (tag_repeats fun _ _ => inGlobal_ne_unresolved) d.init
  simp only [global_eq, hinit]
  rfl

/-! ### Items and the table -/

theorem globals_items : ∀ (i : Nat) (its : List Item) (t : ModuleTable),
    (items externals i its t).value.2.globals = t.globals
  | _, [], _ => by rw [items]; rfl
  | i, .synonym _ :: rest, t | i, .global _ :: rest, t => by
    rw [items]
    exact globals_items (i + 1) rest t
  | i, .fn f :: rest, t => by
    rw [items]
    split
    · exact globals_items (i + 1) rest t
    · exact globals_items (i + 1) rest _

/-- The items from some place on leave the overloads of the items before it. -/
theorem overloadForItem_items_lt {j : Nat} :
    ∀ (i : Nat) (its : List Item) (t : ModuleTable), j < i →
    (items externals i its t).value.2.overloadForItem j = t.overloadForItem j
  | _, [], _, _ => by rw [items]; rfl
  | i, .synonym _ :: rest, t, h | i, .global _ :: rest, t, h => by
    rw [items]
    exact overloadForItem_items_lt (i + 1) rest t (Nat.lt_succ_of_lt h)
  | i, .fn f :: rest, t, h => by
    rw [items]
    split
    · exact overloadForItem_items_lt (i + 1) rest t (Nat.lt_succ_of_lt h)
    · refine (overloadForItem_items_lt (i + 1) rest _ (Nat.lt_succ_of_lt h)).trans ?_
      rw [ModuleTable.overloadForItem_setLocals, if_neg (Nat.ne_of_lt h)]

end Scoping

theorem Callables.updateFirst_of_find? {α : Type} {p : α → Bool} {f : α → α} {o : α}
    (ho : f o = o) :
    ∀ {fs : Callables α}, fs.all.find? p = some o → updateFirst p f fs = fs
  | [], _ => rfl
  | (key, set) :: fs, h => by
    have hall : all ((key, set) :: fs) = set ++ all fs := rfl
    rw [hall, List.find?_append] at h
    rw [updateFirst]
    split
    · next i hi =>
      obtain ⟨l, o', r, rfl, hl, ho', hm⟩ := modify_findIdx hi f
      have hfirst : (l ++ o' :: r).find? p = some o' := by
        rw [List.find?_append, List.find?_eq_none.2 fun x hx => by simp [hl x hx], Option.none_or,
          List.find?_cons_of_pos ho']
      rw [hfirst, Option.some_or] at h
      cases h
      rw [hm, ho]
    · next hnone =>
      rw [List.find?_eq_none.2 fun x hx => by simpa using List.findIdx?_eq_none_iff.1 hnone x hx,
        Option.none_or] at h
      rw [updateFirst_of_find? ho h]

/-- To record what is recorded changes nothing. -/
theorem ModuleTable.setLocals_of_recorded {t : ModuleTable} {i : Nat} {o : LocalOverload}
    (h : t.overloadForItem i = some o) : t.setLocals i o.locals = t := by
  have hsame := Callables.updateFirst_of_find? (f := fun x => { x with locals := o.locals }) rfl h
  simp only [setLocals, hsame]

namespace Scoping

variable {externals : ExternalTable}

/-- The table that the first run leaves is the table of the second run from its beginning to its
end. -/
theorem items_repeats : ∀ (i : Nat) (its : List Item) (t : ModuleTable),
    items externals i (items externals i its t).value.1 (items externals i its t).value.2 =
      items externals i its t
  | _, [], _ => by simp only [items, Noted.value_pure]
  | i, .synonym s :: rest, t => by
    simp only [items, Noted.value_bind, Noted.value_pure, items_repeats (i + 1) rest t]
  | i, .global d :: rest, t => by
    have hglobals : (items externals (i + 1) rest t).value.2.globals = t.globals :=
      globals_items (i + 1) rest t
    simp only [items, Noted.value_bind, Noted.value_pure, global_congr hglobals, global_repeats,
      items_repeats (i + 1) rest t]
  | i, .fn f :: rest, t => by
    cases ho : t.overloadForItem i with
    | none =>
      have hnone : (items externals (i + 1) rest t).value.2.overloadForItem i = none :=
        (overloadForItem_items_lt (i + 1) rest t (Nat.lt_succ_self i)).trans ho
      simp only [items, ho, Noted.value_bind, Noted.value_pure, hnone, items_repeats (i + 1) rest t]
    | some o =>
      -- The body sees the parameters and globals that it saw before, and its variables are on
      -- record.
      generalize hb : (Stmt.rewriteAll (body t externals o.args) f.body).run [] = b
      generalize ht : t.setLocals i b.value.2 = t'
      have hglobals : (items externals (i + 1) rest t').value.2.globals = t.globals := by
        rw [globals_items, ← ht]
        rfl
      have hrecorded : (items externals (i + 1) rest t').value.2.overloadForItem i =
          some { o with locals := b.value.2 } := by
        rw [overloadForItem_items_lt _ _ _ (Nat.lt_succ_self i), ← ht,
          ModuleTable.overloadForItem_setLocals,
          if_pos rfl, ho]
        rfl
      have hbody : (Stmt.rewriteAll (body t externals o.args) b.value.1).run [] = b := by
        rw [← hb]
        exact body_repeats o.args [] f.body
      have hsame := ModuleTable.setLocals_of_recorded hrecorded
      refine Noted.ext ?_ ?_ <;>
        simp only [items, ho, hb, Noted.value_bind, Noted.notes_bind, Noted.value_pure, ht,
          hrecorded, body_congr hglobals, hbody, hsame, items_repeats (i + 1) rest t']

theorem resolve_repeats (p : Program) (t : ModuleTable) :
    resolve externals (resolve externals p t).value.1 (resolve externals p t).value.2 =
      resolve externals p t := by
  simp only [resolve, Noted.value_bind, Noted.value_pure, items_repeats]

end Scoping

/-! ## Grouping -/

namespace Precedence

variable {v : Visible}

/-- Grouping leaves the expression as it is. What it reports is not said. -/
def Grouped (v : Visible) (e : Expr) : Prop := (expr v e).value = e

theorem exprs_two (l r : Expr) : exprs v [l, r] =
    ⟨[(expr v l).value, (expr v r).value], (expr v l).notes ++ (expr v r).notes⟩ := by
  apply Noted.ext <;> simp [exprs]

theorem grouped_apply {o : Operation} {l r : Expr} (hl : Grouped v l) (hr : Grouped v r) :
    Grouped v (o.apply l r) := by
  rw [Grouped, Operation.apply, expr_call, exprs_two, hl, hr]

theorem notes_apply (o : Operation) (l r : Expr) :
    (expr v (o.apply l r)).notes = (expr v l).notes ++ (expr v r).notes := by
  rw [Operation.apply, expr_call, exprs_two, if_neg CallKind.noConfusion, List.nil_append]

/-- Climbing keeps the order of the operands, and with it the order of what is reported of them. -/
theorem notes_climb (least : Nat) (left : Expr) (os : List Operation) :
    (expr v (climb least left os).tree).notes ++
        (climb least left os).rest.flatMap (fun o => (expr v o.operand).notes) =
      (expr v left).notes ++ os.flatMap fun o => (expr v o.operand).notes := by
  fun_induction climb least left os with
  | case1 => rfl
  | case2 least left o os _ right whole ihr ihw =>
    refine ihw.trans ?_
    rw [notes_apply, List.append_assoc, ihr, List.flatMap_cons]
  | case3 => rfl

theorem rest_climb_zero (left : Expr) (os : List Operation) : (climb 0 left os).rest = [] := by
  generalize hleast : 0 = least
  fun_induction climb least left os with
  | case1 => rfl
  | case2 least left o os _ right whole _ ihw => exact ihw hleast
  | case3 least left o os h => exact absurd (hleast ▸ Nat.zero_le _) h

theorem notes_grouped (first : Expr) (os : List Operation) : (expr v (grouped first os)).notes =
    (expr v first).notes ++ os.flatMap fun o => (expr v o.operand).notes := by
  have h := notes_climb (v := v) 0 first os
  rwa [rest_climb_zero, List.flatMap_nil, List.append_nil] at h

theorem notes_operands (rest : List (OpUse × Expr)) :
    (operands v rest).notes = rest.flatMap fun x => (expr v x.2).notes := by
  induction rest with
  | nil => rw [operands]; rfl
  | cons x rest ih =>
    rw [operands]
    simp only [Noted.notes_bind, Noted.notes_pure, List.append_nil, ih, List.flatMap_cons]

/-- Operands that are left as they are, all of them. -/
theorem grouped_of_operands : ∀ {rest : List (OpUse × Expr)}, (operands v rest).value = rest →
    ∀ x ∈ rest, Grouped v x.2
  | [], _ => List.forall_mem_nil _
  | (op, e) :: rest, h => by
    rw [operands] at h
    simp only [Noted.value_bind, Noted.value_pure, List.cons.injEq, Prod.mk.injEq, true_and] at h
    exact List.forall_mem_cons.2 ⟨h.1, grouped_of_operands h.2⟩

theorem notes_operations_of_some : ∀ {rest : List (OpUse × Expr)} {os : List Operation},
    (operations v rest).value = some os → (operations v rest).notes = []
  | [], _, _ => by rw [operations]; rfl
  | (op, e) :: rest, os, h => by
    rw [operations] at h ⊢
    split at h
    · obtain ⟨os', hos', -⟩ := Option.map_eq_some_iff.1 h
      simp only [Noted.notes_bind, Noted.notes_pure, List.append_nil, notes_operations_of_some hos']
    · cases h

/-- A sequence that is grouped has the reports on its operands, and so does the tree that it
becomes. -/
theorem expr_grouped {first : Expr} {rest : List (OpUse × Expr)} {os : List Operation}
    (hfirst : Grouped v first) (hrest : (operands v rest).value = rest)
    (hos : (operations v rest).value = some os) :
    expr v (grouped first os) =
      ⟨grouped first os, (expr v first).notes ++ (operands v rest).notes⟩ := by
  obtain ⟨hmap, -⟩ := operations_eq_some hos
  have hoperands := forall_operations (Q := fun _ e => Grouped v e) hos (grouped_of_operands hrest)
  refine Noted.ext ?_ ?_
  · exact grouped_closed (Q := Grouped v) (O := fun _ => True) (fun _ => grouped_apply) hfirst
      fun o ho => ⟨trivial, hoperands o ho⟩
  · rw [notes_grouped, notes_operands, ← hmap, List.flatMap_map]

mutual

theorem expr_repeats : ∀ e : Expr, expr v (expr v e).value = expr v e
  | .int .. | .char .. | .bool .. | .str .. | .emptyList .. | .var _ => by
    simp only [expr, Noted.value_pure]
  | .pair a b _ => by
    simp only [expr, Noted.value_bind, Noted.value_pure, expr_repeats a, expr_repeats b]
  | .call kind name as l => by simp only [expr_call, exprs_repeats as]
  | .bound b as l => by simp only [expr, Noted.value_bind, Noted.value_pure, exprs_repeats as]
  | .flat e rest l => by
    have he := expr_repeats e
    have hrest := operands_repeats rest
    cases hos : (operations v (operands v rest).value).value with
    | none =>
      -- The sequence stays, with operands that are grouped, and the same operators are undefined.
      rw [value_flat, hos]
      simp only [expr, he, hrest]
    | some os =>
      have htree := expr_grouped (congrArg Noted.value he) (congrArg Noted.value hrest) hos
      rw [he, hrest] at htree
      rw [value_flat, hos]
      simp only [htree]
      refine Noted.ext ?_ ?_
      · rw [value_flat, hos]
      · simp only [expr, Noted.notes_bind, hos, Noted.notes_pure, List.append_nil,
          notes_operations_of_some hos]

theorem exprs_repeats : ∀ es : List Expr, exprs v (exprs v es).value = exprs v es
  | [] => by simp only [exprs, Noted.value_pure]
  | e :: es => by
    simp only [exprs, Noted.value_bind, Noted.value_pure, expr_repeats e, exprs_repeats es]

theorem operands_repeats :
    ∀ rest : List (OpUse × Expr), operands v (operands v rest).value = operands v rest
  | [] => by simp only [operands, Noted.value_pure]
  | (_, e) :: rest => by
    simp only [operands, Noted.value_bind, Noted.value_pure, expr_repeats e, operands_repeats rest]

end

theorem at_repeats (p : Place) : (body v).at ((body v).at p).value = (body v).at p := by
  cases p with
  | ret l e =>
    cases e <;> simp only [Rewriter.at, body, Noted.value_bind, Noted.value_pure, expr_repeats]
  | _ => simp only [Rewriter.at, body, Noted.value_bind, Noted.value_pure, expr_repeats]

theorem item_repeats (it : Item) : item v (item v it).value = item v it := by
  cases it with
  | synonym s => rfl
  | global d => simp only [item, Noted.value_bind, Noted.value_pure, expr_repeats]
  | fn f =>
    have hall : Stmt.HoldsAll (fun _ => True) f.body :=
      (Stmt.walkAll_refl f.body).holds fun _ _ _ _ _ => trivial
    have hbody := Stmt.rewriteAll_repeats (w := body v) (fun {p} _ => at_repeats p) hall
    simp only [item, Noted.value_bind, Noted.value_pure, hbody]

theorem resolve_repeats (v : Visible) (p : Program) :
    resolve v (resolve v p).value = resolve v p := by
  have hitems : ∀ its : List Item, (its.mapM (item v)).value.mapM (item v) = its.mapM (item v) := by
    intro its
    induction its with
    | nil => rfl
    | cons it its ih =>
      simp only [List.mapM_cons, Noted.value_bind, Noted.value_pure, item_repeats, ih]
  simp only [resolve, Noted.value_bind, Noted.value_pure, hitems]

end Precedence

/-- Scoping and grouping can be repeated on every program, faulty or not, and with whatever tables.
The second run of either pass leaves the program as the first run left it, and the table with it,
and its reports are those of the first run in the same order. -/
theorem scoping_and_grouping_repeat (externals : ExternalTable) (t : ModuleTable) (v : Visible)
    (p : Program) :
    Scoping.resolve externals (Scoping.resolve externals p t).value.1
      (Scoping.resolve externals p t).value.2 =
      Scoping.resolve externals p t ∧
    Precedence.resolve v (Precedence.resolve v p).value = Precedence.resolve v p :=
  ⟨Scoping.resolve_repeats p t, Precedence.resolve_repeats v p⟩

end SplFrontend
