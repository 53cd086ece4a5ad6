import SplFrontend.Proofs.Precedence
import SplFrontend.Proofs.Scoped
import SplFrontend.Resolution

/-!
# What the passes read

Up to the choice of overloads, the passes read the tables by looking names up: the definition of a
synonym, the entry of a global, the fixity of an operator, and whether a prefix operator is known at
all. So tables that answer these questions alike make no difference to them.
-/

namespace SplFrontend

theorem lookup_perm {α : Type} {l l' : List (String × α)} (hp : l'.Perm l)
    (hl : (l.map Prod.fst).Nodup) (name : String) : l'.lookup name = l.lookup name := by
  have hl' : (l'.map Prod.fst).Nodup := (hp.map _).nodup_iff.2 hl
  refine Option.ext fun a => ⟨fun h => ?_, fun h => ?_⟩
  · exact lookup_of_mem hl (hp.mem_iff.1 (mem_of_lookup h))
  · exact lookup_of_mem hl' (hp.mem_iff.2 (mem_of_lookup h))

/-! ## Synonyms -/

section
variable {env env' : Synonyms} (h : ∀ name, env'.lookup name = env.lookup name)

include h

theorem Ty.expandIn_congr (chain : List String) (t : Ty) :
    t.expandIn env' chain = t.expandIn env chain := by
  fun_induction Ty.expandIn env chain t with
  | case1 => rw [expandIn]
  | case2 chain a b iha ihb => rw [expandIn, iha, ihb]
  | case3 chain e ih => rw [expandIn, ih]
  | case4 chain name hd =>
    rw [expandIn]
    split
    · rfl
    next hd' => cases (hd.symm.trans (h name).symm).trans hd'
  | case5 chain name d hd hn =>
    rw [expandIn]
    split
    next hd' => cases (hd.symm.trans (h name).symm).trans hd'
    next hd' =>
      cases (hd.symm.trans (h name).symm).trans hd'
      rw [dif_pos hn]
  | case6 chain name d hd hn ih =>
    rw [expandIn]
    split
    next hd' => cases (hd.symm.trans (h name).symm).trans hd'
    next hd' =>
      cases (hd.symm.trans (h name).symm).trans hd'
      rw [dif_neg hn, ih]

theorem Synonyms.expansion_congr (name : String) : env'.expansion name = env.expansion name := by
  simp only [expansion, h, Ty.expandIn_congr h]

namespace Annotations

theorem expandTy_congr : expandTy env' = expandTy env := by
  funext loc t
  rw [expandTy, expandTy, Ty.expand, Ty.expand, Ty.expandIn_congr h]

theorem decl_congr : decl env' = decl env := by
  funext untyped void d
  simp only [decl, expandTy_congr h]

theorem params_congr (f : FnDef) (ps : List Param) (ts : List Ty) :
    params env' f ps ts = params env f ps ts := by
  induction ts generalizing ps with
  | nil => simp only [params]
  | cons t ts ih => simp only [params, ih, expandTy_congr h]

theorem callable_congr (f : FnDef) : callable env' f = callable env f := by
  simp only [callable, signature, locals, params_congr h, expandTy_congr h, decl_congr h]

theorem item_congr {t t' : ModuleTable}
    (ht : ∀ name, t'.synonyms.lookup name = t.synonyms.lookup name) (it : Item) :
    item t' env' it = item t env it := by
  cases it <;> simp only [item, synonym, declares, ht, Synonyms.expansion_congr h, decl_congr h,
    callable_congr h]

theorem entry_congr {its its' : List Item} (hits : ∀ it, it ∈ its' ↔ it ∈ its)
    (name : String) (e : Entry) :
    entry env' its' name e = entry env its name e := by
  have hany : ∀ p : Item → Bool, its'.any p = its.any p := by
    intro p
    rw [Bool.eq_iff_iff, List.any_eq_true, List.any_eq_true]
    simp only [hits]
  simp only [entry, hany, Synonyms.expansion_congr h]

end Annotations

end

/-! ## Tables from elsewhere -/

/-- Two external tables that answer every question of the passes before overloads are chosen
alike. -/
structure ExternalTable.Agrees (e e' : ExternalTable) : Prop where
  globals : ∀ name, e'.globals.lookup name = e.globals.lookup name
  synonyms : ∀ name, e'.synonyms.lookup name = e.synonyms.lookup name
  fixity : ∀ op, e'.fixityOf op = e.fixityOf op

section
variable {e e' : ExternalTable} (h : e.Agrees e')

include h

namespace Annotations

theorem declare_agrees (its : List Item) (t : ModuleTable) :
    declare e' its t = declare e its t := by
  induction its generalizing t with
  | nil => rfl
  | cons it its ih => cases it <;> simp only [declare, h.synonyms, ih]

theorem lookup_synonymDefs_agrees (t : ModuleTable) (name : String) :
    (synonymDefs t e').lookup name = (synonymDefs t e).lookup name := by
  rw [lookup_synonymDefs, lookup_synonymDefs, h.synonyms]

theorem normalise_agrees (p : Program) (t : ModuleTable) : normalise e' p t = normalise e p t := by
  have hitem : ∀ t : ModuleTable, item t (synonymDefs t e') = item t (synonymDefs t e) := fun t =>
    funext fun it => item_congr (lookup_synonymDefs_agrees h t) (fun _ => rfl) it
  have hentry : ∀ (t : ModuleTable) name x,
      entry (synonymDefs t e') p.items name x = entry (synonymDefs t e) p.items name x :=
    fun t name x =>
    entry_congr (lookup_synonymDefs_agrees h t) (fun _ => Iff.rfl) name x
  simp only [normalise, declare_agrees h, hitem, hentry]

end Annotations

namespace Declarations

theorem fixities_agrees (seen : List (String × Fixity × Loc)) (its : List Item) :
    fixities e' seen its = fixities e seen its := by
  induction its generalizing seen with
  | nil => rfl
  | cons it its ih =>
    cases it with
    | synonym | global => simp only [fixities, ih]
    | fn f =>
      obtain ⟨head, name, params, sig, body, loc⟩ := f
      cases head <;> simp only [fixities, h.fixity, ih]

end Declarations

theorem declareModule_agrees (p : Program) (t : ModuleTable) :
    declareModule e' p t = declareModule e p t := by
  simp only [declareModule, Declarations.collect, Annotations.normalise_agrees h,
    Declarations.fixities_agrees h]

namespace Scoping

theorem importedRef_agrees (name : String) : importedRef e' name = importedRef e name := by
  rw [importedRef, importedRef, h.globals]

theorem body_agrees (t : ModuleTable) (args : Scope) : body t e' args = body t e args := by
  have hin : inFunction t e' = inFunction t e := by
    funext args locals name
    simp only [inFunction, importedRef_agrees h]
  have hexpr : bodyExpr t e' args = bodyExpr t e args := by
    funext x
    simp only [bodyExpr, hin]
  have hvar : bodyVar t e' args = bodyVar t e args := by
    funext x
    simp only [bodyVar, hin]
  have hdeclare : declare t e' args = declare t e args := by
    funext locals d
    simp only [declare, h.globals]
  simp only [body, hexpr, hvar, hdeclare]

theorem global_agrees (t : ModuleTable) (d : VarDecl) : global t e' d = global t e d := by
  have hin : inGlobal t e' = inGlobal t e := by
    funext limit name
    simp only [inGlobal, importedRef_agrees h]
  simp only [global, hin, h.globals]

theorem items_agrees (i : Nat) (its : List Item) (t : ModuleTable) :
    items e' i its t = items e i its t := by
  induction its generalizing i t with
  | nil => simp only [items]
  | cons it its ih => cases it <;> simp only [items, ih, body_agrees h, global_agrees h]

theorem resolve_agrees (p : Program) (t : ModuleTable) : resolve e' p t = resolve e p t := by
  simp only [resolve, items_agrees h]

end Scoping

end

/-! ## Operators -/

namespace Precedence

section
variable {v v' : Visible}

theorem operations_congr (hf : ∀ op, v'.fixityOf op = v.fixityOf op) (rest : List (OpUse × Expr)) :
    operations v' rest = operations v rest := by
  induction rest with
  | nil => simp only [operations]
  | cons x rest ih => simp only [operations, ih, hf]

theorem isEmpty_candidates (v : Visible) (kind : CallKind) (name : String) :
    (v.candidates kind name).isEmpty =
    ((v.own.overloads kind name).isEmpty && (v.externals.overloads kind name).isEmpty) := by
  rw [Bool.eq_iff_iff, Bool.and_eq_true, List.isEmpty_iff, List.isEmpty_iff, List.isEmpty_iff,
    Visible.candidates, List.append_eq_nil_iff, Visible.localCandidates, Visible.externalCandidates,
      List.mapIdx_eq_nil_iff,
    List.mapIdx_eq_nil_iff]

/-- Two tables that answer every question about operators alike. -/
structure Agrees (v v' : Visible) : Prop where
  fixity : ∀ op, v'.fixityOf op = v.fixityOf op
  isEmpty : ∀ name, (v'.candidates .prefixOp name).isEmpty = (v.candidates .prefixOp name).isEmpty

mutual

theorem expr_agrees (h : Agrees v v') : ∀ e : Expr, expr v' e = expr v e
  | .int .. | .char .. | .bool .. | .str .. | .emptyList .. | .var _ => by simp only [expr]
  | .pair a b _ => by simp only [expr, expr_agrees h a, expr_agrees h b]
  | .flat e rest _ => by
    simp only [expr, expr_agrees h e, operands_agrees h rest, operations_congr h.fixity]
  | .call _ _ as _ => by simp only [expr, exprs_agrees h as, prefixDefined, h.isEmpty]
  | .bound _ as _ => by simp only [expr, exprs_agrees h as]

theorem exprs_agrees (h : Agrees v v') : ∀ es : List Expr, exprs v' es = exprs v es
  | [] => by simp only [exprs]
  | e :: es => by simp only [exprs, expr_agrees h e, exprs_agrees h es]

theorem operands_agrees (h : Agrees v v') :
    ∀ rest : List (OpUse × Expr), operands v' rest = operands v rest
  | [] => by simp only [operands]
  | (_, e) :: rest => by simp only [operands, expr_agrees h e, operands_agrees h rest]

end

theorem item_agrees (h : Agrees v v') (it : Item) : item v' it = item v it := by
  have hexpr : expr v' = expr v := funext (expr_agrees h)
  cases it <;> simp only [item, body, hexpr]

end

end Precedence

end SplFrontend
