import SplFrontend.Proofs.Normal
import SplFrontend.Proofs.Pipeline
import SplFrontend.Proofs.Precedence
import SplFrontend.Proofs.Scoping
import SplFrontend.Proofs.Typing

/-!
# Passes without warnings

Expanding and declaring, grouping and checking report errors only. So where they are let through
they have reported nothing at all. Scoping warns, but only of declarations: what it reports of the
variables are errors.
-/

namespace SplFrontend

/-! ## Computations that report errors only -/

namespace Noted

variable {α β : Type}

/-- Everything that is reported is an error. -/
def Strict (x : Noted α) : Prop := ∀ d ∈ x.notes, d.isError = true

@[simp] theorem strict_pure (a : α) : (pure a : Noted α).Strict := List.forall_mem_nil _

@[simp] theorem strict_bind {x : Noted α} {f : α → Noted β} :
    (x >>= f).Strict ↔ x.Strict ∧ (f x.value).Strict := forall_notes_bind

@[simp] theorem strict_map (f : α → β) (x : Noted α) : (f <$> x).Strict ↔ x.Strict := by
  rw [Strict, Strict, notes_map]

theorem Strict.bind {x : Noted α} {f : α → Noted β} (hx : x.Strict) (hf : (f x.value).Strict) :
    (x >>= f).Strict := strict_bind.2 ⟨hx, hf⟩

/-- The report of an error. -/
theorem Strict.note {f : Fault} (h : f.code.isError = true) (loc : Loc) (related : List Loc) :
    (note (f.report loc related)).Strict := List.forall_mem_singleton.2 h

/-- The report of an error before some more work. -/
theorem Strict.note_bind {f : Fault} (h : f.code.isError = true) {loc : Loc} {related : List Loc}
    {x : Noted α} (hx : x.Strict) : (Noted.note (f.report loc related) >>= fun _ => x).Strict :=
  (note h loc related).bind hx

/-- The report of an error under a condition. -/
theorem Strict.note_if {c : Prop} [Decidable c] {f : Fault} (h : f.code.isError = true) {loc : Loc}
    {related : List Loc} {x : Noted α} (hx : x.Strict) :
    (if c then Noted.note (f.report loc related) >>= fun _ => x else x).Strict := by
  split
  · exact note_bind h hx
  · exact hx

theorem Strict.mapM {f : α → Noted β} {l : List α} (h : ∀ a ∈ l, (f a).Strict) :
    (l.mapM f).Strict := by
  intro d hd
  rw [notes_mapM, List.mem_flatMap] at hd
  obtain ⟨a, ha, hd⟩ := hd
  exact h a ha d hd

/-- Where no error is reported, nothing is. -/
theorem Strict.notes_eq_nil {x : Noted α} (hx : x.Strict) (h : ∀ d ∈ x.notes, NotError d) :
    x.notes = [] := by
  refine List.eq_nil_iff_forall_not_mem.2 fun d hd => ?_
  have hd' := h d hd
  rw [NotError, hx d hd] at hd'
  cases hd'

end Noted

open Noted (Strict)

theorem Stmt.strict_rewriteAll {w : Rewriter Noted} (hw : ∀ p, (w.at p).Strict) (b : List Stmt) :
    (Stmt.rewriteAll w b).Strict := by
  have hwalk := Stmt.walk_rewriteAll_lift (w := w) (P := fun _ => True) b fun _ _ => trivial
  exact (hwalk.follow_lift (E := fun _ _ => True) fun {_ p _ _} _ => ⟨hw p, trivial⟩).1

theorem ExpandFault.isError_code (why : ExpandFault) : why.code.isError = true := by
  cases why with
  | cycle name external => cases external <;> rfl
  | undefined name => rfl

/-! ## Annotations -/

namespace Annotations

variable {externals : ExternalTable} {env : Synonyms} {t : ModuleTable}

theorem strict_declare : ∀ (its : List Item) (t : ModuleTable), (declare externals its t).Strict
  | [], _ => Noted.strict_pure _
  | .synonym s :: its, t => by
    rw [declare]
    split
    · exact .note_bind rfl (strict_declare its t)
    · split
      · exact strict_declare its _
      · exact .note_bind rfl (strict_declare its t)
  | .global _ :: its, t | .fn _ :: its, t => strict_declare its t

theorem strict_synonym (s : Synonym) : (synonym t env s).Strict := by
  unfold synonym
  split
  · split
    · exact .note_if rfl (Noted.strict_pure _)
    · next why _ => exact .note_bind (f := .expansion why) why.isError_code (Noted.strict_pure _)
  · exact Noted.strict_pure _

theorem strict_annotated (loc : Loc) (ty : Ty) : (expandTy env loc ty).Strict := by
  unfold expandTy
  split
  · exact Noted.strict_pure _
  · exact .note_bind rfl (Noted.strict_pure _)
  · exact Noted.strict_pure _

theorem strict_decl {untyped void : String → Fault} (hu : ∀ n, (untyped n).code.isError = true)
    (hv : ∀ n, (void n).code.isError = true) (d : VarDecl) : (decl env untyped void d).Strict := by
  unfold decl
  split
  · exact .note_bind (hu _) (Noted.strict_pure _)
  · refine (strict_annotated _ _).bind ?_
    split
    · exact Noted.strict_pure _
    · exact .note_if (hv _) (Noted.strict_pure _)

theorem strict_distinctParams (f : FnDef) :
    ∀ earlier ps : List Param, (distinctParams f earlier ps).Strict
  | _, [] => Noted.strict_pure _
  | earlier, p :: ps => by
    have ih := strict_distinctParams f (earlier ++ [p]) ps
    rw [distinctParams]
    split
    · exact .note_bind rfl ih
    · exact ih

theorem strict_params (f : FnDef) :
    ∀ (ps : List Param) (tys : List Ty), (params env f ps tys).Strict
  | _, [] => Noted.strict_pure _
  | ps, ty :: tys => by
    rw [params]
    refine (strict_annotated _ _).bind (.note_if rfl ?_)
    exact (strict_params f ps.tail tys).bind (Noted.strict_pure _)

theorem strict_signature (f : FnDef) (s : Signature) : (signature env f s).Strict := by
  unfold signature
  refine .note_if rfl ((strict_params f _ _).bind ((strict_annotated _ _).bind ?_))
  exact .note_if rfl (Noted.strict_pure _)

theorem strict_operatorArity (f : FnDef) : (operatorArity f).Strict := by
  unfold operatorArity
  split
  · split
    · exact .note rfl _ _
    · exact Noted.strict_pure _
  · exact Noted.strict_pure _

theorem strict_locals (p : Place) : ((locals env).at p).Strict := by
  cases p with
  | decl d => exact (strict_decl (fun _ => rfl) (fun _ => rfl) d).bind (Noted.strict_pure _)
  | _ => exact Noted.strict_pure _

theorem strict_callable (f : FnDef) : (callable env f).Strict := by
  have hbody := Stmt.strict_rewriteAll (w := locals env) strict_locals f.body
  unfold callable
  refine (strict_distinctParams f _ _).bind ((strict_operatorArity f).bind ?_)
  have hrest : ∀ sig, (do
      let body ← Stmt.rewriteAll (locals env) f.body
      return { f with sig, body } : Noted FnDef).Strict := fun _ => hbody.bind (Noted.strict_pure _)
  split
  · exact (strict_signature f _).bind (hrest _)
  · exact .note_bind rfl (hrest _)

theorem strict_item (it : Item) : (item t env it).Strict := by
  cases it with
  | synonym s => exact (strict_synonym s).bind (Noted.strict_pure _)
  | global d => exact (strict_decl (fun _ => rfl) (fun _ => rfl) d).bind (Noted.strict_pure _)
  | fn f => exact (strict_callable f).bind (Noted.strict_pure _)

theorem strict_normalise (p : Program) : (normalise externals p t).Strict :=
  (strict_declare _ _).bind ((Strict.mapM fun _ _ => strict_item _).bind (Noted.strict_pure _))

end Annotations

/-! ## Declarations -/

namespace Declarations

theorem strict_global (t : ModuleTable) (d : VarDecl) : (global t d).Strict := by
  unfold global
  split
  · exact Noted.strict_pure _
  · split
    · exact Noted.strict_pure _
    · exact .note_bind rfl (Noted.strict_pure _)

theorem strict_callable (t : ModuleTable) (i : Nat) (f : FnDef) : (callable t i f).Strict := by
  unfold callable
  split
  · exact Noted.strict_pure _
  · split
    · exact Noted.strict_pure _
    · dsimp only
      split
      · exact Noted.strict_pure _
      · exact .note_bind rfl (Noted.strict_pure _)

theorem strict_items : ∀ (i : Nat) (its : List Item) (t : ModuleTable), (items i its t).Strict
  | _, [], _ => Noted.strict_pure _
  | i, .synonym _ :: rest, t => strict_items (i + 1) rest t
  | i, .global d :: rest, t => (strict_global t d).bind (strict_items (i + 1) rest _)
  | i, .fn f :: rest, t => (strict_callable t i f).bind (strict_items (i + 1) rest _)

theorem strict_fixities {externals : ExternalTable} :
    ∀ (seen : List (String × Fixity × Loc)) (its : List Item),
    (fixities externals seen its).Strict
  | _, [] => Noted.strict_pure _
  | seen, .fn ⟨.infixOp x, name, _, _, _, loc⟩ :: rest => by
    rw [fixities]
    split
    · exact .note_bind rfl (strict_fixities seen rest)
    · split
      · exact strict_fixities _ rest
      · exact .note_if rfl (strict_fixities seen rest)
  | seen, .fn ⟨.prefixOp, _, _, _, _, _⟩ :: rest | seen, .fn ⟨.function, _, _, _, _, _⟩ :: rest
  | seen, .synonym _ :: rest | seen, .global _ :: rest => strict_fixities seen rest

end Declarations

theorem strict_declareModule (externals : ExternalTable) (p : Program) (t : ModuleTable) :
    (declareModule externals p t).Strict := by
  have hcollect : ∀ p t, (Declarations.collect externals p t).Strict := fun _ _ =>
    (Declarations.strict_items _ _ _).bind
      ((Declarations.strict_fixities _ _).bind (Noted.strict_pure _))
  exact (Annotations.strict_normalise p).bind ((hcollect _ _).bind (Noted.strict_pure _))

/-! ## Variables -/

namespace Scoping

theorem strict_tag {lookup : String → Option Ref} {missing : String → Fault}
    (hm : ∀ n, (missing n).code.isError = true) (v : Variable) : (tag lookup missing v).Strict := by
  unfold tag
  split
  · split
    · exact Noted.strict_pure _
    · exact .note_bind (hm _) (Noted.strict_pure _)
  · exact Noted.strict_pure _

variable {f : Variable → Noted Variable}

mutual

theorem strict_expr (hf : ∀ v, (f v).Strict) : ∀ e : Expr, (expr f e).Strict
  | .int .. | .char .. | .bool .. | .str .. | .emptyList .. => by simp [expr]
  | .var v => by simpa [expr] using hf v
  | .pair a b _ => by simp [expr, strict_expr hf a, strict_expr hf b]
  | .flat e rest _ => by simp [expr, strict_expr hf e, strict_operands hf rest]
  | .call _ _ as _ | .bound _ as _ => by simpa [expr] using strict_exprs hf as

theorem strict_exprs (hf : ∀ v, (f v).Strict) : ∀ es : List Expr, (exprs f es).Strict
  | [] => by simp [exprs]
  | e :: es => by simp [exprs, strict_expr hf e, strict_exprs hf es]

theorem strict_operands (hf : ∀ v, (f v).Strict) :
    ∀ rest : List (OpUse × Expr), (operands f rest).Strict
  | [] => by simp [operands]
  | (_, e) :: rest => by simp [operands, strict_expr hf e, strict_operands hf rest]

end

theorem strict_place (hf : ∀ v, (f v).Strict) (p : Place) : (place f p).Strict := by
  cases p with
  | ret l e => cases e <;> simp [place, strict_expr hf]
  | _ => simp [place, strict_expr hf, hf]

end Scoping

/-! ## Grouping -/

namespace Precedence

variable {v : Visible}

theorem strict_operations : ∀ rest : List (OpUse × Expr), (operations v rest).Strict
  | [] => Noted.strict_pure _
  | (op, _) :: rest => by
    rw [operations]
    split
    · exact (strict_operations rest).bind (Noted.strict_pure _)
    · exact .note_bind rfl ((strict_operations rest).bind (Noted.strict_pure _))

theorem strict_prefixDefined (name : String) (loc : Loc) : (prefixDefined v name loc).Strict := by
  unfold prefixDefined
  split
  · exact .note rfl _ _
  · exact Noted.strict_pure _

mutual

theorem strict_expr : ∀ e : Expr, (expr v e).Strict
  | .int .. | .char .. | .bool .. | .str .. | .emptyList .. | .var _ => by simp [expr]
  | .pair a b _ => by simp [expr, strict_expr a, strict_expr b]
  | .flat e rest _ => by
    simp only [expr, Noted.strict_bind]
    refine ⟨strict_expr e, strict_operands rest, strict_operations _, ?_⟩
    split <;> exact Noted.strict_pure _
  | .call kind _ as _ => by
    rw [expr]
    split <;> simp [strict_prefixDefined, strict_exprs as]
  | .bound _ as _ => by simpa [expr] using strict_exprs as

theorem strict_exprs : ∀ es : List Expr, (exprs v es).Strict
  | [] => by simp [exprs]
  | e :: es => by simp [exprs, strict_expr e, strict_exprs es]

theorem strict_operands : ∀ rest : List (OpUse × Expr), (operands v rest).Strict
  | [] => by simp [operands]
  | (_, e) :: rest => by simp [operands, strict_expr e, strict_operands rest]

end

theorem strict_at (p : Place) : ((body v).at p).Strict := by
  cases p with
  | ret l e => cases e <;> simp [Rewriter.at, body, strict_expr]
  | _ => simp [Rewriter.at, body, strict_expr]

theorem strict_item (it : Item) : (item v it).Strict := by
  cases it with
  | synonym s => simp [item]
  | global d => simp [item, strict_expr]
  | fn f => simpa [item] using Stmt.strict_rewriteAll strict_at f.body

theorem strict_resolve (p : Program) : (resolve v p).Strict := by
  simp only [resolve, Noted.strict_bind]
  exact ⟨.mapM fun _ _ => strict_item _, Noted.strict_pure _⟩

end Precedence

/-! ## Checking -/

namespace Typing

variable {cx : Context}

theorem strict_mismatch (found : Ty) (expected : Option Ty) (l : Loc) :
    ∀ d ∈ mismatch found expected l, d.isError = true := by
  unfold mismatch
  split
  · split
    · exact List.forall_mem_nil _
    · exact Strict.note rfl _ _
  · exact List.forall_mem_nil _

theorem strict_emptyList (given expected : Option Ty) (l : Loc) :
    (emptyList given expected l).noted.Strict := by
  unfold emptyList
  split
  · exact List.forall_mem_nil _
  · exact Strict.note rfl _ _
  · exact Strict.note rfl _ _

theorem strict_variableOf (expected : Option Ty) (x : Variable) :
    (variableOf cx expected x).noted.Strict := by
  unfold variableOf
  split
  · exact List.forall_mem_nil _
  · split
    · exact strict_mismatch _ _ _
    · refine Strict.note (f := .access _ _) ?_ _ _
      change (if _ then _ else _ : Code).isError = true
      split <;> rfl

theorem strict_components (expected : Option Ty) (l : Loc) :
    ∀ d ∈ (components expected l).2.2, d.isError = true := by
  unfold components
  split
  · exact List.forall_mem_nil _
  · exact Strict.note rfl _ _
  · exact List.forall_mem_nil _

/-- A call reports an error, or what the trial of its overload has reported. -/
theorem strict_callOf {v : Visible} {kind : CallKind} {name : String} {args : List Expr} {loc : Loc}
    {expected : Option Ty} {attempt : List Ty → Option Trial} {types : Unit → List (Option Ty)}
    (h : ∀ ps t, attempt ps = some t → ∀ d ∈ t.errors, d.isError = true) :
    (callOf v kind name args loc expected attempt types).noted.Strict := by
  obtain ⟨c, t, hc, -, -, -, ht⟩ | ⟨f, hf, hc⟩ :=
    callOf_cases v kind name args loc expected attempt types
  · rw [hc]
    exact h _ t ht
  · rw [hc]
    exact List.forall_mem_singleton.2 hf

mutual

theorem strict_expr : ∀ (e : Expr) (expected : Option Ty), (expr cx expected e).noted.Strict
  | .int .., expected | .char .., expected | .bool .., expected | .str .., expected =>
    strict_mismatch _ expected _
  | .emptyList given l, expected => strict_emptyList given expected l
  | .pair a b l, expected => by
    have ha := strict_expr a (components expected l).1
    have hb := strict_expr b (components expected l).2.1
    have hfront := strict_components expected l
    simp only [expr, Strict, Checked.noted, pairOf, List.forall_mem_append] at ha hb ⊢
    exact ⟨⟨hfront, ha⟩, hb⟩
  | .var x, expected => strict_variableOf expected x
  | .flat .., _ => List.forall_mem_nil _
  | .call _ _ as _, expected => by
    rw [expr]
    exact strict_callOf fun ps t ht => strict_matchArgs as ps ht
  | .bound b as l, expected => by
    rw [expr]
    split
    · exact List.forall_mem_append.2 ⟨strict_recheckArgs as _, strict_mismatch _ _ _⟩
    · exact strict_callOf fun ps t ht => strict_matchArgs as ps ht

theorem strict_matchArgs :
    ∀ (as : List Expr) (ps : List Ty) {t : Trial}, matchArgs cx as ps = some t →
    ∀ d ∈ t.errors, d.isError = true
  | [], _, _, ht => by
    cases ht
    exact List.forall_mem_nil _
  | _ :: _, [], _, ht => by
    cases ht
    exact List.forall_mem_nil _
  | a :: as, p :: ps, _, ht => by
    simp only [matchArgs] at ht
    split at ht
    · obtain ⟨t, ht', rfl⟩ := Option.map_eq_some_iff.1 ht
      exact List.forall_mem_append.2 ⟨strict_expr a _, strict_matchArgs as ps ht'⟩
    · cases ht

theorem strict_recheckArgs : ∀ (as : List Expr) (ps : List Ty), (recheckArgs cx as ps).noted.Strict
  | [], _ => List.forall_mem_nil _
  | _ :: _, [] => List.forall_mem_nil _
  | a :: as, _ :: ps => List.forall_mem_append.2 ⟨strict_expr a _, strict_recheckArgs as ps⟩

end

theorem strict_against (wanted : Ty → Ty) (x : Variable) (e : Expr) :
    (against cx wanted x e).Strict := by
  unfold against
  simp only [Noted.strict_bind]
  refine ⟨strict_variableOf none x, ?_⟩
  split <;> simp [strict_expr]

theorem strict_declared (d : VarDecl) : (declared cx d).Strict := by
  unfold declared
  split <;> simp [strict_expr]

theorem strict_returned (l : Loc) (e : Option Expr) : (returned cx l e).Strict := by
  unfold returned
  split
  · exact Noted.strict_pure _
  · split
    · exact .note_bind rfl (Noted.strict_pure _)
    · exact (strict_expr _ _).bind (Noted.strict_pure _)
  · exact .note_if rfl (Noted.strict_pure _)

theorem strict_at (p : Place) : ((body cx).at p).Strict := by
  cases p <;> simp [Rewriter.at, body, strict_declared, strict_against, strict_expr,
    strict_returned]

mutual

theorem strict_constants {v : Visible} : ∀ e : Expr, ∀ d ∈ constants v e, d.isError = true
  | .bound b as l => by
    have has := strict_constantArgs (v := v) as
    simp only [constants, List.forall_mem_append]
    refine ⟨?_, has⟩
    split
    · exact List.forall_mem_nil _
    · exact Strict.note rfl _ _
  | .pair a b _ => by
    simp only [constants, List.forall_mem_append]
    exact ⟨strict_constants a, strict_constants b⟩
  | .int .. | .char .. | .bool .. | .str .. | .emptyList .. | .var _ | .flat .. | .call .. =>
    List.forall_mem_nil _

theorem strict_constantArgs {v : Visible} :
    ∀ es : List Expr, ∀ d ∈ constantArgs v es, d.isError = true
  | [] => List.forall_mem_nil _
  | e :: es => List.forall_mem_append.2 ⟨strict_constants e, strict_constantArgs es⟩

end

theorem strict_global {v : Visible} (d : VarDecl) : (global v d).Strict := by
  unfold global
  rw [Noted.strict_bind]
  refine ⟨strict_declared d, ?_⟩
  split
  · exact Strict.bind (strict_constants _) (Noted.strict_pure _)
  · exact Noted.strict_pure _

theorem strict_item {v : Visible} (i : Nat) (it : Item) : (item v i it).Strict := by
  cases it with
  | synonym s => simp [item]
  | global d => simp [item, strict_global]
  | fn f =>
    rw [item]
    split
    · exact Noted.strict_pure _
    · exact Noted.strict_bind.2 ⟨Stmt.strict_rewriteAll strict_at f.body, Noted.strict_pure _⟩

theorem strict_items {v : Visible} : ∀ (i : Nat) (its : List Item), (items v i its).Strict
  | _, [] => by simp [items]
  | i, it :: rest => by simp [items, strict_item, strict_items (i + 1) rest]

theorem strict_resolve {v : Visible} (p : Program) : (resolve v p).Strict := by
  simp [resolve, strict_items]

end Typing

end SplFrontend
