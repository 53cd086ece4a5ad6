import SplFrontend.Proofs.Pipeline
import SplFrontend.Proofs.Precedence
import SplFrontend.Proofs.Scoping
import SplFrontend.Proofs.Typing
import SplFrontend.Program.Printing

/-!
# Passes up to places

No pass looks at a place but to report it. So a pass commutes with forgetting places: what it makes
of a tree without places is what it makes of the tree, without places, and the same holds of what it
reports (`Noted.unlocated`). For passes that look names up the tables may differ too, as long as
they answer the same.
-/

namespace SplFrontend

/-! ## Reports -/

/-- The report without its places. -/
def Diagnostic.unlocated (d : Diagnostic) : Diagnostic :=
  { d with loc := .nowhere, related := d.related.map fun _ => .nowhere }

namespace Noted

variable {α β γ δ : Type}

/-- The outcome without its places, given what forgets them in the value. -/
def unlocated (g : α → β) (x : Noted α) : Noted β := ⟨g x.value, x.notes.map Diagnostic.unlocated⟩

@[simp] theorem unlocated_pure (g : α → β) (a : α) : (pure a : Noted α).unlocated g = pure (g a) :=
  rfl

theorem unlocated_note (f : Fault) (loc : Loc) :
    (note (f.report loc)).unlocated id = note (f.report .nowhere) := rfl

theorem unlocated_bind {g : α → β} {h : γ → δ} {x : Noted α} {y : Noted β} {f : α → Noted γ}
    {k : β → Noted δ} (hx : x.unlocated g = y) (hf : ∀ a, (f a).unlocated h = k (g a)) :
    (x >>= f).unlocated h = y >>= k := by
  subst hx
  have hvalue := congrArg value (hf x.value)
  have hnotes := congrArg notes (hf x.value)
  refine Noted.ext hvalue ?_
  simp only [unlocated, notes_bind, List.map_append] at hnotes ⊢
  rw [hnotes]

/-- A report before some more work. -/
theorem unlocated_note_bind {h : γ → δ} {x : Noted γ} {y : Noted δ} (f : Fault) (loc : Loc)
    (hx : x.unlocated h = y) : (note (f.report loc) >>= fun _ => x).unlocated h =
      note (f.report .nowhere) >>= fun _ => y :=
  unlocated_bind (unlocated_note f loc) fun _ => hx

/-- What reports nothing up to places reports nothing. -/
theorem notes_of_unlocated {g : α → β} {x : Noted α} {b : β} (h : x.unlocated g = pure b) :
    x.notes = [] :=
  List.map_eq_nil_iff.1 (congrArg notes h)

/-- Steps that report nothing. -/
theorem unlocated_bind_eq_pure {g : α → β} {h : γ → δ} {x : Noted α} {f : α → Noted γ} {b : β}
    {c : δ} (hx : x.unlocated g = pure b) (hf : ∀ a, g a = b → (f a).unlocated h = pure c) :
    (x >>= f).unlocated h = pure c := by
  have hlast := hf x.value (congrArg value hx)
  have hvalue : h (f x.value).value = c := congrArg value hlast
  refine Noted.ext hvalue ?_
  rw [unlocated, notes_bind, notes_of_unlocated hx, notes_of_unlocated hlast]
  rfl

theorem codes_unlocated {ds es : List Diagnostic}
    (h : ds.map Diagnostic.unlocated = es.map Diagnostic.unlocated) :
    ds.map Diagnostic.code = es.map Diagnostic.code := by
  have hcodes := congrArg (List.map Diagnostic.code) h
  rwa [List.map_map, List.map_map] at hcodes

end Noted

open Noted (unlocated_bind)

/-! ## Trees -/

namespace Expr

@[simp] theorem unlocated_call (kind : CallKind) (name : String) (args : List Expr) (l : Loc) :
    (call kind name args l).erase .places = call kind name (eraseArgs .places args) .nowhere := by
  rw [erase, Erasure.call_of_groups rfl]

@[simp] theorem unlocated_bound (b : Binding) (args : List Expr) (l : Loc) :
    (bound b args l).erase .places = bound b (eraseArgs .places args) .nowhere := by
  rw [erase]
  rfl

theorem loc_unlocated (e : Expr) : (e.erase .places).loc = .nowhere := by
  cases e with
  | call kind name args l => rw [unlocated_call]; rfl
  | bound b args l => rw [unlocated_bound]; rfl
  | _ => rfl

theorem length_eraseArgs (k : Erasure) (args : List Expr) :
    (eraseArgs k args).length = args.length := by
  rw [eraseArgs_eq_map, List.length_map]

end Expr

/-! ## Scoping -/

namespace Scoping

theorem unlocated_tag (lookup : String → Option Ref) (missing : String → Fault) (v : Variable) :
    (tag lookup missing v).unlocated (Variable.erase .places) =
      tag lookup missing (v.erase .places) := by
  obtain ⟨ref, accessors, ty, loc⟩ := v
  cases ref with
  | unresolved name =>
    simp only [tag, Variable.erase, Erasure.places, id, if_true]
    cases lookup name with
    | some r => rfl
    | none => rfl
  | _ => rfl

section

variable {f f' : Variable → Noted Variable}

mutual

theorem unlocated_expr (hf : ∀ v, (f v).unlocated (Variable.erase .places) = f' (v.erase .places)) :
    ∀ e : Expr, (expr f e).unlocated (Expr.erase .places) = expr f' (e.erase .places)
  | .int .. | .char .. | .bool .. | .str .. | .emptyList .. => by simp [expr, Expr.erase]
  | .var v => by
    rw [expr, Expr.erase, expr]
    exact unlocated_bind (hf v) fun _ => by simp [Expr.erase]
  | .pair a b _ => by
    rw [expr, Expr.erase, expr]
    exact unlocated_bind (unlocated_expr hf a) fun _ =>
      unlocated_bind (unlocated_expr hf b) fun _ => by
      simp [Expr.erase]
  | .flat e rest _ => by
    rw [expr, Expr.erase, expr]
    exact unlocated_bind (unlocated_expr hf e) fun _ =>
      unlocated_bind (unlocated_operands hf rest) fun _ => by
      simp [Expr.erase]
  | .call _ _ as _ => by
    rw [expr, Expr.unlocated_call, expr]
    exact unlocated_bind (unlocated_exprs hf as) fun _ => by simp
  | .bound _ as _ => by
    rw [expr, Expr.unlocated_bound, expr]
    exact unlocated_bind (unlocated_exprs hf as) fun _ => by simp

theorem unlocated_exprs
    (hf : ∀ v, (f v).unlocated (Variable.erase .places) = f' (v.erase .places)) :
    ∀ es : List Expr, (exprs f es).unlocated (Expr.eraseArgs .places) =
      exprs f' (Expr.eraseArgs .places es)
  | [] => by simp [exprs, Expr.eraseArgs]
  | e :: es => by
    rw [exprs, Expr.eraseArgs, exprs]
    exact unlocated_bind (unlocated_expr hf e) fun _ =>
      unlocated_bind (unlocated_exprs hf es) fun _ => by
      simp [Expr.eraseArgs]

theorem unlocated_operands
    (hf : ∀ v, (f v).unlocated (Variable.erase .places) = f' (v.erase .places)) :
    ∀ rest : List (OpUse × Expr),
      (operands f rest).unlocated (Expr.eraseRest .places) =
        operands f' (Expr.eraseRest .places rest)
  | [] => by simp [operands, Expr.eraseRest]
  | (_, e) :: rest => by
    rw [operands, Expr.eraseRest, operands]
    exact unlocated_bind (unlocated_expr hf e) fun _ =>
      unlocated_bind (unlocated_operands hf rest) fun _ => by
      simp [Expr.eraseRest]

end

theorem unlocated_place (hf : ∀ v, (f v).unlocated (Variable.erase .places) = f' (v.erase .places))
    (p : Place) :
    (place f p).unlocated (Place.erase .places) = place f' (p.erase .places) := by
  cases p with
  | decl d => exact unlocated_bind (unlocated_expr hf d.init) fun _ => rfl
  | assign v e | each v e =>
    exact unlocated_bind (hf v) fun _ => unlocated_bind (unlocated_expr hf e) fun _ => rfl
  | guard e | call e => exact unlocated_bind (unlocated_expr hf e) fun _ => rfl
  | ret l e =>
    cases e with
    | none => rfl
    | some e => exact unlocated_bind (unlocated_expr hf e) fun _ => rfl

end

end Scoping

/-! ## Grouping -/

namespace Precedence

/-- The operation without its places. -/
def Operation.unlocated (o : Operation) : Operation :=
  ⟨⟨o.op.name, .nowhere⟩, o.fixity, o.operand.erase .places⟩

theorem Operation.unlocated_apply (o : Operation) (l r : Expr) :
    (o.apply l r).erase .places = o.unlocated.apply (l.erase .places) (r.erase .places) := by
  simp [apply, unlocated, Expr.eraseArgs]

theorem unlocated_climb (least : Nat) (left : Expr) (os : List Operation) :
    (climb least (left.erase .places) (os.map Operation.unlocated)).tree =
        (climb least left os).tree.erase .places ∧
      (climb least (left.erase .places) (os.map Operation.unlocated)).rest =
        (climb least left os).rest.map Operation.unlocated := by
  fun_induction climb least left os with
  | case1 =>
    rw [List.map_nil, climb]
    exact ⟨rfl, rfl⟩
  | case2 least left o os h right whole ihr ihw =>
    have h' : least ≤ o.unlocated.fixity.precedence.toNat := h
    rw [List.map_cons, climb, if_pos h']
    simp only
    have hright : climb o.unlocated.fixity.next o.unlocated.operand (os.map Operation.unlocated) =
      climb o.fixity.next (o.operand.erase .places) (os.map Operation.unlocated) := rfl
    rw [hright, ihr.1, ihr.2, ← Operation.unlocated_apply]
    exact ihw
  | case3 least left o os h =>
    have h' : ¬ least ≤ o.unlocated.fixity.precedence.toNat := h
    rw [List.map_cons, climb, if_neg h']
    exact ⟨rfl, rfl⟩

theorem unlocated_grouped (first : Expr) (os : List Operation) :
    (grouped first os).erase .places = grouped (first.erase .places) (os.map Operation.unlocated) :=
  (unlocated_climb 0 first os).1.symm

section

variable {v : Visible}

theorem unlocated_operations : ∀ rest : List (OpUse × Expr),
    (operations v rest).unlocated (Option.map (List.map Operation.unlocated)) =
      operations v (Expr.eraseRest .places rest)
  | [] => by simp [operations, Expr.eraseRest]
  | (op, e) :: rest => by
    have ih := unlocated_operations rest
    rw [operations, Expr.eraseRest, operations]
    cases v.fixityOf op.name with
    | some fixity =>
      refine unlocated_bind ih fun os => ?_
      cases os <;> rfl
    | none => exact Noted.unlocated_note_bind _ _ (unlocated_bind ih fun _ => rfl)

mutual

theorem unlocated_expr :
    ∀ e : Expr, (expr v e).unlocated (Expr.erase .places) = expr v (e.erase .places)
  | .int .. | .char .. | .bool .. | .str .. | .emptyList .. | .var _ => by simp [expr, Expr.erase]
  | .pair a b _ => by
    rw [expr, Expr.erase, expr]
    exact unlocated_bind (unlocated_expr a) fun _ => unlocated_bind (unlocated_expr b) fun _ => by
      simp [Expr.erase]
  | .flat e rest _ => by
    rw [expr, Expr.erase, expr]
    refine unlocated_bind (unlocated_expr e) fun _ =>
      unlocated_bind (unlocated_operands rest) fun rest' => ?_
    refine unlocated_bind (unlocated_operations rest') fun os => ?_
    cases os with
    | none => simp [Expr.erase]
    | some os => simp [unlocated_grouped]
  | .call kind name as l => by
    have ih := unlocated_exprs as
    rw [expr, Expr.unlocated_call, expr]
    have hcall :
        ∀ as' l', (pure (Expr.call kind name as' l') : Noted Expr).unlocated (Expr.erase .places) =
        pure (.call kind name (Expr.eraseArgs .places as') .nowhere) := fun _ _ => by simp
    split
    · have hdefined : (prefixDefined v name l).unlocated id = prefixDefined v name .nowhere := by
        unfold prefixDefined
        split <;> rfl
      exact unlocated_bind hdefined fun _ => unlocated_bind ih fun _ => hcall _ _
    · exact unlocated_bind ih fun _ => hcall _ _
  | .bound _ as _ => by
    rw [expr, Expr.unlocated_bound, expr]
    exact unlocated_bind (unlocated_exprs as) fun _ => by simp

theorem unlocated_exprs : ∀ es : List Expr,
    (exprs v es).unlocated (Expr.eraseArgs .places) = exprs v (Expr.eraseArgs .places es)
  | [] => by simp [exprs, Expr.eraseArgs]
  | e :: es => by
    rw [exprs, Expr.eraseArgs, exprs]
    exact unlocated_bind (unlocated_expr e) fun _ => unlocated_bind (unlocated_exprs es) fun _ => by
      simp [Expr.eraseArgs]

theorem unlocated_operands : ∀ rest : List (OpUse × Expr),
    (operands v rest).unlocated (Expr.eraseRest .places) = operands v (Expr.eraseRest .places rest)
  | [] => by simp [operands, Expr.eraseRest]
  | (_, e) :: rest => by
    rw [operands, Expr.eraseRest, operands]
    exact unlocated_bind (unlocated_expr e) fun _ =>
      unlocated_bind (unlocated_operands rest) fun _ => by
      simp [Expr.eraseRest]

end

theorem unlocated_at (p : Place) :
    ((body v).at p).unlocated (Place.erase .places) = (body v).at (p.erase .places) := by
  cases p with
  | decl d =>
    exact unlocated_bind (g := VarDecl.erase .places)
      (unlocated_bind (unlocated_expr d.init) fun _ => rfl) fun _ => rfl
  | assign x e | each x e =>
    exact unlocated_bind (g := fun r => (Variable.erase .places r.1, Expr.erase .places r.2))
      (unlocated_bind (unlocated_expr e) fun _ => rfl) fun _ => rfl
  | guard e | call e => exact unlocated_bind (unlocated_expr e) fun _ => rfl
  | ret l e =>
    cases e with
    | none => rfl
    | some e =>
      exact unlocated_bind (g := Option.map (Expr.erase .places))
        (unlocated_bind (unlocated_expr e) fun _ => rfl) fun _ => rfl

end

end Precedence

/-! ## Checking -/

namespace Typing

/-- Two contexts that give the same answers. -/
structure Context.Same (cx cx' : Context) : Prop where
  declared : ∀ r, cx'.declared r = cx.declared r
  candidates : ∀ kind name, cx'.visible.candidates kind name = cx.visible.candidates kind name
  target : ∀ b, cx'.visible.target b = cx.visible.target b
  result : cx'.fn.map FnScope.result = cx.fn.map FnScope.result

namespace Checked

variable {α β : Type}

/-- The checked tree without its places, given what forgets them in the tree. -/
def unlocated (g : α → β) (c : Checked α) : Checked β :=
  ⟨g c.value, c.ty, c.errors.map Diagnostic.unlocated, c.tolerated⟩

theorem blocking_unlocated (g : α → β) (c : Checked α) : (c.unlocated g).blocking = c.blocking := by
  simp only [blocking, unlocated, List.length_map]

theorem noted_unlocated (g : α → β) (c : Checked α) : (c.unlocated g).noted = c.noted.unlocated g :=
  rfl

end Checked

/-- The trial without its places. -/
def Trial.unlocated (t : Trial) : Trial :=
  ⟨Expr.eraseArgs .places t.args, t.errors.map Diagnostic.unlocated⟩

theorem unlocated_mismatch (found : Ty) (expected : Option Ty) (l : Loc) :
    (mismatch found expected l).map Diagnostic.unlocated = mismatch found expected .nowhere := by
  unfold mismatch
  split
  · split <;> rfl
  · rfl

theorem unlocated_literal (e : Expr) (ty : Ty) (expected : Option Ty) :
    (literal e ty expected).unlocated (Expr.erase .places) =
      literal (e.erase .places) ty expected := by
  simp only [literal, Checked.unlocated, unlocated_mismatch, Expr.loc_unlocated]

theorem unlocated_emptyList (given expected : Option Ty) (l : Loc) :
    (emptyList given expected l).unlocated (Expr.erase .places) =
      emptyList given expected .nowhere := by
  unfold emptyList
  split <;> rfl

theorem unlocated_components (expected : Option Ty) (l : Loc) :
    components expected .nowhere = ((components expected l).1, (components expected l).2.1,
      (components expected l).2.2.map Diagnostic.unlocated) := by
  unfold components
  split <;> rfl

theorem unlocated_pairOf (expected : Option Ty × Option Ty) (front : List Diagnostic)
    (a b : Checked Expr) (l : Loc) : (pairOf expected front a b l).unlocated (Expr.erase .places) =
      pairOf expected (front.map Diagnostic.unlocated) (a.unlocated (Expr.erase .places))
        (b.unlocated (Expr.erase .places)) .nowhere := by
  simp only [pairOf, Checked.blocking_unlocated]
  simp only [Checked.unlocated, List.map_append, Expr.erase]

/-! ### Calls -/

theorem trials_map {g : Trial → Trial} {attempt attempt' : List Ty → Option Trial}
    (h : ∀ ps, attempt' ps = (attempt ps).map g) (cs : List Candidate) (count : Nat)
    (expected : Option Ty) :
    trials cs count expected attempt' =
      (trials cs count expected attempt).map fun x => (x.1, g x.2) := by
  simp only [trials, List.map_filterMap, h, Option.map_map]
  rfl

theorem winner_map (g : Trial → Trial) (ts : List (Candidate × Trial)) :
    winner (ts.map fun x => (x.1, g x.2)) = (winner ts).map fun x => (x.1, g x.2) := by
  match ts with
  | [] | [_] => rfl
  | t :: u :: ts =>
    simp only [List.map_cons, winner]
    have hfilter :
        ((t.1, g t.2) :: (u.1, g u.2) :: ts.map fun x => (x.1, g x.2)).filter (·.1.isLocal) =
        ((t :: u :: ts).filter (·.1.isLocal)).map fun x => (x.1, g x.2) :=
      List.filter_map (f := fun x : Candidate × Trial => (x.1, g x.2)) (l := t :: u :: ts)
    rw [hfilter]
    cases (t :: u :: ts).filter (·.1.isLocal) with
    | nil => rfl
    | cons x xs => cases xs <;> rfl

theorem unlocated_callOf {v v' : Visible}
    (hv : ∀ kind name, v'.candidates kind name = v.candidates kind name)
    {attempt attempt' : List Ty → Option Trial}
    (ha : ∀ ps, attempt' ps = (attempt ps).map Trial.unlocated)
    {types types' : Unit → List (Option Ty)} (ht : types' () = types ()) (kind : CallKind)
    (name : String) (args : List Expr) (l : Loc) (expected : Option Ty) :
    (callOf v kind name args l expected attempt types).unlocated (Expr.erase .places) =
      callOf v' kind name (Expr.eraseArgs .places args) .nowhere expected attempt' types' := by
  simp only [callOf, hv, Expr.length_eraseArgs, trials_map ha, winner_map, ht, List.isEmpty_map,
    List.length_map]
  cases winner (trials (v.candidates kind name) args.length expected attempt) with
  | some x => simp [bound, Checked.unlocated, Trial.unlocated]
  | none =>
    simp only [Option.map_none, unbound, Checked.unlocated, Expr.unlocated_call]
    rfl

/-! ### Expressions -/

section

variable {cx cx' : Context}

theorem unlocated_variableOf (h : cx.Same cx') (expected : Option Ty) (x : Variable) :
    (variableOf cx expected x).unlocated (Variable.erase .places) =
      variableOf cx' expected (x.erase .places) := by
  have href : (x.erase .places).ref = x.ref := rfl
  have haccessors : (x.erase .places).accessors = x.accessors := rfl
  rw [variableOf, variableOf, href, haccessors, h.declared]
  cases cx.declared x.ref with
  | none => rfl
  | some declared =>
    cases hn : declared.narrow x.accessors with
    | ok ty => simp [hn, Checked.unlocated, unlocated_mismatch, Variable.erase, Erasure.places]
    | error why => simp [hn, Checked.unlocated]; rfl

mutual

theorem unlocated_expr (h : cx.Same cx') : ∀ (e : Expr) (expected : Option Ty),
    (expr cx expected e).unlocated (Expr.erase .places) = expr cx' expected (e.erase .places)
  | .int .., expected | .char .., expected | .bool .., expected | .str .., expected => by
    rw [expr, unlocated_literal, Expr.erase, expr]
  | .emptyList given l, expected => by
    rw [expr, unlocated_emptyList, Expr.erase, expr]
    rfl
  | .pair a b l, expected => by
    rw [expr, Expr.erase, expr, unlocated_components expected l]
    simp only [unlocated_pairOf, unlocated_expr h a, unlocated_expr h b]
  | .var x, expected => by
    have hx := unlocated_variableOf h expected x
    rw [expr, Expr.erase, expr, ← hx]
    rfl
  | .flat .., _ => by
    rw [expr, Expr.erase, expr]
    simp [Checked.unlocated, Expr.erase]
  | .call kind name as l, expected => by
    rw [expr, Expr.unlocated_call, expr]
    exact unlocated_callOf h.candidates (unlocated_matchArgs h as)
      (unlocated_argTypes h as) _ _ _ _ _
  | .bound b as l, expected => by
    rw [expr, Expr.unlocated_bound, expr, h.target]
    cases cx.visible.target b with
    | some c =>
      have hargs := unlocated_recheckArgs h as c.sig.params
      simp only [← hargs, Checked.unlocated, Expr.unlocated_bound, List.map_append,
        unlocated_mismatch]
    | none =>
      exact unlocated_callOf h.candidates (unlocated_matchArgs h as)
        (unlocated_argTypes h as) _ _ _ _ _

theorem unlocated_matchArgs (h : cx.Same cx') : ∀ (as : List Expr) (ps : List Ty),
    matchArgs cx' (Expr.eraseArgs .places as) ps = (matchArgs cx as ps).map Trial.unlocated
  | [], _ => rfl
  | _ :: _, [] => rfl
  | a :: as, p :: ps => by
    have ha := unlocated_expr h a (some p)
    have has := unlocated_matchArgs h as ps
    simp only [Expr.eraseArgs, matchArgs, ← ha, Checked.blocking_unlocated, has]
    split
    · rw [Option.map_map, Option.map_map]
      congr 1
      funext t
      simp [Trial.unlocated, Checked.unlocated, Expr.eraseArgs]
    · rfl

theorem unlocated_recheckArgs (h : cx.Same cx') : ∀ (as : List Expr) (ps : List Ty),
    (recheckArgs cx as ps).unlocated (Expr.eraseArgs .places) =
      recheckArgs cx' (Expr.eraseArgs .places as) ps
  | [], _ => rfl
  | _ :: _, [] => rfl
  | a :: as, p :: ps => by
    have ha := unlocated_expr h a (some p)
    have has := unlocated_recheckArgs h as ps
    simp only [Expr.eraseArgs, recheckArgs, ← ha, ← has, Checked.unlocated, List.map_append]

theorem unlocated_argTypes (h : cx.Same cx') : ∀ as : List Expr,
    argTypes cx' (Expr.eraseArgs .places as) = argTypes cx as
  | [] => rfl
  | a :: as => by
    have ha := unlocated_expr h a none
    rw [Expr.eraseArgs, argTypes, argTypes, ← ha, unlocated_argTypes h as]
    rfl

end

theorem unlocated_noted (h : cx.Same cx') (e : Expr) (expected : Option Ty) :
    (expr cx expected e).noted.unlocated (Expr.erase .places) =
      (expr cx' expected (e.erase .places)).noted := by
  rw [← unlocated_expr h, Checked.noted_unlocated]

/-! ### Places and globals -/

theorem unlocated_declared (h : cx.Same cx') (d : VarDecl) :
    (declared cx d).unlocated (VarDecl.erase .places) = declared cx' (d.erase .places) := by
  have hty : (d.erase .places).ty = d.ty := rfl
  rw [declared, declared, hty]
  cases d.ty with
  | none => rfl
  | some t => exact unlocated_bind (unlocated_noted h d.init _) fun _ => rfl

theorem unlocated_against (h : cx.Same cx') (wanted : Ty → Ty) (x : Variable) (e : Expr) :
    (against cx wanted x e).unlocated
      (fun r => (Variable.erase .places r.1, Expr.erase .places r.2)) =
      against cx' wanted (x.erase .places) (e.erase .places) := by
  have hx := unlocated_variableOf h none x
  have hty : (variableOf cx' none (x.erase .places)).ty = (variableOf cx none x).ty := by
    rw [← hx]
    rfl
  rw [against, against, hty]
  refine unlocated_bind (by rw [← hx, Checked.noted_unlocated]) fun _ => ?_
  cases (variableOf cx none x).ty with
  | none => rfl
  | some t => exact unlocated_bind (unlocated_noted h e _) fun _ => rfl

theorem unlocated_returned (h : cx.Same cx') (l : Loc) (e : Option Expr) :
    (returned cx l e).unlocated (Option.map (Expr.erase .places)) =
      returned cx' .nowhere (e.map (Expr.erase .places)) := by
  have hresult := h.result
  cases hs : cx.fn with
  | none =>
    rw [hs, Option.map_none, Option.map_eq_none_iff] at hresult
    simp only [returned, hs, hresult]
    rfl
  | some s =>
    rw [hs, Option.map_some, Option.map_eq_some_iff] at hresult
    obtain ⟨s', hs', hr⟩ := hresult
    cases e with
    | none =>
      simp only [returned, hs, hs', Option.map_none, hr]
      split <;> rfl
    | some e =>
      simp only [returned, hs, hs', Option.map_some, hr]
      split
      · rfl
      · exact unlocated_bind (unlocated_noted h e _) fun _ => rfl

theorem unlocated_at (h : cx.Same cx') (p : Place) :
    ((body cx).at p).unlocated (Place.erase .places) = (body cx').at (p.erase .places) := by
  cases p with
  | decl d => exact unlocated_bind (unlocated_declared h d) fun _ => rfl
  | assign x e => exact unlocated_bind (unlocated_against h id x e) fun _ => rfl
  | each x e => exact unlocated_bind (unlocated_against h .list x e) fun _ => rfl
  | guard e => exact unlocated_bind (unlocated_noted h e _) fun _ => rfl
  | call e => exact unlocated_bind (unlocated_noted h e _) fun _ => rfl
  | ret l e => exact unlocated_bind (unlocated_returned h l e) fun _ => rfl

end

section

variable {v v' : Visible}

mutual

theorem unlocated_constants (hv : ∀ b, v'.target b = v.target b) : ∀ e : Expr,
    (constants v e).map Diagnostic.unlocated = constants v' (e.erase .places)
  | .int .. | .char .. | .bool .. | .str .. | .emptyList .. | .var _ | .flat .. => rfl
  | .call .. => by rw [Expr.unlocated_call]; rfl
  | .pair a b _ => by
    simp only [constants, Expr.erase, List.map_append, unlocated_constants hv a,
      unlocated_constants hv b]
  | .bound b as _ => by
    simp only [constants, Expr.unlocated_bound, List.map_append, unlocated_constantArgs hv as, hv]
    split <;> rfl

theorem unlocated_constantArgs (hv : ∀ b, v'.target b = v.target b) : ∀ es : List Expr,
    (constantArgs v es).map Diagnostic.unlocated = constantArgs v' (Expr.eraseArgs .places es)
  | [] => rfl
  | e :: es => by
    simp only [constantArgs, Expr.eraseArgs, List.map_append, unlocated_constants hv e,
      unlocated_constantArgs hv es]

end

theorem unlocated_global (h : Context.Same ⟨v, none⟩ ⟨v', none⟩) (d : VarDecl) :
    (global v d).unlocated (VarDecl.erase .places) = global v' (d.erase .places) := by
  refine unlocated_bind (unlocated_declared h d) fun c => ?_
  have hty : (d.erase .places).ty = d.ty := rfl
  simp only [hty]
  split
  · refine unlocated_bind (g := id) ?_ fun _ => rfl
    exact Noted.ext rfl (unlocated_constants h.target c.init)
  · rfl

end

end Typing

/-! ## Control flow -/

namespace Flow

theorem unlocated_report (reach : Reach) (l : Loc) :
    (reach.report l).unlocated id = reach.report .nowhere := by
  cases reach <;> rfl

theorem loc_unlocated (s : Stmt) : (s.erase .places).loc = .nowhere := by
  cases s with
  | cond bs o l => cases o <;> rfl
  | expr e => exact e.loc_unlocated
  | _ => rfl

mutual

theorem unlocated_stmt (inLoop : Bool) : ∀ s : Stmt,
    (stmt inLoop s).unlocated id = stmt inLoop (s.erase .places)
  | .ret .. | .decl .. | .assign .. | .expr .. => rfl
  | .brk _ | .cont _ => by
    rw [stmt, Stmt.erase, stmt]
    split <;> rfl
  | .cond bs none _ => by
    rw [stmt, Stmt.erase, stmt]
    exact unlocated_bind (unlocated_branches inLoop bs) fun _ => rfl
  | .cond bs (some body) _ => by
    rw [stmt, Stmt.erase, stmt]
    exact unlocated_bind (unlocated_branches inLoop bs) fun _ =>
      unlocated_bind (unlocated_block inLoop .live body) fun _ => rfl
  | .loop _ body _ | .each _ _ body _ => by
    rw [stmt, Stmt.erase, stmt]
    exact unlocated_bind (unlocated_block true .live body) fun _ => rfl

theorem unlocated_block (inLoop : Bool) : ∀ (reach : Reach) (b : List Stmt),
    (block inLoop reach b).unlocated id = block inLoop reach (Stmt.eraseAll .places b)
  | _, [] => by rw [block, Stmt.eraseAll, block]; rfl
  | reach, s :: ss => by
    rw [block, Stmt.eraseAll, block, loc_unlocated]
    exact unlocated_bind (unlocated_report reach s.loc) fun _ =>
      unlocated_bind (unlocated_stmt inLoop s) fun _ =>
        unlocated_bind (unlocated_block inLoop _ ss) fun _ => rfl

theorem unlocated_branches (inLoop : Bool) : ∀ bs : List Branch,
    (branches inLoop bs).unlocated id = branches inLoop (Branch.eraseAll .places bs)
  | [] => by rw [branches, Branch.eraseAll, branches]; rfl
  | .mk _ body _ :: bs => by
    rw [branches, Branch.eraseAll, branches]
    exact unlocated_bind (unlocated_block inLoop .live body) fun _ =>
      unlocated_bind (unlocated_branches inLoop bs) fun _ => rfl

end

theorem unlocated_callable (f : FnDef) :
    (callable f).unlocated id = callable (f.erase .places) := by
  refine unlocated_bind (unlocated_block false .live f.body) fun r => ?_
  have hsig : (f.erase .places).sig = f.sig := rfl
  simp only [hsig, id]
  split <;> rfl

theorem unlocated_program (p : Program) : (program p).unlocated id = program (p.erase .places) := by
  obtain ⟨imports, its⟩ := p
  induction its with
  | nil => rfl
  | cons it its ih =>
    refine unlocated_bind (g := id) ?_ fun _ => ih
    cases it with
    | fn f => exact unlocated_callable f
    | _ => rfl

end Flow

/-! ## Printing -/

theorem Variable.render_unlocated (v : Variable) : (v.erase .places).render = v.render := rfl

namespace Expr

theorem wrap_unlocated (e : Expr) (text : String) : (e.erase .places).wrap text = e.wrap text := by
  have hflat : (e.erase .places).isFlat = e.isFlat := by
    cases e with
    | call kind name args l => rw [unlocated_call]; rfl
    | bound b args l => rw [unlocated_bound]; rfl
    | _ => rfl
  rw [wrap, wrap, hflat]

theorem renderCall_unlocated (kind : CallKind) (name : String) (args : List (Expr × String)) :
    renderCall kind name (args.map fun x => (x.1.erase .places, x.2)) =
      renderCall kind name args := by
  have hplain :
      ((args.map fun x => (x.1.erase .places, x.2)).map Prod.snd) = args.map Prod.snd := by
    rw [List.map_map]
    rfl
  cases kind with
  | function => simp only [renderCall, hplain]
  | prefixOp =>
    rcases args with - | ⟨x, - | ⟨y, args⟩⟩ <;>
      simp only [renderCall, wrap_unlocated, List.map_cons, List.map_nil, List.map_map,
        Function.comp_def]
  | infixOp =>
    rcases args with - | ⟨x, - | ⟨y, - | ⟨z, args⟩⟩⟩ <;>
      simp only [renderCall, wrap_unlocated, List.map_cons, List.map_nil, List.map_map,
        Function.comp_def]

mutual

theorem render_unlocated : ∀ e : Expr, (e.erase .places).render = e.render
  | .int .. | .char .. | .bool .. | .str .. | .emptyList .. => by simp only [erase, render]
  | .var v => by rw [erase, render, render, Variable.render_unlocated]
  | .pair a b _ => by rw [erase, render, render, render_unlocated a, render_unlocated b]
  | .flat e rest _ => by
    rw [erase, render, render, wrap_unlocated, render_unlocated e, renderRest_unlocated rest]
  | .call kind name args _ => by
    rw [unlocated_call, render, render, renderArgs_unlocated args, renderCall_unlocated]
  | .bound b args _ => by
    rw [unlocated_bound, render, render, renderArgs_unlocated args, renderCall_unlocated]

theorem renderRest_unlocated :
    ∀ rest : List (OpUse × Expr), renderRest (eraseRest .places rest) = renderRest rest
  | [] => by rw [eraseRest]
  | (_, e) :: rest => by
    rw [eraseRest, renderRest, renderRest, wrap_unlocated, render_unlocated e,
      renderRest_unlocated rest]

theorem renderArgs_unlocated : ∀ args : List Expr,
    renderArgs (eraseArgs .places args) = (renderArgs args).map fun x => (x.1.erase .places, x.2)
  | [] => by rw [eraseArgs, renderArgs]; rfl
  | e :: es => by
    rw [eraseArgs, renderArgs, renderArgs, render_unlocated e, renderArgs_unlocated es]
    rfl

end

end Expr

theorem VarDecl.render_unlocated (d : VarDecl) : (d.erase .places).render = d.render := by
  simp only [render, erase, Expr.render_unlocated]

namespace Stmt

mutual

theorem render_unlocated (depth : Nat) : ∀ s : Stmt, (s.erase .places).render depth = s.render depth
  | .decl d => by rw [erase, render, render, VarDecl.render_unlocated]
  | .assign v e _ => by rw [erase, render, render, Variable.render_unlocated, Expr.render_unlocated]
  | .cond bs none _ => by rw [erase, render, render, renderBranches_unlocated]
  | .cond bs (some body) _ => by
    rw [erase, render, render, renderBranches_unlocated, renderBody_unlocated _ body]
  | .loop e body _ => by
    rw [erase, render, render, Expr.render_unlocated, renderBody_unlocated _ body]
  | .each v e body _ => by
    rw [erase, render, render, Variable.render_unlocated, Expr.render_unlocated,
      renderBody_unlocated _ body]
  | .ret none _ | .brk _ | .cont _ => by simp only [erase, Option.map_none, render]
  | .ret (some e) _ => by rw [erase, Option.map_some, render, render, Expr.render_unlocated]
  | .expr e => by rw [erase, render, render, Expr.render_unlocated]

theorem renderBranches_unlocated (depth : Nat) : ∀ (word : String) (bs : List Branch),
    renderBranches depth word (Branch.eraseAll .places bs) = renderBranches depth word bs
  | _, [] => by rw [Branch.eraseAll]
  | word, .mk e body _ :: bs => by
    rw [Branch.eraseAll, renderBranches, renderBranches, Expr.render_unlocated,
      renderBody_unlocated _ body, renderBranches_unlocated depth _ bs]

theorem renderBody_unlocated (depth : Nat) : ∀ b : List Stmt,
    renderBody depth (eraseAll .places b) = renderBody depth b
  | [] => by rw [eraseAll]
  | s :: ss => by
    rw [eraseAll, renderBody, renderBody, render_unlocated depth s, renderBody_unlocated depth ss]

end

end Stmt

theorem Import.render_unlocated (i : Import) : i.unlocated.render = i.render := by
  obtain ⟨module, names, loc⟩ := i
  cases names with
  | all => rfl
  | names ns =>
    simp only [unlocated, render, List.map_map]
    rfl

theorem Item.render_unlocated (it : Item) : (it.erase .places).render = it.render := by
  cases it with
  | synonym s => rfl
  | global d => simp only [erase, render, VarDecl.render_unlocated]
  | fn f =>
    simp [erase, render, FnDef.renderHead, FnDef.erase, Stmt.renderBody_unlocated,
      Function.comp_def]

theorem Program.render_unlocated (p : Program) : (p.erase .places).render = p.render := by
  simp [render, erase, Function.comp_def, Import.render_unlocated, Item.render_unlocated]

end SplFrontend
