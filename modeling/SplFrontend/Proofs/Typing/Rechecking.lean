import SplFrontend.Proofs.Overloads
import SplFrontend.Proofs.Stability.Resolution

/-!
# Checking again, with errors

What checking makes of a program may be checked again with the same tables. The program stays as it
is, and the same errors are reported in the same order, whether or not the program is well typed.

A call that was bound by a trial takes another path the second time: no overload is selected, and
all arguments are checked against the parameters of the one it is bound to. The trial has passed, so
every error that it left is tolerated, and the second path reports these errors and tolerates as
many (`recheckArgs_of_matchArgs`). A call that stayed unbound keeps its arguments as they were, and
the same trials fail.
-/

namespace SplFrontend

/-! ## Blocks -/

/-- A rewriter that does at each place of a rewritten block what it did before does so on the whole
block. -/
theorem Stmt.rewriteAll_repeats {w : Rewriter Noted} {Φ : Place → Prop}
    (step : ∀ {p}, Φ p → w.at (w.at p).value = w.at p) {b : List Stmt} (hb : Stmt.HoldsAll Φ b) :
    Stmt.rewriteAll w (Stmt.rewriteAll w b).value = Stmt.rewriteAll w b := by
  have hwalk :=
    (Stmt.walk_rewriteAll_lift (w := w) (P := fun _ => True) b fun _ _ => trivial).and hb
  have hstep : ∀ {t : Unit} {p q : Place} {t' : Unit}, w.Does (fun _ => True) p q ∧ Φ p →
      Repeats (w.lift.at p) (w.lift.at q) t q t' := by
    rintro _ p _ _ ⟨⟨rfl, -⟩, hp⟩
    have heq := step hp
    exact ⟨by simp [Rewriter.run_at_lift, heq], by simp [Rewriter.run_at_lift, heq], rfl⟩
  obtain ⟨hvalue, hnotes, -⟩ := hwalk.again (w := w.lift) (f := id) hstep
  simp only [Stmt.rewriteAll_lift, Noted.value_map, Noted.notes_map, Prod.mk.injEq, and_true]
    at hvalue hnotes
  exact Noted.ext hvalue hnotes

/-- The nodes of an expression that has not been checked: no call is bound, and no empty list has a
type. -/
def Nodes.unchecked : Nodes where
  var _ := True
  empty t := t = none
  flat := True
  bound _ _ := False

namespace Typing

variable {cx : Context}

/-! ## Expressions -/

theorem emptyList_rechecked (expected : Option Ty) (l : Loc) :
    expr cx expected (emptyList none expected l).value = emptyList none expected l := by
  cases expected with
  | none => rfl
  | some t => cases t <;> rfl

theorem variableOf_rechecked (expected : Option Ty) (v : Variable) :
    variableOf cx expected (variableOf cx expected v).value = variableOf cx expected v := by
  cases hd : cx.declared v.ref with
  | none => simp only [variableOf, hd]
  | some t =>
    cases hn : t.narrow v.accessors with
    | ok u => simp only [variableOf, hd, hn]
    | error x => simp only [variableOf, hd, hn]

/-- All errors of an argument that passes are tolerated. -/
theorem tolerated_eq_of_blocking {e : Expr} {expected : Option Ty}
    (h : (expr cx expected e).blocking = 0) :
    (expr cx expected e).tolerated = (expr cx expected e).errors.length :=
  Nat.le_antisymm (tolerated_le cx e expected)
    (Nat.not_lt.1 ((blocking_eq_zero_iff cx expected e).1 h))

mutual

theorem expr_rechecked : ∀ (e : Expr) (expected : Option Ty), e.All .unchecked →
    expr cx expected (expr cx expected e).value = expr cx expected e
  | .int .., _, _ | .char .., _, _ | .bool .., _, _ | .str .., _, _ | .flat .., _, _ => by
    simp only [expr, literal]
  | .emptyList _ l, expected, h => by
    cases h
    rw [expr]
    exact emptyList_rechecked expected l
  | .pair a b l, expected, h => by
    simp only [expr, pairOf, expr_rechecked a _ h.1, expr_rechecked b _ h.2]
  | .var v, expected, _ => by
    simp only [expr, variableOf_rechecked]
  | .call kind name as l, expected, h => by
    have hcall : expr cx expected (.call kind name as l) = callOf cx.visible kind name as l expected
        (fun ps => matchArgs cx as ps) fun _ => argTypes cx as := by rw [expr]
    obtain ⟨c, t, hc, hmem, hlen, hresult, ht⟩ | ⟨f, -, hf⟩ :=
      callOf_cases cx.visible kind name as l expected
      (fun ps => matchArgs cx as ps) fun _ => argTypes cx as
    · -- The binding leads back to the overload, whose result is the expected one.
      rw [hcall, hc]
      simp only [bound, expr, Visible.target_of_mem hmem,
        recheckArgs_of_matchArgs as _ h hlen.symm ht, mismatch_of_eq hresult, List.append_nil]
    · have hvalue : (expr cx expected (.call kind name as l)).value = .call kind name as l := by
        rw [hcall, hf]
        rfl
      rw [hvalue]
  | .bound .., _, h => h.1.elim

/-- The arguments that a trial leaves check against the same parameters with the errors of the
trial, and all of these are tolerated. -/
theorem recheckArgs_of_matchArgs :
    ∀ (as : List Expr) (ps : List Ty) {t : Trial}, Expr.AllArgs .unchecked as →
    as.length = ps.length → matchArgs cx as ps = some t →
    recheckArgs cx t.args ps = ⟨t.args, none, t.errors, t.errors.length⟩
  | [], [], _, _, _, ht => by
    rw [matchArgs] at ht
    · cases ht
      rfl
    · nofun
  | a :: as, p :: ps, _, h, hlen, ht => by
    rw [matchArgs] at ht
    split at ht
    · next hpass =>
      obtain ⟨t, ht', rfl⟩ := Option.map_eq_some_iff.1 ht
      have hrest := recheckArgs_of_matchArgs as ps h.2 (Nat.succ.inj hlen) ht'
      simp only [recheckArgs, expr_rechecked a _ h.1, hrest, tolerated_eq_of_blocking hpass,
        List.length_append]
    · cases ht

end

/-! ## Places -/

theorem declared_rechecked {d : VarDecl} (h : d.init.All .unchecked) :
    declared cx (declared cx d).value = declared cx d := by
  cases hty : d.ty with
  | none => simp only [declared, hty, Noted.value_pure]
  | some t =>
    simp only [declared, hty, Noted.value_bind, Noted.value_pure, Checked.noted,
      expr_rechecked _ _ h]

theorem against_rechecked (wanted : Ty → Ty) (v : Variable) {e : Expr} (h : e.All .unchecked) :
    against cx wanted (against cx wanted v e).value.1 (against cx wanted v e).value.2 =
      against cx wanted v e := by
  have hv : variableOf cx none (variableOf cx none v).value = variableOf cx none v :=
    variableOf_rechecked none v
  cases hty : (variableOf cx none v).ty with
  | none =>
    have hvalue : (against cx wanted v e).value = ((variableOf cx none v).value, e) := by
      simp only [against, hty]
      rfl
    rw [hvalue]
    simp only [against, hv]
  | some t =>
    have hvalue : (against cx wanted v e).value =
        ((variableOf cx none v).value, (expr cx (some (wanted t)) e).value) := by
      simp only [against, hty]
      rfl
    rw [hvalue]
    simp only [against, hv, hty, expr_rechecked _ _ h]

theorem returned_rechecked {l : Loc} {value : Option Expr} (h : ∀ e ∈ value, e.All .unchecked) :
    returned cx l (returned cx l value).value = returned cx l value := by
  cases hfn : cx.fn with
  | none => simp only [returned, hfn, Noted.value_pure]
  | some s =>
    cases value with
    | none =>
      have hnone : (returned cx l none).value = none := by
        simp only [returned, hfn]
        exact Noted.value_note_if _ _ (pure none)
      rw [hnone]
    | some e =>
      cases hvoid : s.result.isVoid with
      | true => simp [returned, hfn, hvoid]
      | false =>
        simp only [returned, hfn, hvoid, Bool.false_eq_true, if_false, Noted.value_bind,
          Noted.value_pure, Checked.noted, expr_rechecked _ _ (h e rfl)]

theorem at_rechecked {p : Place} (h : p.All .unchecked) :
    (body cx).at ((body cx).at p).value = (body cx).at p := by
  cases p with
  | decl d =>
    simp only [Rewriter.at, body, Noted.value_bind, Noted.value_pure, declared_rechecked h]
  | assign v e =>
    simp only [Rewriter.at, body, Noted.value_bind, Noted.value_pure, against_rechecked _ _ h.2]
  | guard e =>
    have he : expr cx (some .bool) (expr cx (some .bool) e).value = expr cx (some .bool) e :=
      expr_rechecked e _ h
    simp only [Rewriter.at, body, Noted.value_bind, Noted.value_pure, Checked.noted, he]
  | each v e =>
    simp only [Rewriter.at, body, Noted.value_bind, Noted.value_pure, against_rechecked _ _ h.2]
  | ret l e =>
    simp only [Rewriter.at, body, Noted.value_bind, Noted.value_pure, returned_rechecked h]
  | call e =>
    have he : expr cx none (expr cx none e).value = expr cx none e := expr_rechecked e none h
    simp only [Rewriter.at, body, Noted.value_bind, Noted.value_pure, Checked.noted, he]

/-! ## Items -/

variable {v : Visible}

theorem global_rechecked {d : VarDecl} (h : d.init.All .unchecked) :
    global v (global v d).value = global v d := by
  have hty : (global v d).value.ty = d.ty := by
    obtain ⟨init, hvalue, -⟩ := checkedFrom_declared ⟨v, none⟩ d
    rw [global_eq, hvalue]
  rw [global, hty, value_global, declared_rechecked h]
  rfl

theorem item_rechecked {i : Nat} {it : Item} (h : it.All .unchecked) :
    item v i (item v i it).value = item v i it := by
  cases it with
  | synonym s => rfl
  | global d => simp only [item, Noted.value_bind, Noted.value_pure, global_rechecked h]
  | fn f =>
    cases ho : v.own.overloadForItem i with
    | none => simp only [item, ho, Noted.value_pure]
    | some o =>
      have hbody :=
        Stmt.rewriteAll_repeats (w := body ⟨v, some ⟨o.args, o.locals, o.sig.result⟩⟩)
          at_rechecked h
      simp only [item, ho, Noted.value_bind, Noted.value_pure, hbody]

theorem items_rechecked : ∀ (i : Nat) {its : List Item}, (∀ it ∈ its, it.All .unchecked) →
    items v i (items v i its).value = items v i its
  | _, [], _ => rfl
  | i, it :: its, h => by
    rw [List.forall_mem_cons] at h
    simp only [items, Noted.value_bind, Noted.value_pure, item_rechecked h.1,
      items_rechecked (i + 1) h.2]

/-- Checking what checking has made of a program, well typed or not, changes nothing and reports the
same errors in the same order. -/
theorem resolve_rechecked (v : Visible) {p : Program} (h : ∀ it ∈ p.items, it.All .unchecked) :
    resolve v (resolve v p).value = resolve v p := by
  simp only [resolve, Noted.value_bind, Noted.value_pure, items_rechecked 0 h]

/-- `f(('c', 2))`, for the overloads of `twinContext`. -/
def halfFitting : Expr :=
  .call .function "f" [.pair (.char 'c' .nowhere) (.int 2 .nowhere) .nowhere] .nowhere

/-- The body of the first overload: an expression, the call `f((1, 2))`, and a return without a
value. -/
def twinProgram (e : Expr) : Program :=
  ⟨[], [.fn ⟨.function, "f", [⟨"x", .nowhere⟩], some ⟨[.pair .int .int], .int⟩,
    [.expr e,
      .expr (.call .function "f" [.pair (.int 1 .nowhere) (.int 2 .nowhere) .nowhere] .nowhere),
        .ret none .nowhere], .nowhere⟩]⟩

/-- The first call is bound with a tolerated error, the second one is ambiguous, and a value is
missing. All three errors are reported again. -/
theorem resolve_rechecked_twins :
    let first := resolve twinContext.visible (twinProgram halfFitting)
    first.notes.length = 3 ∧
      first.value = twinProgram (.bound ⟨.function, "f", "f", 0, none, .int⟩
        [.pair (.char 'c' .nowhere) (.int 2 .nowhere) .nowhere] .nowhere) ∧
      resolve twinContext.visible first.value = first := by
  refine ⟨rfl, rfl, resolve_rechecked _ (List.forall_mem_singleton.2 ?_)⟩
  have hbody : Stmt.HoldsAll (Place.All .unchecked) [.expr halfFitting,
      .expr (.call .function "f" [.pair (.int 1 .nowhere) (.int 2 .nowhere) .nowhere] .nowhere),
      .ret none .nowhere] :=
    .cons (.expr ⟨⟨trivial, trivial⟩, trivial⟩) (.cons (.expr ⟨⟨trivial, trivial⟩, trivial⟩)
      (.cons (.ret fun _ h => by cases h) .nil))
  exact hbody

end Typing

end SplFrontend
