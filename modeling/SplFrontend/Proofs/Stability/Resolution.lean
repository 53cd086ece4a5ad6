import SplFrontend.Proofs.Reports
import SplFrontend.Proofs.Soundness
import SplFrontend.Proofs.Stability.Declarations

/-!
# Resolving again

A resolved program may be resolved again, and nothing changes: neither the program nor the tables
nor what is reported. Every pass has a second path for what it has done before. Declaring reads only
the outlines, which are left. Scoping passes over tagged variables, declares the same variables once
more and warns of the same ones (`Scoping.items_again`). Grouping and checking leave what is well
typed as it is.
-/

namespace SplFrontend

/-! ## Computations that repeat others -/

section

variable {σ α β : Type}

/-- Of two computations from the state `s` the second one returns `b`. Both report the same and end
in the state `s'`. -/
structure Repeats (x : StateT σ Noted α) (y : StateT σ Noted β) (s : σ) (b : β) (s' : σ) :
    Prop where
  value : (y.run s).value = (b, s')
  notes : (y.run s).notes = (x.run s).notes
  state : (x.run s).value.2 = s'

namespace Repeats

variable {γ δ : Type} {s s₁ s' : σ}

protected theorem pure {a : α} {b : β} : Repeats (pure a) (pure b) s b s := ⟨rfl, rfl, rfl⟩

protected theorem bind {x : StateT σ Noted α} {y : StateT σ Noted β} {f : α → StateT σ Noted γ}
    {g : β → StateT σ Noted δ} {b : β} {c : δ} (hx : Repeats x y s b s₁)
    (hf : Repeats (f (x.run s).value.1) (g b) s₁ c s') : Repeats (x >>= f) (y >>= g) s c s' := by
  refine ⟨?_, ?_, ?_⟩
  · rw [StateT.run_bind, Noted.value_bind, hx.value]
    exact hf.value
  · rw [StateT.run_bind, StateT.run_bind, Noted.notes_bind, Noted.notes_bind, hx.value, hx.notes,
      hx.state, hf.notes]
  · rw [StateT.run_bind, Noted.value_bind, hx.state]
    exact hf.state

/-- The last step may be left out, if it is one-to-one. -/
theorem of_bind_pure {x : StateT σ Noted α} {y : StateT σ Noted β} {f : α → γ} {g : β → δ}
    (hg : ∀ {b b'}, g b = g b' → b = b') {b : β}
    (h : Repeats (x >>= fun a => pure (f a)) (y >>= fun b => pure (g b)) s (g b) s') :
    Repeats x y s b s' := by
  obtain ⟨hvalue, hnotes, hstate⟩ := h
  simp only [StateT.run_bind, StateT.run_pure, Noted.value_bind, Noted.value_pure, Prod.mk.injEq]
    at hvalue
  simp only [StateT.run_bind, StateT.run_pure, Noted.notes_bind, Noted.notes_pure, List.append_nil]
    at hnotes
  exact ⟨Prod.ext (hg hvalue.1) hvalue.2, hnotes, hstate⟩

end Repeats

end

section

variable {σ τ : Type} {w : Rewriter (StateT σ Noted)} {L : Loc → Loc → Prop}
  {S : τ → Place → Place → τ → Prop} {f : τ → σ}

mutual

theorem Stmt.Walk.again
    (step : ∀ {t p q t'}, S t p q t' → Repeats (w.at p) (w.at q) (f t) q (f t')) :
    ∀ {t t' : τ} {a b : Stmt}, Stmt.Walk L S t a b t' →
      Repeats (Stmt.rewrite w a) (Stmt.rewrite w b) (f t) b (f t')
  | _, _, _, _, .decl h => by
    have hd := (step h).of_bind_pure Place.decl.inj
    simp only [Stmt.rewrite]
    exact hd.bind .pure
  | _, _, _, _, .assign _ h => by
    have hd := (step h).of_bind_pure (b := (_, _)) fun h => Prod.ext_iff.2 (Place.assign.inj h)
    simp only [Stmt.rewrite]
    exact hd.bind .pure
  | _, _, _, _, .condNone _ hb => by
    simp only [Stmt.rewrite]
    exact (hb.again step).bind .pure
  | _, _, _, _, .condSome _ hb hs => by
    simp only [Stmt.rewrite]
    exact (hb.again step).bind ((hs.again step).bind .pure)
  | _, _, _, _, .loop _ h hs => by
    have hd := (step h).of_bind_pure Place.guard.inj
    simp only [Stmt.rewrite]
    exact hd.bind ((hs.again step).bind .pure)
  | _, _, _, _, .each _ h hs => by
    have hd := (step h).of_bind_pure (b := (_, _)) fun h => Prod.ext_iff.2 (Place.each.inj h)
    simp only [Stmt.rewrite]
    exact hd.bind ((hs.again step).bind .pure)
  | _, _, _, _, .ret _ h => by
    have hd := (step h).of_bind_pure fun h => (Place.ret.inj h).2
    simp only [Stmt.rewrite]
    exact hd.bind .pure
  | _, _, _, _, .brk _ => by
    simp only [Stmt.rewrite]
    exact .pure
  | _, _, _, _, .cont _ => by
    simp only [Stmt.rewrite]
    exact .pure
  | _, _, _, _, .expr h => by
    have hd := (step h).of_bind_pure Place.call.inj
    simp only [Stmt.rewrite]
    exact hd.bind .pure

/-- A rewriter that at every place of a walk repeats what it did does so on the whole block. -/
theorem Stmt.WalkAll.again
    (step : ∀ {t p q t'}, S t p q t' → Repeats (w.at p) (w.at q) (f t) q (f t')) :
    ∀ {t t' : τ} {a b : List Stmt}, Stmt.WalkAll L S t a b t' →
      Repeats (Stmt.rewriteAll w a) (Stmt.rewriteAll w b) (f t) b (f t')
  | _, _, _, _, .nil => by
    rw [Stmt.rewriteAll]
    exact .pure
  | _, _, _, _, .cons h hs => by
    simp only [Stmt.rewriteAll]
    exact (h.again step).bind ((hs.again step).bind .pure)

theorem Branch.WalkAll.again
    (step : ∀ {t p q t'}, S t p q t' → Repeats (w.at p) (w.at q) (f t) q (f t')) :
    ∀ {t t' : τ} {a b : List Branch}, Branch.WalkAll L S t a b t' →
      Repeats (Branch.rewriteAll w a) (Branch.rewriteAll w b) (f t) b (f t')
  | _, _, _, _, .nil => by
    rw [Branch.rewriteAll]
    exact .pure
  | _, _, _, _, .cons _ h hs hb => by
    have hd := (step h).of_bind_pure Place.guard.inj
    simp only [Branch.rewriteAll]
    exact hd.bind ((hs.again step).bind ((hb.again step).bind .pure))

end

end

theorem Item.meets_tail {v : Visible} {Φ : Typing.Context → Place → Prop} {i : Nat} {first : Item}
    {rest : List Item}
    (h : ∀ (j : Nat) (it : Item), (first :: rest)[j]? = some it → it.Meets v (i + j) Φ) :
    ∀ (j : Nat) (it : Item), rest[j]? = some it → it.Meets v (i + 1 + j) Φ := by
  intro j it hj
  rw [Nat.add_right_comm]
  exact h (j + 1) it hj

/-! ## Scoping again -/

namespace Scoping

variable {cx : Typing.Context} {t : ModuleTable} {externals : ExternalTable}

/-- A variable that refers to something is passed over. -/
theorem tag_of_refers {lookup : String → Option Ref} {missing : String → Fault} {v : Variable}
    {u : Ty} (h : cx.Refers v.ref u) : tag lookup missing v = pure v := by
  unfold tag
  split
  · next hv =>
    rw [hv] at h
    cases h
  · rfl

section

variable {f : Variable → Noted Variable}

theorem var_of_hasVar (hf : ∀ {v u}, cx.Refers v.ref u → f v = pure v) {v : Variable} {u : Ty}
    (h : cx.HasVar v u) : f v = pure v := by
  obtain ⟨declared, hr, -⟩ := h
  exact hf hr

mutual

theorem expr_of_hasType (hf : ∀ {v u}, cx.Refers v.ref u → f v = pure v) :
    ∀ {e : Expr} {u : Ty}, HasType cx e u → expr f e = pure e
  | _, _, .int | _, _, .char | _, _, .bool | _, _, .str | _, _, .emptyList => by rw [expr]
  | _, _, .pair ha hb => by
    rw [expr, expr_of_hasType hf ha, expr_of_hasType hf hb]
    rfl
  | _, _, .var hv => by
    rw [expr, var_of_hasVar hf hv]
    rfl
  | _, _, .bound _ has _ => by
    rw [expr, exprs_of_hasTypes hf has]
    rfl

theorem exprs_of_hasTypes (hf : ∀ {v u}, cx.Refers v.ref u → f v = pure v) :
    ∀ {es : List Expr} {us : List Ty}, HasTypes cx es us → exprs f es = pure es
  | _, _, .nil => by rw [exprs]
  | _, _, .cons h hs => by
    rw [exprs, expr_of_hasType hf h, exprs_of_hasTypes hf hs]
    rfl

end

theorem place_of_typed (hf : ∀ {v u}, cx.Refers v.ref u → f v = pure v) {p : Place}
    (h : p.Typed cx) :
    place f p = pure p := by
  cases p with
  | decl d =>
    obtain ⟨u, -, -, hu⟩ := h
    rw [place, expr_of_hasType hf hu]
    rfl
  | assign v e | each v e =>
    obtain ⟨u, hv, hu⟩ := h
    rw [place, var_of_hasVar hf hv, expr_of_hasType hf hu]
    rfl
  | guard e =>
    rw [place, expr_of_hasType hf h]
    rfl
  | ret l e =>
    cases e with
    | none => rfl
    | some e =>
      obtain ⟨s, -, -, hu⟩ := h
      rw [place, expr_of_hasType hf hu]
      rfl
  | call e =>
    obtain ⟨u, hu⟩ := h
    rw [place, expr_of_hasType hf hu]
    rfl

end

theorem after_congr {args s : Scope} {p q : Place} (h : q.declares = p.declares) :
    after t externals args s q = after t externals args s p := by
  cases p <;> cases q <;> try cases h
  case decl.decl d d' =>
    obtain ⟨hname, hty, hloc⟩ : d'.name = d.name ∧ d'.ty = d.ty ∧ d'.loc = d.loc := by
      simpa only [Place.declares, Option.some.injEq, Prod.mk.injEq] using h
    simp only [after, declare, hname, hty, hloc]
  all_goals rfl

/-- At a place that was scoped before, only the declaration counts. -/
theorem repeats_at {args s s' : Scope} {p r q : Place}
    (hg : (body t externals args).Graph NotError s p r s') (hq : q.declares = p.declares)
    (htyped : q.Typed cx) :
    Repeats ((body t externals args).at p) ((body t externals args).at q) s q s' := by
  obtain ⟨⟨-, hn⟩, rfl, -⟩ := graph_iff.1 hg
  have hold := (strict_place (strict_tag fun _ => rfl) p).notes_eq_nil hn
  have hnew := place_of_typed (f := tagIn t externals args s) tag_of_refers htyped
  refine ⟨?_, ?_, ?_⟩ <;> simp only [run_at, hnew, pure_bind, after_congr hq]
  · rfl
  · simp only [Noted.notes_bind, hold, List.nil_append, Noted.notes_pure]
  · rfl

theorem body_again {args locals : Scope} {b b₂ b₄ : List Stmt}
    (hw : Stmt.WalkAll Eq ((body t externals args).Graph NotError) [] b b₂ locals)
    (hr : Stmt.WalkAll Eq (fun _ p q _ => q.declares = p.declares) () b₂ b₄ ())
    (htyped : Stmt.HoldsAll (Place.Typed cx) b₄) :
    Repeats (Stmt.rewriteAll (body t externals args) b)
      (Stmt.rewriteAll (body t externals args) b₄) [] b₄ locals := by
  refine (hw.trans (hr.and_right htyped)).again (f := Prod.fst) ?_
  rintro s p q s' ⟨r, hg, hrq, hq⟩
  refine repeats_at hg (hrq.trans ?_) hq
  rw [← (graph_iff.1 hg).1.1]
  exact declares_place _ p

theorem global_again {d : VarDecl} {init : Expr}
    (hn : ∀ x ∈ (global t externals d).notes, NotError x)
    (htyped : (Place.decl { d with init }).Typed cx) :
    global t externals { d with init } = ⟨{ d with init }, (global t externals d).notes⟩ := by
  obtain ⟨u, -, -, hu⟩ := htyped
  rw [global_eq] at hn
  have hold :=
    (strict_expr (strict_tag fun _ => rfl) d.init).notes_eq_nil (List.forall_mem_append.1 hn).2
  have hnew := expr_of_hasType (f := tagBefore t externals { d with init }) tag_of_refers hu
  rw [global_eq, global_eq, hnew, hold]
  rfl

/-- Scoping the typed form of items again leaves them as they are, fills the same table and reports
the same. -/
theorem items_again {i : Nat} {its its₂ : List Item} {t t' t'' : ModuleTable}
    (h : Tags externals NotError i its t its₂ t') :
    ∀ {its₄ : List Item}, Item.RetainsAll its₂ its₄ →
    (∀ (j : Nat) (it : Item), its₄[j]? = some it → it.Meets ⟨t'', externals⟩ (i + j) Place.Typed) →
    items externals i its₄ t = ⟨(its₄, t'), (items externals i its t).notes⟩ ∧
      (items externals i its t).value.2 = t' := by
  induction h with
  | nil =>
    intro its₄ hr _
    cases hr
    exact ⟨rfl, rfl⟩
  | @synonym i s rest t rest' t' _ ih =>
    intro its₄ hr hm
    obtain _ | ⟨hit, hr⟩ := hr
    cases hit
    obtain ⟨hagain, hstate⟩ := ih hr (Item.meets_tail hm)
    rw [items, items, hagain]
    exact ⟨Noted.ext rfl (by simp), hstate⟩
  | @global i d rest t rest' t' hd _ ih =>
    intro its₄ hr hm
    obtain _ | ⟨hit, hr⟩ := hr
    rw [global_eq] at hit
    cases hit
    obtain ⟨hagain, hstate⟩ := ih hr (Item.meets_tail hm)
    rw [items, items, hagain, global_again hd (hm 0 _ rfl)]
    exact ⟨Noted.ext rfl (by simp), hstate⟩
  | @fn i f o b locals rest t rest' t' ho hw _ ih =>
    intro its₄ hr hm
    obtain _ | ⟨hit, hr⟩ := hr
    obtain _ | _ | hwalk := hit
    obtain ⟨hagain, hstate⟩ := ih hr (Item.meets_tail hm)
    obtain ⟨_, -, -, -, htyped⟩ := hm 0 _ rfl
    have hbody := body_again hw hwalk htyped
    rw [items, items]
    simp only [ho]
    refine ⟨Noted.ext ?_ ?_, ?_⟩
    · simp only [Noted.value_bind, hbody.value, hagain, Noted.value_pure]
    · simp only [Noted.notes_bind, hbody.value, hbody.notes, hbody.state, hagain, Noted.notes_pure]
    · simp only [Noted.value_bind, hbody.state, Noted.value_pure, hstate]

end Scoping

/-! ## Grouping again -/

namespace Precedence

variable {v : Visible} {cx : Typing.Context}

mutual

theorem expr_of_hasType : ∀ {e : Expr} {u : Ty}, HasType cx e u → expr v e = pure e
  | _, _, .int | _, _, .char | _, _, .bool | _, _, .str | _, _, .emptyList | _, _, .var _ => by
    rw [expr]
  | _, _, .pair ha hb => by
    rw [expr, expr_of_hasType ha, expr_of_hasType hb]
    rfl
  | _, _, .bound _ has _ => by
    rw [expr, exprs_of_hasTypes has]
    rfl

theorem exprs_of_hasTypes :
    ∀ {es : List Expr} {us : List Ty}, HasTypes cx es us → exprs v es = pure es
  | _, _, .nil => by rw [exprs]
  | _, _, .cons h hs => by
    rw [exprs, expr_of_hasType h, exprs_of_hasTypes hs]
    rfl

end

/-- Grouping leaves a typed place. -/
theorem at_of_typed {p : Place} (h : p.Typed cx) : (body v).at p = pure p := by
  cases p with
  | decl d =>
    obtain ⟨u, -, -, hu⟩ := h
    simp only [Rewriter.at, body, expr_of_hasType hu, pure_bind]
  | assign x e | each x e =>
    obtain ⟨u, -, hu⟩ := h
    simp only [Rewriter.at, body, expr_of_hasType hu, pure_bind]
  | guard e =>
    simp only [Rewriter.at, body, expr_of_hasType h, pure_bind]
  | ret l e =>
    cases e with
    | none => rfl
    | some e =>
      obtain ⟨s, -, -, hu⟩ := h
      simp only [Rewriter.at, body, expr_of_hasType hu, pure_bind]
  | call e =>
    obtain ⟨u, hu⟩ := h
    simp only [Rewriter.at, body, expr_of_hasType hu, pure_bind]

theorem item_of_typed {i : Nat} {it : Item} (h : it.Meets v i Place.Typed) :
    item v it = pure it := by
  cases it with
  | synonym s => rfl
  | global d =>
    obtain ⟨u, -, -, hu⟩ := h
    rw [item, expr_of_hasType hu]
    rfl
  | fn f =>
    obtain ⟨o, -, -, -, hbody⟩ := h
    have hfixes : Stmt.HoldsAll (body v).Fixes f.body :=
      hbody.mono fun p hp => by rw [Rewriter.Fixes, at_of_typed hp]; exact ⟨rfl, rfl⟩
    rw [item, Stmt.rewriteAll_of_fixes hfixes]
    rfl

/-- Grouping leaves a typed program. -/
theorem resolve_of_typed {p : Program} (h : p.Meets v Place.Typed) : resolve v p = pure p := by
  have hitems : p.items.mapM (item v) = pure p.items := by
    refine Noted.mapM_of_pure fun it hit => ?_
    obtain ⟨i, hi⟩ := List.mem_iff_getElem?.1 hit
    exact item_of_typed (h i it hi)
  rw [resolve, hitems]
  rfl

end Precedence

/-! ## Checking again -/

theorem Visible.target_of_designates {v : Visible} {b : Binding} {sig : Signature}
    (h : v.Designates b sig) :
    ∃ c, v.target b = some c ∧ c.sig = sig := by
  cases h with
  | own hm ho _ =>
    rw [target, hm]
    simp only [getElem?_localCandidates, ho, Option.map_some]
    exact ⟨_, rfl, rfl⟩
  | external hm ho _ =>
    rw [target, hm]
    simp only [getElem?_externalCandidates, ho, Option.map_some]
    exact ⟨_, rfl, rfl⟩

namespace Typing

variable {v : Visible} {cx : Context}

theorem mismatch_of_eq {t : Ty} {expected : Option Ty} (h : ∀ u ∈ expected, u = t) (l : Loc) :
    mismatch t expected l = [] := by
  cases expected with
  | none => rfl
  | some u => rw [mismatch, if_pos (h u rfl)]

theorem variableOf_of_hasVar {x : Variable} {t : Ty} (hx : cx.HasVar x t) {expected : Option Ty}
    (h : ∀ u ∈ expected, u = t) : variableOf cx expected x = ⟨x, some t, [], 0⟩ := by
  obtain ⟨declared, hr, hn, hty⟩ := hx
  simp only [variableOf, hr.declared_eq, hn, mismatch_of_eq h, ← hty]

mutual

/-- A typed expression stays as it is, and nothing is reported. -/
theorem expr_of_hasType : ∀ {e : Expr} {t : Ty}, HasType cx e t → ∀ {expected : Option Ty},
    (∀ u ∈ expected, u = t) → expr cx expected e = ⟨e, some t, [], 0⟩
  | _, _, .int, _, h | _, _, .char, _, h | _, _, .bool, _, h | _, _, .str, _, h => by
    rw [expr, literal, mismatch_of_eq h]
  | _, _, .emptyList, expected, h => by
    rw [expr, emptyList]
    cases expected with
    | none => rfl
    | some u =>
      cases h u rfl
      rfl
  | _, _, .pair (t := t) (u := u) ha hb, expected, h => by
    rw [expr]
    cases expected with
    | none =>
      have ha' := expr_of_hasType ha (fun _ hw => nomatch hw : ∀ w ∈ none, w = t)
      have hb' := expr_of_hasType hb (fun _ hw => nomatch hw : ∀ w ∈ none, w = u)
      simp only [components, ha', hb']
      rfl
    | some w =>
      cases h w rfl
      have ha' := expr_of_hasType ha (fun _ hw => (Option.some.inj hw).symm : ∀ w ∈ some t, w = t)
      have hb' := expr_of_hasType hb (fun _ hw => (Option.some.inj hw).symm : ∀ w ∈ some u, w = u)
      simp only [components, ha', hb']
      rfl
  | _, _, .var hx, _, h => by rw [expr, variableOf_of_hasVar hx h]
  | _, _, .bound hd has _, _, h => by
    obtain ⟨c, hc, rfl⟩ := Visible.target_of_designates hd
    rw [expr, hc]
    simp only [recheckArgs_of_hasTypes has, mismatch_of_eq h, List.append_nil]

theorem recheckArgs_of_hasTypes : ∀ {es : List Expr} {ts : List Ty}, HasTypes cx es ts →
    recheckArgs cx es ts = ⟨es, none, [], 0⟩
  | _, _, .nil => rfl
  | _, _, .cons (t := t) he hes => by
    have he' := expr_of_hasType he (fun _ hw => (Option.some.inj hw).symm : ∀ w ∈ some t, w = t)
    simp only [recheckArgs, he', recheckArgs_of_hasTypes hes, List.append_nil, Nat.add_zero]

end

theorem noted_of_hasType {e : Expr} {t : Ty} (h : HasType cx e t) :
    (expr cx (some t) e).noted = pure e := by
  rw [expr_of_hasType h fun _ hw => (Option.some.inj hw).symm]
  rfl

theorem declared_of_typed {d : VarDecl} (h : (Place.decl d).Typed cx) : declared cx d = pure d := by
  obtain ⟨t, ht, -, hd⟩ := h
  simp only [declared, ht, noted_of_hasType hd, pure_bind]
  rw [← ht]

theorem against_of_typed (wanted : Ty → Ty) {x : Variable} {e : Expr} {t : Ty} (hx : cx.HasVar x t)
    (he : HasType cx e (wanted t)) : against cx wanted x e = pure (x, e) := by
  have hvar := variableOf_of_hasVar hx (fun _ hw => nomatch hw : ∀ w ∈ none, w = t)
  simp only [against, hvar, noted_of_hasType he]
  rfl

/-- Checking leaves a typed place. -/
theorem at_of_typed {p : Place} (h : p.Typed cx) : (body cx).at p = pure p := by
  cases p with
  | decl d => simp only [Rewriter.at, body, declared_of_typed h, pure_bind]
  | assign x e =>
    obtain ⟨t, hx, he⟩ := h
    simp only [Rewriter.at, body, against_of_typed id hx he, pure_bind]
  | each x e =>
    obtain ⟨t, hx, he⟩ := h
    simp only [Rewriter.at, body, against_of_typed .list hx he, pure_bind]
  | guard e =>
    have he : HasType cx e .bool := h
    simp only [Rewriter.at, body, noted_of_hasType he, pure_bind]
  | ret l e =>
    cases e with
    | none =>
      obtain ⟨s, hs, hvoid⟩ := h
      simp only [Rewriter.at, body, returned, hs, hvoid]
      rfl
    | some e =>
      obtain ⟨s, hs, hvoid, he⟩ := h
      have hnot : s.result.isVoid = false := by
        cases hv : s.result.isVoid with
        | true => exact absurd (Ty.isVoid_iff.1 hv) hvoid
        | false => rfl
      simp only [Rewriter.at, body, returned, hs, hnot, Bool.false_eq_true, if_false,
        noted_of_hasType he, pure_bind]
  | call e =>
    obtain ⟨t, ht⟩ := h
    have he := expr_of_hasType ht (fun _ hw => nomatch hw : ∀ w ∈ none, w = t)
    simp only [Rewriter.at, body, he]
    rfl

/-- A checked global stays as it is. All calls in its initializer are bound to constant overloads,
since the first run has not reported one. -/
theorem global_again {d : VarDecl} (hd : (Place.decl (global v d).value).Typed ⟨v, none⟩)
    (h : ∀ x ∈ (global v d).notes, NotError x) :
    global v (global v d).value = pure (global v d).value := by
  have hnotes := (strict_global d).notes_eq_nil h
  have hty : (global v d).value.ty = d.ty := by
    obtain ⟨init, hvalue, -⟩ := checkedFrom_declared ⟨v, none⟩ d
    rw [global_eq, hvalue]
  have hsome : d.ty.isSome = true := by
    obtain ⟨t, ht, -⟩ := hd
    rw [← hty, ht]
    rfl
  rw [global_eq, hsome, if_pos rfl, List.append_eq_nil_iff] at hnotes
  have hconst : constants v (global v d).value.init = [] := by
    rw [value_global]
    exact hnotes.2
  rw [global_eq, declared_of_typed hd, hty, hsome]
  simp only [Noted.value_pure, hconst]
  rfl

/-- A checked item stays as it is, and nothing is reported. -/
theorem item_again {i : Nat} {it : Item} (hit : it.Meets v i Place.Ready)
    (h : ∀ d ∈ (item v i it).notes, NotError d) :
    item v i (item v i it).value = pure (item v i it).value := by
  have htyped := meets_item hit h
  cases it with
  | synonym s => rfl
  | global d =>
    simp only [item, Noted.forall_notes_bind] at h
    simp only [item, Noted.value_bind, Noted.value_pure] at htyped ⊢
    rw [global_again htyped h.1]
    rfl
  | fn f =>
    obtain ⟨o, ho, -⟩ := hit
    simp only [item, ho, Noted.value_bind, Noted.value_pure] at htyped ⊢
    obtain ⟨o', ho', -, -, hbody⟩ := htyped
    cases ho.symm.trans ho'
    have hfixes : Stmt.HoldsAll (body ⟨v, some ⟨o.args, o.locals, o.sig.result⟩⟩).Fixes _ :=
      hbody.mono fun p hp => by rw [Rewriter.Fixes, at_of_typed hp]; exact ⟨rfl, rfl⟩
    rw [Stmt.rewriteAll_of_fixes hfixes]
    rfl

theorem items_again : ∀ (i : Nat) (its : List Item),
    (∀ (j : Nat) (it : Item), its[j]? = some it → it.Meets v (i + j) Place.Ready) →
    (∀ d ∈ (items v i its).notes, NotError d) →
      items v i (items v i its).value = pure (items v i its).value
  | _, [], _, _ => rfl
  | i, first :: rest, hm, h => by
    simp only [items, Noted.forall_notes_bind] at h
    have hfirst : item v i (item v i first).value = pure (item v i first).value :=
      item_again (hm 0 first rfl) h.1
    have hrest := items_again (i + 1) rest (Item.meets_tail hm) h.2.1
    simp only [items, Noted.value_bind, Noted.value_pure, hfirst, hrest, pure_bind]

/-- A checked program stays as it is, and nothing is reported. -/
theorem resolve_again {p : Program} (hp : p.Meets v Place.Ready)
    (h : ∀ d ∈ (resolve v p).notes, NotError d) :
    resolve v (resolve v p).value = pure (resolve v p).value := by
  simp only [resolve, Noted.forall_notes_bind] at h
  have hitems := items_again 0 p.items (fun j it hj => by rw [Nat.zero_add]; exact hp j it hj) h.1
  simp only [resolve, Noted.value_bind, Noted.value_pure, hitems]
  rfl

end Typing

/-! ## The passes again -/

section

variable {p : Program} {headers : HeaderTexts} {o : Options}

theorem imports_checked : (stages p headers o).checked.value.imports = p.imports := by
  simp only [stages, Typing.resolve, Precedence.resolve, Scoping.resolve, declareModule,
    Annotations.normalise, Noted.value_bind, Noted.value_pure]

/-- What scoping leaves is left until the end. -/
theorem retains_tagged : Item.RetainsAll (stages p headers o).tagged.value.1.items
    (stages p headers o).checked.value.items := by
  have hgrouped : Item.RetainsAll (stages p headers o).tagged.value.1.items
      (stages p headers o).grouped.value.items := by
    rw [grouped_stages, Precedence.items_resolve]
    exact .map Precedence.retains_item _
  have hchecked : Item.RetainsAll (stages p headers o).grouped.value.items
      (stages p headers o).checked.value.items := by
    rw [checked_stages]
    exact Typing.retains_items 0 _
  exact hgrouped.trans hchecked

variable (hfresh : ∀ i ∈ p.items, i.All .fresh) (h : ∀ d ∈ (stages p headers o).notes, NotError d)

include h

theorem tags_declared : Scoping.Tags (stages p headers o).externals NotError 0
    (stages p headers o).declared.value.1.items (stages p headers o).declared.value.2
    (stages p headers o).tagged.value.1.items (stages p headers o).tagged.value.2 := by
  obtain ⟨-, -, htagged, -⟩ := Stages.forall_notes.1 h
  rw [tagged_stages] at htagged ⊢
  exact (accepted_declared h).tags htagged

/-- The later passes change nothing but expressions. -/
theorem retains_declared : Item.RetainsAll (stages p headers o).declared.value.1.items
    (stages p headers o).checked.value.items := (tags_declared h).retains.trans retains_tagged

/-- The final program is declared without a report, by the same table. -/
theorem declareModule_checked :
    declareModule (stages p headers o).externals (stages p headers o).checked.value
      (.start o) =
        pure ((stages p headers o).checked.value, (stages p headers o).declared.value.2) := by
  have ha := accepted_declared h
  have hretains := retains_declared h
  obtain ⟨t, ha', ht⟩ :=
    ha.of_outline (g := id) hretains.outline_eq (hretains.plainLocals ha.plainLocals)
  rw [ModuleTable.relocate_id, ModuleTable.relocate_id] at ht
  rw [← ht]
  exact ha'.declareModule_eq

include hfresh

theorem meets_ready_grouped :
    (stages p headers o).grouped.value.Meets (stages p headers o).visible Place.Ready := by
  obtain ⟨-, -, -, hgrouped, -⟩ := Stages.forall_notes.1 h
  rw [grouped_stages] at hgrouped ⊢
  refine Precedence.meets_ready ?_ hgrouped
  intro i it hi
  exact Scoping.meets_tagged (accepted_declared h) (declared_fresh hfresh) (tags_declared h) hi

theorem meets_typed_checked :
    (stages p headers o).checked.value.Meets (stages p headers o).visible Place.Typed := by
  obtain ⟨-, -, -, -, hchecked, -⟩ := Stages.forall_notes.1 h
  rw [checked_stages] at hchecked ⊢
  exact Typing.meets_typed (meets_ready_grouped hfresh h) hchecked

/-- Scoping the final program fills the same table and reports the same. -/
theorem scoping_checked :
    Scoping.resolve (stages p headers o).externals (stages p headers o).checked.value
      (stages p headers o).declared.value.2 =
    ⟨((stages p headers o).checked.value, (stages p headers o).tagged.value.2),
      (stages p headers o).tagged.notes⟩ := by
  have hmeets := meets_typed_checked hfresh h
  have hitems := Scoping.items_again (tags_declared h) retains_tagged (fun j it hj => by
    rw [Nat.zero_add]
    exact hmeets j it hj)
  rw [Scoping.resolve, hitems.1]
  refine Noted.ext rfl ?_
  rw [tagged_stages, Scoping.resolve]
  simp only [Noted.notes_bind, Noted.notes_pure]

/-- Checking the final program reports nothing. -/
theorem typing_checked :
    Typing.resolve (stages p headers o).visible (stages p headers o).checked.value =
    pure (stages p headers o).checked.value := by
  obtain ⟨-, -, -, -, hchecked, -⟩ := Stages.forall_notes.1 h
  rw [checked_stages] at hchecked ⊢
  exact Typing.resolve_again (meets_ready_grouped hfresh h) hchecked

/-- What the passes make of the final program. Scoping alone has something to report. -/
theorem stages_checked : stages (stages p headers o).checked.value headers o =
    { stages p headers o with
      declared := pure ((stages p headers o).checked.value, (stages p headers o).declared.value.2)
      tagged := ⟨((stages p headers o).checked.value, (stages p headers o).tagged.value.2),
        (stages p headers o).tagged.notes⟩
      grouped := pure (stages p headers o).checked.value
      checked := pure (stages p headers o).checked.value } := by
  generalize hs : stages (stages p headers o).checked.value headers o = s
  have himported : s.imported = (stages p headers o).imported := by
    rw [← hs, imported_stages, imports_checked, imported_stages]
  have hexternals : s.externals = (stages p headers o).externals :=
    congrArg (·.value.externals) himported
  have hdeclared : s.declared =
      pure ((stages p headers o).checked.value, (stages p headers o).declared.value.2) := by
    rw [← hs, declared_stages, hs, hexternals]
    exact declareModule_checked h
  have htagged :
      s.tagged = ⟨((stages p headers o).checked.value, (stages p headers o).tagged.value.2),
      (stages p headers o).tagged.notes⟩ := by
    rw [← hs, tagged_stages, hs, hexternals, hdeclared]
    exact scoping_checked hfresh h
  have hvisible : s.visible = (stages p headers o).visible := by
    rw [Stages.visible, htagged, hexternals]
  have hgrouped : s.grouped = pure (stages p headers o).checked.value := by
    rw [← hs, grouped_stages, hs, hvisible, htagged]
    exact Precedence.resolve_of_typed (meets_typed_checked hfresh h)
  have hchecked : s.checked = pure (stages p headers o).checked.value := by
    rw [← hs, checked_stages, hs, hvisible, hgrouped]
    exact typing_checked hfresh h
  have hflow : s.flow = (stages p headers o).flow := by
    rw [← hs, flow_stages, hs, hchecked, flow_stages]
    rfl
  calc s = ⟨s.imported, s.declared, s.tagged, s.grouped, s.checked, s.flow⟩ := rfl
    _ = _ := by rw [himported, hdeclared, htagged, hgrouped, hchecked, hflow]

omit hfresh in
/-- The passes that report errors only have reported nothing. -/
theorem notes_eq : (stages p headers o).notes =
    (stages p headers o).imported.notes ++ (stages p headers o).tagged.notes ++
      (stages p headers o).flow.notes := by
  obtain ⟨-, hdeclared, -, hgrouped, hchecked, -⟩ := Stages.forall_notes.1 h
  rw [declared_stages] at hdeclared
  rw [grouped_stages] at hgrouped
  rw [checked_stages] at hchecked
  have hd := (strict_declareModule _ _ _).notes_eq_nil hdeclared
  have hg := (Precedence.strict_resolve _).notes_eq_nil hgrouped
  have hc := (Typing.strict_resolve _).notes_eq_nil hchecked
  rw [Stages.notes, declared_stages, grouped_stages, checked_stages, hd, hg, hc, List.append_nil,
    List.append_nil, List.append_nil]

end

/-- A resolved program is resolved to itself, by the same tables and with the same warnings. -/
theorem resolve_of_resolved {text : String} {p : Program} {headers : HeaderTexts} {o : Options}
    {r : Resolved} (hp : Program.ofText text = .ok p) (h : resolve p headers o = .ok r) :
    resolve r.program headers o = .ok r := by
  obtain ⟨hn, rfl⟩ := resolve_eq_ok_iff.1 h
  have hnotes : ∀ d ∈ (stages p headers o).notes, NotError d := fun d hd => (hn d hd).1
  have hagain := stages_checked (Program.printable_of_ofText hp).2.all hnotes
  have hsame :
      (stages (stages p headers o).resolved.program headers o).notes =
        (stages p headers o).notes := by
    rw [notes_eq hnotes, Stages.resolved, hagain]
    simp only [Stages.notes, Noted.notes_pure, List.append_nil]
  refine resolve_eq_ok_iff.2 ⟨fun d hd => hn d (hsame ▸ hd), ?_⟩
  have hresolved : (stages (stages p headers o).resolved.program headers o).resolved =
      ⟨(stages p headers o).checked.value, (stages p headers o).tagged.value.2,
        (stages p headers o).externals, (stages p headers o).imported.value.modules,
        (stages (stages p headers o).resolved.program headers o).notes⟩ := by
    rw [Stages.resolved, Stages.resolved, hagain]
    rfl
  rw [hresolved, hsame]
  rfl

/-- The header of a module `lib` that exports one global. -/
def libHeaders : HeaderTexts :=
  [("lib", "\x7b\"module\": \"lib\", \"globals\": [" ++
    "\x7b\"name\": \"z\", \"type\": \"BASICTYPE(type_id=\\\"Int\\\")\"\x7d]\x7d")]

/-- A module with warnings of several passes: a name imported twice, a global and a variable that
hide others, and a statement that is never reached. Overloads, operators, a synonym, accessors and
an empty list are resolved before the second run. -/
theorem resolve_of_resolved_sample : ∃ p r,
    Program.ofText ("from lib import z, z; type P = (Int, [Bool]); Int z = 1;" ++
      "f(x) :: P -> Int \x7b Int z = -x.fst * 2 + 1; return f(z); z = 2; \x7d" ++
      "f(x) :: Int -> Int \x7b return f((x, [])); \x7d") = .ok p ∧
    resolve p libHeaders { module := "m" } = .ok r ∧
      resolve r.program libHeaders { module := "m" } = .ok r := by
  have hok : (compile ("from lib import z, z; type P = (Int, [Bool]); Int z = 1;" ++
      "f(x) :: P -> Int \x7b Int z = -x.fst * 2 + 1; return f(z); z = 2; \x7d" ++
      "f(x) :: Int -> Int \x7b return f((x, [])); \x7d") libHeaders { module := "m" }).isOk =
      true := by
    decide +kernel
  obtain ⟨r, hr⟩ := isOk_iff.1 hok
  obtain ⟨p, hp, hresolve⟩ := bind_eq_ok_iff.1 hr
  exact ⟨p, r, hp, hresolve, resolve_of_resolved hp hresolve⟩

end SplFrontend
