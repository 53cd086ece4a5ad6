import SplFrontend.Proofs.Nodes
import SplFrontend.Typing

/-!
# What type checking does

A call is bound to a candidate that passed its trial, or it stays as it is (`callOf_cases`). So
checking adds bindings and types to a tree and changes nothing else in it, and the overload of every
binding that it adds has as many parameters as the call has arguments.
-/

namespace SplFrontend

/-! ## Candidates and bindings -/

namespace Visible

variable {v : Visible}

theorem getElem?_localCandidates (kind : CallKind) (name : String) (i : Nat) :
    (v.localCandidates kind name)[i]? =
      ((v.own.overloads kind name)[i]?).map (.ofLocal name i) := by
  rw [localCandidates, List.getElem?_mapIdx]

theorem getElem?_externalCandidates (kind : CallKind) (name : String) (i : Nat) :
    (v.externalCandidates kind name)[i]? =
      ((v.externals.overloads kind name)[i]?).map (.ofExternal i) := by
  rw [externalCandidates, List.getElem?_mapIdx]

/-- The binding to a candidate stands for that candidate. -/
theorem target_of_mem {kind : CallKind} {name : String} {c : Candidate}
    (h : c ∈ v.candidates kind name) (ty : Ty) :
    v.target ⟨kind, name, c.exported, c.index, c.module, ty⟩ = some c := by
  rw [candidates, List.mem_append] at h
  obtain h | h := h
  · obtain ⟨i, hi⟩ := List.mem_iff_getElem?.1 h
    have hc := hi
    rw [getElem?_localCandidates] at hc
    obtain ⟨o, -, rfl⟩ := Option.map_eq_some_iff.1 hc
    exact hi
  · obtain ⟨i, hi⟩ := List.mem_iff_getElem?.1 h
    have hc := hi
    rw [getElem?_externalCandidates] at hc
    obtain ⟨o, -, rfl⟩ := Option.map_eq_some_iff.1 hc
    exact hi

/-- Does the overload of a binding, if there is one, have this many parameters? -/
def Fits (v : Visible) (b : Binding) (n : Nat) : Prop :=
  ∀ c, v.target b = some c → c.sig.params.length = n

end Visible

/-- Bindings fit the calls that they stand at. -/
def Nodes.fits (v : Visible) : Nodes where
  var _ := True
  empty _ := True
  flat := True
  bound := v.Fits

namespace Typing

/-! ## Calls -/

theorem mem_of_winner {ts : List (Candidate × Trial)} {x : Candidate × Trial}
    (h : winner ts = some x) :
    x ∈ ts := by
  unfold winner at h
  split at h
  · cases h
  · cases h
    exact List.mem_cons_self
  · split at h
    · next t ht =>
      cases h
      exact (List.mem_filter.1 (ht ▸ List.mem_cons_self : x ∈ ts.filter _)).1
    · cases h

theorem mem_trials {cs : List Candidate} {count : Nat} {expected : Option Ty}
    {attempt : List Ty → Option Trial} {c : Candidate} {t : Trial}
    (h : (c, t) ∈ trials cs count expected attempt) :
    c ∈ cs ∧ c.sig.params.length = count ∧ (∀ u ∈ expected, u = c.sig.result) ∧
      attempt c.sig.params = some t := by
  obtain ⟨c', hc', ht⟩ := List.mem_filterMap.1 h
  obtain ⟨t', ht', heq⟩ := Option.map_eq_some_iff.1 ht
  cases heq
  obtain ⟨hmem, hfit⟩ := List.mem_filter.1 hc'
  simp only [mayFit, Bool.and_eq_true, decide_eq_true_eq, Option.all_eq_true] at hfit
  exact ⟨hmem, hfit.1, fun u hu => hfit.2 u hu, ht'⟩

/-- A call is bound to a candidate that passed its trial, or it is reported and stays unbound. -/
theorem callOf_cases (v : Visible) (kind : CallKind) (name : String) (args : List Expr) (loc : Loc)
    (expected : Option Ty) (attempt : List Ty → Option Trial) (types : Unit → List (Option Ty)) :
    (∃ c t, callOf v kind name args loc expected attempt types = bound kind name loc c t ∧
      c ∈ v.candidates kind name ∧ c.sig.params.length = args.length ∧
      (∀ u ∈ expected, u = c.sig.result) ∧ attempt c.sig.params = some t) ∨
    ∃ f, f.code.isError = true ∧
      callOf v kind name args loc expected attempt types = unbound kind name args loc f := by
  cases hw : winner (trials (v.candidates kind name) args.length expected attempt) with
  | some x =>
    exact .inl ⟨x.1, x.2, by simp only [callOf, hw], mem_trials (mem_of_winner hw)⟩
  | none =>
    refine .inr ⟨_, ?_, by simp only [callOf, hw]; rfl⟩
    split
    · cases kind <;> rfl
    · split
      · cases kind <;> cases expected <;> rfl
      · cases kind <;> cases expected <;> rfl

/-! ## What is kept without types stays -/

section

variable {cx : Context} {k : Erasure}

theorem erase_variableOf (hk : k.types = false) (expected : Option Ty) (v : Variable) :
    (variableOf cx expected v).value.erase k = v.erase k := by
  unfold variableOf
  split
  · rfl
  · split
    · simp [Variable.erase, hk]
    · rfl

theorem erase_emptyList (hk : k.types = false) (given expected : Option Ty) (l : Loc) :
    (emptyList given expected l).value.erase k = (Expr.emptyList given l).erase k := by
  unfold emptyList
  split <;> simp [Expr.erase, hk]

mutual

theorem erase_expr (hk : k.types = false) : ∀ (e : Expr) (expected : Option Ty),
    e.All (.fits cx.visible) → (expr cx expected e).value.erase k = e.erase k
  | .int .., _, _ | .char .., _, _ | .bool .., _, _ | .str .., _, _ => by rw [expr, literal]
  | .flat .., _, _ => by rw [expr]
  | .emptyList given l, expected, _ => by
    rw [expr]
    exact erase_emptyList hk given expected l
  | .pair a b l, expected, h => by
    rw [expr]
    simp only [pairOf, Expr.erase, erase_expr hk a _ h.1, erase_expr hk b _ h.2]
  | .var x, expected, _ => by
    rw [expr]
    simp only [Expr.erase, erase_variableOf hk]
  | .call kind name as l, expected, h => by
    rw [expr]
    obtain ⟨c, t, hc, -, hlen, -, ht⟩ | ⟨f, -, hf⟩ :=
      callOf_cases cx.visible kind name as l expected
      (fun ps => matchArgs cx as ps) fun _ => argTypes cx as
    · simp only [hc, bound, Expr.erase, hk, Bool.false_eq_true, if_false,
        erase_matchArgs hk as _ h hlen.symm ht]
    · simp only [hf, unbound]
  | .bound b as l, expected, h => by
    rw [expr]
    split
    · next c hc =>
      simp only [Expr.erase, hk, Bool.false_eq_true, if_false,
        erase_recheckArgs hk as _ h.2 (h.1 c hc).symm]
    · obtain ⟨c, t, hc, -, hlen, -, ht⟩ | ⟨f, -, hf⟩ :=
        callOf_cases cx.visible b.kind b.name as l expected
        (fun ps => matchArgs cx as ps) fun _ => argTypes cx as
      · simp only [hc, bound, Expr.erase, hk, Bool.false_eq_true, if_false,
          erase_matchArgs hk as _ h.2 hlen.symm ht]
      · simp only [hf, unbound, Expr.erase, hk, Bool.false_eq_true, if_false]

theorem erase_matchArgs (hk : k.types = false) : ∀ (as : List Expr) (ps : List Ty) {t : Trial},
    Expr.AllArgs (.fits cx.visible) as → as.length = ps.length → matchArgs cx as ps = some t →
    Expr.eraseArgs k t.args = Expr.eraseArgs k as
  | [], [], _, _, _, ht => by
    rw [matchArgs] at ht
    · cases ht; rfl
    · nofun
  | a :: as, p :: ps, _, h, hlen, ht => by
    rw [matchArgs] at ht
    split at ht
    · obtain ⟨t', ht', rfl⟩ := Option.map_eq_some_iff.1 ht
      simp only [Expr.eraseArgs, erase_expr hk a _ h.1,
        erase_matchArgs hk as ps h.2 (Nat.succ.inj hlen) ht']
    · cases ht

theorem erase_recheckArgs (hk : k.types = false) : ∀ (as : List Expr) (ps : List Ty),
    Expr.AllArgs (.fits cx.visible) as → as.length = ps.length →
    Expr.eraseArgs k (recheckArgs cx as ps).value = Expr.eraseArgs k as
  | [], [], _, _ => by
    rw [recheckArgs]
    · nofun
  | a :: as, p :: ps, h, hlen => by
    rw [recheckArgs]
    simp only [Expr.eraseArgs, erase_expr hk a _ h.1,
      erase_recheckArgs hk as ps h.2 (Nat.succ.inj hlen)]

end

end

/-! ## Bindings fit -/

section

variable {cx : Context}

theorem fits_of_mem {v : Visible} {kind : CallKind} {name : String} {c : Candidate}
    (h : c ∈ v.candidates kind name) (ty : Ty) {n : Nat} (hn : c.sig.params.length = n) :
    v.Fits ⟨kind, name, c.exported, c.index, c.module, ty⟩ n := by
  intro c' hc'
  rw [Visible.target_of_mem h] at hc'
  cases hc'
  exact hn

mutual

theorem all_expr : ∀ (e : Expr) (expected : Option Ty), e.All (.fits cx.visible) →
    (expr cx expected e).value.All (.fits cx.visible)
  | .int .., _, _ | .char .., _, _ | .bool .., _, _ | .str .., _, _ => by
    rw [expr, literal]; trivial
  | .flat .., _, h => by rw [expr]; exact h
  | .emptyList given l, expected, _ => by
    rw [expr, emptyList]
    split <;> trivial
  | .pair a b l, expected, h => by
    rw [expr]
    exact ⟨all_expr a _ h.1, all_expr b _ h.2⟩
  | .var x, expected, _ => by rw [expr]; trivial
  | .call kind name as l, expected, h => by
    rw [expr]
    obtain ⟨c, t, hc, hmem, hlen, -, ht⟩ | ⟨f, -, hf⟩ :=
      callOf_cases cx.visible kind name as l expected
      (fun ps => matchArgs cx as ps) fun _ => argTypes cx as
    · have hargs := all_matchArgs as _ h hlen.symm ht
      rw [hc]
      exact ⟨fits_of_mem hmem _ (hlen.trans hargs.2.symm), hargs.1⟩
    · rw [hf]
      exact h
  | .bound b as l, expected, h => by
    rw [expr]
    split
    · next c hc =>
      have hargs := all_recheckArgs as _ h.2 (h.1 c hc).symm
      refine ⟨fun c' hc' => ?_, hargs.1⟩
      rw [hargs.2]
      exact h.1 c' hc'
    · obtain ⟨c, t, hc, hmem, hlen, -, ht⟩ | ⟨f, -, hf⟩ :=
        callOf_cases cx.visible b.kind b.name as l
        expected (fun ps => matchArgs cx as ps) fun _ => argTypes cx as
      · have hargs := all_matchArgs as _ h.2 hlen.symm ht
        rw [hc]
        exact ⟨fits_of_mem hmem _ (hlen.trans hargs.2.symm), hargs.1⟩
      · rw [hf]
        exact h.2

theorem all_matchArgs : ∀ (as : List Expr) (ps : List Ty) {t : Trial},
    Expr.AllArgs (.fits cx.visible) as → as.length = ps.length → matchArgs cx as ps = some t →
    Expr.AllArgs (.fits cx.visible) t.args ∧ t.args.length = as.length
  | [], [], _, _, _, ht => by
    rw [matchArgs] at ht
    · cases ht
      exact ⟨trivial, rfl⟩
    · nofun
  | a :: as, p :: ps, _, h, hlen, ht => by
    rw [matchArgs] at ht
    split at ht
    · obtain ⟨t', ht', rfl⟩ := Option.map_eq_some_iff.1 ht
      have hargs := all_matchArgs as ps h.2 (Nat.succ.inj hlen) ht'
      exact ⟨⟨all_expr a _ h.1, hargs.1⟩, congrArg (· + 1) hargs.2⟩
    · cases ht

theorem all_recheckArgs : ∀ (as : List Expr) (ps : List Ty), Expr.AllArgs (.fits cx.visible) as →
    as.length = ps.length → Expr.AllArgs (.fits cx.visible) (recheckArgs cx as ps).value ∧
      (recheckArgs cx as ps).value.length = as.length
  | [], [], _, _ => by
    rw [recheckArgs]
    · exact ⟨trivial, rfl⟩
    · nofun
  | a :: as, p :: ps, h, hlen => by
    rw [recheckArgs]
    have hargs := all_recheckArgs as ps h.2 (Nat.succ.inj hlen)
    exact ⟨⟨all_expr a _ h.1, hargs.1⟩, congrArg (· + 1) hargs.2⟩

end

end

/-! ## Blocks and programs -/

section

variable {cx : Context} {k : Erasure}

/-- The one expression is the other one, checked or left alone. -/
def CheckedFrom (cx : Context) (e e' : Expr) : Prop :=
  e' = e ∨ ∃ expected, e' = (expr cx expected e).value

theorem CheckedFrom.erase_eq (hk : k.types = false) {e e' : Expr} (hl : CheckedFrom cx e e')
    (h : e.All (.fits cx.visible)) : e'.erase k = e.erase k := by
  obtain rfl | ⟨t, rfl⟩ := hl
  · rfl
  · exact erase_expr hk e _ h

theorem CheckedFrom.all {e e' : Expr} (hl : CheckedFrom cx e e') (h : e.All (.fits cx.visible)) :
    e'.All (.fits cx.visible) := by
  obtain rfl | ⟨t, rfl⟩ := hl
  · exact h
  · exact all_expr e _ h

theorem checkedFrom_against (cx : Context) (wanted : Ty → Ty) (x : Variable) (e : Expr) :
    (against cx wanted x e).value.1 = (variableOf cx none x).value ∧
      CheckedFrom cx e (against cx wanted x e).value.2 := by
  unfold against
  simp only [Noted.value_bind]
  split
  · exact ⟨rfl, .inr ⟨_, rfl⟩⟩
  · exact ⟨rfl, .inl rfl⟩

theorem checkedFrom_declared (cx : Context) (d : VarDecl) :
    ∃ init, (declared cx d).value = { d with init } ∧ CheckedFrom cx d.init init := by
  unfold declared
  split
  · exact ⟨_, rfl, .inr ⟨_, rfl⟩⟩
  · exact ⟨_, rfl, .inl rfl⟩

theorem checkedFrom_returned (cx : Context) (l : Loc) (e : Expr) :
    ∃ e', (returned cx l (some e)).value = some e' ∧ CheckedFrom cx e e' := by
  unfold returned
  split
  · exact ⟨_, rfl, .inl rfl⟩
  · next heq =>
    cases heq
    split
    · exact ⟨_, rfl, .inl rfl⟩
    · exact ⟨_, rfl, .inr ⟨_, rfl⟩⟩
  · next heq => cases heq

theorem returned_none (l : Loc) : (returned cx l none).value = none := by
  unfold returned
  split
  · rfl
  · next heq => cases heq
  · split <;> rfl

/-- Checking keeps a place but for types and bindings, and bindings still fit. -/
theorem agree_at (hk : k.types = false) {p : Place} (h : p.All (.fits cx.visible)) :
    Place.Agree k k p ((body cx).at p).value ∧ ((body cx).at p).value.All (.fits cx.visible) := by
  cases p with
  | decl d =>
    obtain ⟨init, hd, hl⟩ := checkedFrom_declared cx d
    simp only [Rewriter.at, body, Noted.value_bind, Noted.value_pure, hd, Place.Agree, Place.erase,
      VarDecl.erase, hl.erase_eq hk h]
    exact ⟨trivial, hl.all h⟩
  | assign x e =>
    have ha := checkedFrom_against cx id x e
    simp only [Rewriter.at, body, Noted.value_bind, Noted.value_pure, Place.Agree, Place.erase,
      ha.1, ha.2.erase_eq hk h.2, erase_variableOf hk]
    exact ⟨trivial, trivial, ha.2.all h.2⟩
  | each x e =>
    have ha := checkedFrom_against cx .list x e
    simp only [Rewriter.at, body, Noted.value_bind, Noted.value_pure, Place.Agree, Place.erase,
      ha.1, ha.2.erase_eq hk h.2, erase_variableOf hk]
    exact ⟨trivial, trivial, ha.2.all h.2⟩
  | guard e | call e =>
    simp only [Rewriter.at, body, Noted.value_bind, Noted.value_pure, Place.Agree, Place.erase,
      Checked.noted, erase_expr hk e _ h]
    exact ⟨trivial, all_expr e _ h⟩
  | ret l e =>
    cases e with
    | none =>
      simp only [Rewriter.at, body, Noted.value_bind, Noted.value_pure, Place.Agree, Place.erase,
        returned_none]
      exact ⟨trivial, fun _ h => by cases h⟩
    | some e =>
      obtain ⟨e', he, hl⟩ := checkedFrom_returned cx l e
      have hall := h e rfl
      simp only [Rewriter.at, body, Noted.value_bind, Noted.value_pure, Place.Agree, Place.erase,
        he, Option.map_some, hl.erase_eq hk hall]
      refine ⟨trivial, ?_⟩
      intro x hx
      cases hx
      exact hl.all hall

end

section

variable {v : Visible} {k : Erasure}

theorem global_eq (d : VarDecl) : global v d = ⟨(declared ⟨v, none⟩ d).value,
    (declared ⟨v, none⟩ d).notes ++ if d.ty.isSome then
      constants v (declared ⟨v, none⟩ d).value.init else []⟩ := by
  unfold global
  split <;> apply Noted.ext <;> simp

theorem value_global (d : VarDecl) : (global v d).value = (declared ⟨v, none⟩ d).value := by
  rw [global_eq]

theorem erase_item (hk : k.types = false) (i : Nat) {it : Item} (h : it.All (.fits v)) :
    (item v i it).value.erase k = it.erase k ∧ (item v i it).value.All (.fits v) := by
  cases it with
  | synonym s => exact ⟨rfl, trivial⟩
  | global d =>
    obtain ⟨init, hd, hl⟩ := checkedFrom_declared ⟨v, none⟩ d
    simp only [item, Noted.value_bind, Noted.value_pure, value_global, hd, Item.erase,
      VarDecl.erase, hl.erase_eq hk h]
    exact ⟨trivial, hl.all h⟩
  | fn f =>
    rw [item]
    split
    · exact ⟨rfl, h⟩
    · next o ho =>
      have hw := (Stmt.walk_rewriteAll_lift (w := body ⟨v, some ⟨o.args, o.locals, o.sig.result⟩⟩)
        (P := fun _ => True) f.body fun _ _ => trivial).and h
      constructor
      · simp only [Noted.value_bind, Noted.value_pure, Item.erase, FnDef.erase]
        have heq : Stmt.eraseAll k f.body = Stmt.eraseAll k _ := hw.erase_eq fun _ p q _ hd => by
          rw [← hd.1.1]
          exact (agree_at hk hd.2).1
        rw [heq]
      · refine hw.holds fun _ p q _ hd => ?_
        rw [← hd.1.1]
        exact (agree_at hk hd.2).2

theorem erase_items (hk : k.types = false) : ∀ (i : Nat) (its : List Item),
    (∀ it ∈ its, it.All (.fits v)) →
    (items v i its).value.map (Item.erase k) = its.map (Item.erase k) ∧
      ∀ it ∈ (items v i its).value, it.All (.fits v)
  | _, [], _ => ⟨by rw [items]; rfl, by rw [items]; nofun⟩
  | i, it :: rest, h => by
    rw [List.forall_mem_cons] at h
    have hit := erase_item hk i h.1
    have hrest := erase_items hk (i + 1) rest h.2
    rw [items]
    simp only [Noted.value_bind, Noted.value_pure, List.map_cons, hit.1, hrest.1]
    exact ⟨trivial, List.forall_mem_cons.2 ⟨hit.2, hrest.2⟩⟩

/-- Checking keeps a program but for types and bindings, and bindings still fit. -/
theorem erase_resolve (hk : k.types = false) {p : Program} (h : ∀ it ∈ p.items, it.All (.fits v)) :
    (resolve v p).value.erase k = p.erase k ∧ ∀ it ∈ (resolve v p).value.items,
      it.All (.fits v) := by
  have hi := erase_items hk 0 p.items h
  simp only [resolve, Noted.value_bind, Noted.value_pure, Program.erase, hi.1]
  exact ⟨trivial, hi.2⟩

end

end Typing

end SplFrontend
